/-!
File names and string constants are bytes. A text is the byte string of its UTF-8 form, and
`toText?` recovers it from exactly those byte strings that have one.
-/
namespace CoolBackend

abbrev Bytes := List UInt8

namespace Bytes

def ofText (s : String) : Bytes := s.toByteArray.data.toList

def toText? (b : Bytes) : Option String := String.fromUTF8? ⟨b.toArray⟩

theorem toText?_ofText (s : String) : toText? (ofText s) = some s := by
  unfold toText? ofText String.fromUTF8?
  exact dif_pos s.isValidUTF8

theorem ofText_eq (s : String) : ofText s = s.toList.flatMap String.utf8EncodeChar := by
  have bytes : s.toByteArray = s.toList.utf8Encode := by
    rw [← String.toByteArray_ofList, String.ofList_toList]
  rw [ofText, bytes, List.utf8Encode, List.data_toByteArray]

end Bytes

end CoolBackend
