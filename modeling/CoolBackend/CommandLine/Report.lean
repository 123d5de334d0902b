import CoolBackend.ClassTable.Layout

/-!
Class layouts as text: a line for each class, below it its attributes with their offsets and its
methods with their slots.
-/
namespace CoolBackend

def padded (width n : Nat) : String :=
  let digits := toString n
  digits ++ String.ofList (List.replicate (width - digits.length) ' ')

def AttributeSlot.report (s : AttributeSlot) : String :=
  s!"    attr   {padded 4 s.offset} {s.name} : {s.type}  ({s.className})\n"

def DispatchEntry.report (e : DispatchEntry) : String :=
  s!"    method {padded 4 e.slot} {e.label}\n"

namespace ClassTable

def reportClass (table : ClassTable) (c : ClassEntry) : String :=
  let parent := (table.parentNameOf? c).getD "-"
  let size := (table.slots c).length + headerWords
  s!"{c.name}  tag={c.tag}  parent={parent}  size={size}\n" ++
    String.join ((table.slots c).map (·.report)) ++
    String.join ((table.entries c).map (·.report))

def report (table : ClassTable) : String := String.join (table.toList.map table.reportClass)

end ClassTable

end CoolBackend
