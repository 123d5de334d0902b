import CoolBackend.Glob
import Mathlib.Data.List.Induction

/-!
A well-formed pattern ends where its text ends: what follows is read as if it stood alone. So a path
of patterns is well-formed from its front on, element by element. A text without pattern characters
stands for itself, and behind a star for the names that end in it. Names are matched byte by byte,
but no character ends in the bytes of another one, so that this holds for their characters too.
-/
namespace CoolBackend

theorem char_eq_of_suffix {x y : Char}
    (ends : String.utf8EncodeChar x <:+ String.utf8EncodeChar y) : x = y := by
  obtain ⟨before,whole⟩ := ends
  have bound : before.length < (String.utf8EncodeChar y).length := by
    rw [← whole,List.length_append]
    exact Nat.lt_add_of_pos_right (List.length_pos_iff.mpr String.utf8EncodeChar_ne_nil)
  -- Of the bytes of a character, only the first one can start a character.
  have first : (String.utf8EncodeChar y)[before.length].IsUTF8FirstByte := by
    simp only [← whole,List.getElem_append_right (Nat.le_refl _),Nat.sub_self]
    exact UInt8.isUTF8FirstByte_getElem_zero_utf8EncodeChar
  have none := List.eq_nil_of_length_eq_zero (UInt8.isUTF8FirstByte_getElem_utf8EncodeChar.mp first)
  rw [none,List.nil_append] at whole
  have texts : Bytes.ofText (String.ofList [x]) = Bytes.ofText (String.ofList [y]) := by
    simp [Bytes.ofText_eq,whole]
  have same := congrArg Bytes.toText? texts
  rw [Bytes.toText?_ofText,Bytes.toText?_ofText] at same
  simpa using congrArg (Option.map String.toList) same

/-- The bytes of a text end in those of another one only if its characters do. -/
theorem Bytes.ofText_suffix {ending text : String} :
    ofText ending <:+ ofText text ↔ ending.toList <:+ text.toList := by
  rw [ofText_eq,ofText_eq]
  constructor
  · intro ends
    generalize ending.toList = xs, text.toList = ys at ends
    induction xs using List.reverseRecOn generalizing ys with
    | nil => exact List.nil_suffix
    | append_singleton xs x ih =>
      rw [List.flatMap_append,List.flatMap_singleton] at ends
      cases ys using List.reverseRecOn with
      | nil => simp [String.utf8EncodeChar_ne_nil] at ends
      | append_singleton ys y =>
        rw [List.flatMap_append,List.flatMap_singleton] at ends
        have last := (List.suffix_append _ _).trans ends
        obtain rfl : x = y := by
          rcases List.suffix_or_suffix_of_suffix last (List.suffix_append _ _) with inside | inside
          · exact char_eq_of_suffix inside
          · exact (char_eq_of_suffix inside).symm
        obtain ⟨before,whole⟩ := ends
        rw [← List.append_assoc] at whole
        obtain ⟨start,same⟩ := ih ys ⟨before,List.append_cancel_right whole⟩
        exact ⟨start,by rw [← List.append_assoc,same]⟩
  · rintro ⟨before,whole⟩
    rw [← whole,List.flatMap_append]
    exact List.suffix_append _ _

theorem Text.mem_suffixes {α : Type} {part list : List α} :
    part ∈ suffixes list ↔ part <:+ list := by
  induction list with
  | nil => simp [suffixes]
  | cons a rest ih => simp [suffixes,ih,List.suffix_cons_iff]

namespace Glob

/-- A character that means something in a pattern. -/
def isMeta (c : Char) : Bool := ['*','?','[','\\'].contains c

section Reading

variable {c : Char} {negated : Bool} {ranges : List (Char × Char)} {low : Char}

theorem pieces_cons (plain : isMeta c = false) (rest : List Char) :
    pieces (c :: rest) = (pieces rest).map (literal c) := by
  have other : c ≠ '*' ∧ c ≠ '?' ∧ c ≠ '[' ∧ c ≠ '\\' := by simpa [isMeta] using plain
  rw [pieces] <;> simp_all

theorem pieces_set (other : c ≠ '^') (rest : List Char) :
    pieces ('[' :: c :: rest) = setNext false [] (c :: rest) := by
  rw [pieces]
  all_goals simp_all

variable (dash : c ≠ '-') (close : c ≠ ']') (slash : c ≠ '\\')

include dash close slash

theorem setNext_cons (rest : List Char) :
    setNext negated ranges (c :: rest) = setAfter negated ranges c rest := by
  rw [setNext] <;> simp_all

theorem setAfter_cons (rest : List Char) :
    setAfter negated ranges low (c :: rest) =
      setAfter negated (ranges ++ [(low,low)]) c rest := by
  rw [setAfter] <;> simp_all

theorem setHigh_cons (rest : List Char) :
    setHigh negated ranges low (c :: rest) = setNext negated (ranges ++ [(low,c)]) rest := by
  rw [setHigh] <;> simp_all

end Reading

/-- Behind characters that can be read, what follows can be read if it can be read alone. -/
theorem isSome_pieces_append (rest : List Char) :
    (∀ chars, (pieces chars).isSome →
      (pieces (chars ++ rest)).isSome = (pieces rest).isSome) ∧
    (∀ negated ranges chars, (setNext negated ranges chars).isSome →
      (setNext negated ranges (chars ++ rest)).isSome = (pieces rest).isSome) ∧
    (∀ negated ranges low chars, (setAfter negated ranges low chars).isSome →
      (setAfter negated ranges low (chars ++ rest)).isSome = (pieces rest).isSome) ∧
    ∀ negated ranges low chars, (setHigh negated ranges low chars).isSome →
      (setHigh negated ranges low (chars ++ rest)).isSome = (pieces rest).isSome := by
  have unescaped {c : Char} {chars : List Char}
      (more : ∀ d tail, c = '\\' → chars = d :: tail → False)
      (last : c = '\\' → chars = [] → False) : c ≠ '\\' := by
    intro same
    cases chars with
    | nil => exact last same rfl
    | cons d tail => exact more d tail same rfl
  apply pieces.mutual_induct
  -- A set, and a character that has no meaning of its own at each of the four places. All other
  -- cases look at one or two given characters.
  case case7 =>
    intro chars other ih closed
    cases chars with
    | nil => simp [pieces,setNext] at closed
    | cons c chars =>
      have plain : c ≠ '^' := fun same => other chars (same ▸ rfl)
      rw [pieces_set plain] at closed
      rw [List.cons_append,List.cons_append,pieces_set plain]
      exact ih closed
  case case8 =>
    intro c chars star question more last _ set ih closed
    have plain : isMeta c = false := by
      have other := unescaped more last
      simp_all [isMeta]
    rw [pieces_cons plain,Option.isSome_map] at closed
    rw [List.cons_append,pieces_cons plain,Option.isSome_map]
    exact ih closed
  case case15 =>
    intro negated ranges c chars dash close more last ih closed
    have plain := unescaped more last
    rw [setNext_cons dash close plain] at closed
    rw [List.cons_append,setNext_cons dash close plain]
    exact ih closed
  case case21 =>
    intro negated ranges low c chars dash close more last ih closed
    have plain := unescaped more last
    rw [setAfter_cons dash close plain] at closed
    rw [List.cons_append,setAfter_cons dash close plain]
    exact ih closed
  case case27 =>
    intro negated ranges low c chars dash close more last ih closed
    have plain := unescaped more last
    rw [setHigh_cons dash close plain] at closed
    rw [List.cons_append,setHigh_cons dash close plain]
    exact ih closed
  all_goals
    intros
    simp_all [pieces,setNext,setAfter,setHigh]

def wellFormed (pattern : String) : Bool := (parse? pattern).isSome

theorem wellFormed_eq (pattern : String) : wellFormed pattern = (pieces pattern.toList).isSome :=
  Option.isSome_map

theorem wellFormed_append {first : String} (formed : wellFormed first) (second : String) :
    wellFormed (first ++ second) = wellFormed second := by
  rw [wellFormed_eq] at formed
  rw [wellFormed_eq,String.toList_append,wellFormed_eq]
  exact (isSome_pieces_append _).1 _ formed

theorem hasMeta_append (first second : String) :
    hasMeta (first ++ second) = (hasMeta first || hasMeta second) := by
  rw [hasMeta,String.toList_append,List.any_append]
  rfl

theorem pieces_plain {text : String} (plain : hasMeta text = false) :
    pieces text.toList = some ((Bytes.ofText text).map (.atom ∘ .byte)) := by
  rw [hasMeta] at plain
  rw [Bytes.ofText_eq]
  generalize text.toList = chars at plain
  induction chars with
  | nil => rfl
  | cons c rest ih =>
    obtain ⟨here,later⟩ := Bool.or_eq_false_iff.mp (List.any_cons ▸ plain)
    rw [pieces_cons here,ih later]
    simp [literal,Bytes.ofText_eq]

theorem wellFormed_of_plain {text : String} (plain : hasMeta text = false) : wellFormed text := by
  rw [wellFormed_eq,pieces_plain plain]
  rfl

theorem intercalate_snoc {above : List String} (some : above ≠ []) (last : String) :
    "/".intercalate (above ++ [last]) = "/".intercalate above ++ ("/" ++ last) := by
  rw [String.intercalate_append_of_ne_nil some (List.cons_ne_nil _ _),String.intercalate_singleton,
    String.append_assoc]

theorem hasMeta_joined (elements : List String) :
    hasMeta ("/".intercalate elements) = elements.any hasMeta := by
  induction elements using List.reverseRecOn with
  | nil => rfl
  | append_singleton above last ih =>
    cases above with
    | nil => simp
    | cons first above =>
      have slash : hasMeta "/" = false := rfl
      rw [intercalate_snoc (List.cons_ne_nil _ _),hasMeta_append,hasMeta_append,ih,slash]
      simp [Bool.or_assoc]

/-- Behind well-formed elements, a path is well-formed if its last element is. -/
theorem wellFormed_joined {above : List String} (formed : ∀ e ∈ above, wellFormed e)
    (last : String) : wellFormed ("/".intercalate (above ++ [last])) = wellFormed last := by
  induction above using List.reverseRecOn generalizing last with
  | nil => simp
  | append_singleton above next ih =>
    obtain ⟨before,here⟩ := List.forall_mem_append.mp formed
    have joined : wellFormed ("/".intercalate (above ++ [next])) := by
      rw [ih before]
      exact here next (.head _)
    have slash : wellFormed "/" := wellFormed_of_plain rfl
    rw [intercalate_snoc (by simp),wellFormed_append joined,wellFormed_append slash]

/-- Whether a name matches a pattern. -/
def accepts (pattern name : String) : Bool :=
  (parse? pattern).any (matchRuns · (Bytes.ofText name))

theorem rest?_bytes {starred : Bool} {bytes name rest : Bytes} :
    (Run.mk starred (bytes.map .byte)).rest? name = some rest ↔ name = bytes ++ rest := by
  rw [Run.rest?]
  induction bytes generalizing name with
  | nil => simp
  | cons b bytes ih =>
    rw [List.map_cons,List.foldlM_cons,Option.bind_eq_bind,Option.bind_eq_some_iff]
    simp only [ih]
    cases name with
    | nil => simp [Atom.rest?]
    | cons c name => simp [Atom.rest?]

theorem matchRuns_star (bytes name : Bytes) :
    matchRuns [⟨true,bytes.map .byte⟩] name = true ↔ bytes <:+ name := by
  rw [matchRuns]
  by_cases none : bytes = []
  · simp [none]
  · rw [if_neg (by simpa using none),List.isEmpty_nil,Run.first?,if_pos rfl]
    split
    next left found =>
      obtain ⟨part,inside,read⟩ := List.exists_of_findSome?_eq_some found
      obtain ⟨read,ended⟩ := Option.filter_eq_some_iff.mp read
      obtain rfl : left = [] := by simpa using ended
      have whole : part = bytes := by simpa using rest?_bytes.mp read
      rw [whole,Text.mem_suffixes] at inside
      simpa [matchRuns] using inside
    next failed =>
      simp only [Bool.false_eq_true,false_iff]
      intro ends
      have each := List.findSome?_eq_none_iff.mp failed bytes (Text.mem_suffixes.mpr ends)
      have read : (Run.mk true (bytes.map .byte)).rest? bytes = some [] :=
        rest?_bytes.mpr (List.append_nil _).symm
      simp [read] at each

theorem runs_atoms (atoms more : List Atom) :
    runs true atoms (more.map .atom) = [⟨true,atoms ++ more⟩] := by
  induction more generalizing atoms with
  | nil => simp [runs]
  | cons a more ih => rw [List.map_cons,runs,ih,List.append_assoc,List.singleton_append]

/-- Behind a star, a text without pattern characters matches the names that end in it. -/
theorem accepts_star {ending : String} (plain : hasMeta ending = false) (name : String) :
    accepts ("*" ++ ending) name = ending.toList.isSuffixOf name.toList := by
  have parsed : parse? ("*" ++ ending) = some [⟨true,(Bytes.ofText ending).map .byte⟩] := by
    have chars : ("*" ++ ending).toList = '*' :: ending.toList := by simp
    rw [parse?,chars,pieces,pieces_plain plain,← List.map_map,Option.map_some,Option.map_some,runs,
      if_pos List.isEmpty_nil,runs_atoms,List.nil_append]
  rw [Bool.eq_iff_iff,accepts,parsed,Option.any_some,matchRuns_star,Bytes.ofText_suffix,
    List.isSuffixOf_iff_suffix]

end Glob

end CoolBackend
