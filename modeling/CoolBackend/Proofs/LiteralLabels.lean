import CoolBackend.Proofs.FreshLabels
import Mathlib.Data.List.Perm.Basic
import Mathlib.Data.List.Nodup

/-!
The pool counts its integers and its strings apart, and labels each with its number. It starts empty
and only grows, so that no two of its entries have the same label, and a label that was given once
is in every later pool.
-/
namespace CoolBackend

namespace Literal

def isInt : Literal → Bool
  | int _ _ => true
  | _ => false

def isString : Literal → Bool
  | string _ _ _ => true
  | _ => false

def constant : Literal → Constant
  | int _ value => .int value
  | string _ value _ => .string value
  | bool _ value => .bool value

theorem intPair?_eq_some {value : Int32} {e : Literal} {label : String} :
    e.intPair? = some (value,label) ↔ e = .int label value := by
  cases e <;> simp [intPair?,and_comm]

theorem stringPair?_eq_some {value : Bytes} {e : Literal} {label : String} :
    e.stringPair? = some (value,label) ↔ ∃ length, e = .string label value length := by
  cases e <;> simp [stringPair?,and_comm]

end Literal

namespace LiteralPool

def labels (pool : LiteralPool) : List String := pool.entries.map Literal.label

def constants (pool : LiteralPool) : List Constant := pool.entries.map Literal.constant

theorem nextInt_eq_countP (pool : LiteralPool) :
    pool.nextInt = pool.entries.countP Literal.isInt := by
  rw [pool.nextInt_eq,pool.ints_eq,List.length_filterMap_eq_countP]
  refine List.countP_congr fun e _ => ?_
  cases e <;> simp [Literal.intPair?,Literal.isInt]

theorem nextString_eq_countP (pool : LiteralPool) :
    pool.nextString = pool.entries.countP Literal.isString := by
  rw [pool.nextString_eq,pool.strings_eq,List.length_filterMap_eq_countP]
  refine List.countP_congr fun e _ => ?_
  cases e <;> simp [Literal.stringPair?,Literal.isString]

/-- A map finds a label exactly if an entry has the value. -/
theorem lookup_filterMap {κ : Type} [BEq κ] [LawfulBEq κ] {f : Literal → Option (κ × String)}
    {entries : List Literal} {key : κ} :
    (∀ label, (entries.filterMap f).lookup key = some label →
      ∃ e ∈ entries, f e = some (key,label)) ∧
    ((entries.filterMap f).lookup key = none → ∀ e ∈ entries, ∀ label, f e ≠ some (key,label)) := by
  refine ⟨fun label found => ?_,fun missing e member label same => ?_⟩
  · obtain ⟨before,after,split,-⟩ := List.lookup_eq_some_iff.mp found
    have inside : (key,label) ∈ entries.filterMap f := by
      rw [split]
      exact List.mem_append_right _ (.head _)
    exact List.mem_filterMap.mp inside
  · have other := List.lookup_eq_none_iff.mp missing _ (List.mem_filterMap.mpr ⟨e,member,same⟩)
    simp at other

/-- A request for an integer finds its entry or adds one under the next number. -/
theorem int_cases (pool : LiteralPool) (value : Int32) :
    (∃ label, .int label value ∈ pool.entries ∧ pool.int value = (label,pool)) ∨
    .int value ∉ pool.constants ∧
      ∃ label, label = "int_const" ++ toString (pool.entries.countP Literal.isInt) ∧
        pool.int value = (label,pool.addInt label value) := by
  rw [LiteralPool.int,pool.ints_eq]
  split
  next label found =>
    obtain ⟨e,member,same⟩ := lookup_filterMap.1 label found
    obtain rfl := Literal.intPair?_eq_some.mp same
    exact .inl ⟨label,member,rfl⟩
  next missing =>
    refine .inr ⟨fun held => ?_,_,?_,rfl⟩
    · obtain ⟨e,member,same⟩ := List.mem_map.mp held
      cases e with
      | int label other =>
        cases same
        exact lookup_filterMap.2 missing _ member label rfl
      | _ => cases same
    · rw [← pool.nextInt_eq_countP]
      rfl

/-- A request for a string finds its entry, or adds one under the next number, behind that of its
length. -/
theorem string_cases (pool : LiteralPool) (value : Bytes) :
    (∃ label length, .string label value length ∈ pool.entries ∧
      pool.string value = (label,pool)) ∨
    .string value ∉ pool.constants ∧
      ∃ label drawn, drawn = pool.int (Int32.ofNat value.length) ∧
        label = "str_const" ++ toString (drawn.2.entries.countP Literal.isString) ∧
        pool.string value = (label,drawn.2.addString label value drawn.1) := by
  rw [LiteralPool.string,pool.strings_eq]
  split
  next label found =>
    obtain ⟨e,member,same⟩ := lookup_filterMap.1 label found
    obtain ⟨length,rfl⟩ := Literal.stringPair?_eq_some.mp same
    exact .inl ⟨label,length,member,rfl⟩
  next missing =>
    refine .inr ⟨fun held => ?_,_,_,rfl,?_,rfl⟩
    · obtain ⟨e,member,same⟩ := List.mem_map.mp held
      cases e with
      | string label other length =>
        cases same
        exact lookup_filterMap.2 missing _ member label rfl
      | _ => cases same
    · rw [← nextString_eq_countP]
      rfl

/-- The entries of one kind have the numbers of their order. -/
def Numbered (pool : LiteralPool) (isKind : Literal → Bool) (stem : String) : Prop :=
  (pool.entries.filter isKind).map Literal.label =
    (List.range (pool.entries.countP isKind)).map (stem ++ toString ·)

theorem Numbered.push {pool later : LiteralPool} {isKind : Literal → Bool} {stem : String}
    (numbered : pool.Numbered isKind stem) {e : Literal} (grown : later.entries = pool.entries ++ [e])
    (next : isKind e → e.label = stem ++ toString (pool.entries.countP isKind)) :
    later.Numbered isKind stem := by
  rw [Numbered] at numbered ⊢
  rw [grown]
  by_cases kind : isKind e
  · simp [List.countP_append,kind,numbered,List.range_succ,next kind]
  · simp [List.countP_append,kind,numbered]

/-- What holds of a pool that was built by requests. -/
structure Sound (pool : LiteralPool) : Prop where
  ints : pool.Numbered Literal.isInt "int_const"
  strings : pool.Numbered Literal.isString "str_const"
  kinds : ∀ e ∈ pool.entries, e.isString = !e.isInt
  lengths : ∀ label value length, .string label value length ∈ pool.entries →
    length ∈ pool.labels

theorem sound_empty : empty.Sound := ⟨rfl,rfl,by simp [empty],by simp [empty]⟩

theorem Sound.int {pool : LiteralPool} (sound : pool.Sound) (value : Int32) :
    (pool.int value).2.Sound := by
  rcases int_cases pool value with ⟨label,-,answer⟩ | ⟨-,label,number,answer⟩
  · rw [answer]
    exact sound
  · rw [answer]
    refine ⟨sound.ints.push rfl fun _ => number,sound.strings.push rfl fun kind => ?_,?_,?_⟩
    · cases kind
    · exact List.forall_mem_append.mpr ⟨sound.kinds,by simp [Literal.isInt,Literal.isString]⟩
    · intro label value length member
      have earlier : .string label value length ∈ pool.entries := by simpa [addInt] using member
      rw [labels,addInt,List.map_append]
      exact List.mem_append_left _ (sound.lengths label value length earlier)

/-- An integer is in the pool under the label that its request gave. -/
theorem int_entry (pool : LiteralPool) (value : Int32) :
    .int (pool.int value).1 value ∈ (pool.int value).2.entries := by
  rcases int_cases pool value with ⟨label,member,answer⟩ | ⟨-,label,-,answer⟩
  · rw [answer]
    exact member
  · rw [answer]
    exact List.mem_append_right _ (.head _)

theorem string_entry (pool : LiteralPool) (value : Bytes) :
    ∃ length, .string (pool.string value).1 value length ∈ (pool.string value).2.entries := by
  rcases string_cases pool value with ⟨label,length,member,answer⟩ | ⟨-,label,drawn,-,-,answer⟩
  · rw [answer]
    exact ⟨length,member⟩
  · rw [answer]
    exact ⟨_,List.mem_append_right _ (.head _)⟩

theorem int_mem (pool : LiteralPool) (value : Int32) :
    (pool.int value).1 ∈ (pool.int value).2.labels :=
  List.mem_map.mpr ⟨_,pool.int_entry value,rfl⟩

theorem string_mem (pool : LiteralPool) (value : Bytes) :
    (pool.string value).1 ∈ (pool.string value).2.labels := by
  obtain ⟨length,member⟩ := pool.string_entry value
  exact List.mem_map.mpr ⟨_,member,rfl⟩

theorem Sound.string {pool : LiteralPool} (sound : pool.Sound) (value : Bytes) :
    (pool.string value).2.Sound := by
  rcases string_cases pool value with ⟨label,_,-,answer⟩ | ⟨-,label,drawn,made,number,answer⟩
  · rw [answer]
    exact sound
  · have longer := sound.int (Int32.ofNat value.length)
    have length := pool.int_mem (Int32.ofNat value.length)
    rw [← made] at longer length
    rw [answer]
    refine ⟨longer.ints.push rfl fun kind => ?_,longer.strings.push rfl fun _ => number,?_,?_⟩
    · cases kind
    · exact List.forall_mem_append.mpr ⟨longer.kinds,by simp [Literal.isInt,Literal.isString]⟩
    · intro label text other member
      rw [labels,addString,List.map_append]
      refine List.mem_append_left _ ?_
      rcases List.mem_append.mp member with earlier | new
      · exact longer.lengths label text other earlier
      · cases List.mem_singleton.mp new
        exact length

/-- A label in a sound pool is a number behind one of two stems. -/
theorem Sound.numbered {pool : LiteralPool} (sound : pool.Sound) {label : String}
    (member : label ∈ pool.labels) :
    ∃ stem ∈ ["int_const","str_const"], ∃ k : Nat, label = stem ++ toString k := by
  obtain ⟨e,here,rfl⟩ := List.mem_map.mp member
  have among {isKind : Literal → Bool} {stem : String} (numbered : pool.Numbered isKind stem)
      (kind : isKind e) : ∃ k : Nat, e.label = stem ++ toString k := by
    have inside : e.label ∈ (pool.entries.filter isKind).map Literal.label :=
      List.mem_map_of_mem (List.mem_filter.mpr ⟨here,kind⟩)
    rw [numbered] at inside
    obtain ⟨k,-,same⟩ := List.mem_map.mp inside
    exact ⟨k,same.symm⟩
  have kinds := sound.kinds e here
  by_cases kind : e.isInt
  · exact ⟨_,by simp,among sound.ints kind⟩
  · exact ⟨_,by simp,among sound.strings (by simpa [kind] using kinds)⟩

theorem Numbered.nodup {pool : LiteralPool} {isKind : Literal → Bool} {stem : String}
    (numbered : pool.Numbered isKind stem) (plain : Digitless stem) :
    ((pool.entries.filter isKind).map Literal.label).Nodup := by
  rw [numbered]
  exact List.nodup_range.map fun k k' same => (numbered_inj plain plain same).2

/-- No two entries of a sound pool have the same label. -/
theorem Sound.nodup {pool : LiteralPool} (sound : pool.Sound) : pool.labels.Nodup := by
  -- Integers and strings are numbered apart, each without gaps.
  have split : pool.labels.Perm ((pool.entries.filter Literal.isInt).map Literal.label ++
      (pool.entries.filter Literal.isString).map Literal.label) := by
    rw [← List.map_append,List.filter_congr sound.kinds]
    exact (List.filter_append_perm Literal.isInt pool.entries).symm.map _
  rw [split.nodup_iff]
  refine (sound.ints.nodup (by decide)).append (sound.strings.nodup (by decide)) ?_
  intro label int string
  rw [sound.ints] at int
  rw [sound.strings] at string
  obtain ⟨k,-,rfl⟩ := List.mem_map.mp int
  obtain ⟨k',-,same⟩ := List.mem_map.mp string
  exact absurd (numbered_inj (by decide) (by decide) same).1 (by decide)

/-- A pool before and after some requests. -/
structure Grows (pool later : LiteralPool) : Prop where
  kept : pool.entries <+: later.entries
  sound : pool.Sound → later.Sound

namespace Grows

variable {pool later last : LiteralPool}

theorem refl (pool : LiteralPool) : pool.Grows pool := ⟨List.prefix_rfl,id⟩

theorem trans (first : pool.Grows later) (second : later.Grows last) : pool.Grows last :=
  ⟨first.kept.trans second.kept,second.sound ∘ first.sound⟩

theorem labels (grows : pool.Grows later) {label : String} (member : label ∈ pool.labels) :
    label ∈ later.labels := (grows.kept.sublist.map Literal.label).subset member

theorem int (pool : LiteralPool) (value : Int32) : pool.Grows (pool.int value).2 := by
  refine ⟨?_,fun sound => sound.int value⟩
  rcases int_cases pool value with ⟨label,-,answer⟩ | ⟨-,label,-,answer⟩
  · simp [answer]
  · rw [answer]
    exact List.prefix_append ..

theorem string (pool : LiteralPool) (value : Bytes) : pool.Grows (pool.string value).2 := by
  refine ⟨?_,fun sound => sound.string value⟩
  rcases string_cases pool value with ⟨label,_,-,answer⟩ | ⟨-,label,drawn,rfl,-,answer⟩
  · simp [answer]
  · rw [answer]
    exact (int pool _).kept.trans (List.prefix_append ..)

end Grows

end LiteralPool

/-- A supply before and after requests for constants: nothing was drawn from the counter. -/
structure Supply.Requests (s t : Supply) : Prop where
  grows : s.literals.Grows t.literals
  counter : t.labels = s.labels

namespace Supply.Requests

variable {s u t : Supply}

theorem refl (s : Supply) : s.Requests s := ⟨.refl _,rfl⟩

theorem trans (first : s.Requests u) (second : u.Requests t) : s.Requests t :=
  ⟨first.grows.trans second.grows,second.counter.trans first.counter⟩

theorem int (s : Supply) (value : Int32) : s.Requests (s.int value).2 := ⟨.int ..,rfl⟩

theorem string (s : Supply) (value : Bytes) : s.Requests (s.string value).2 := ⟨.string ..,rfl⟩

end Supply.Requests

section Draws

variable {s t : Supply} {label : String}

theorem int_drawn {value : Int32} (drawn : LowerM.int value s = .ok label t) :
    s.Requests t ∧ label ∈ t.literals.labels := by
  cases drawn
  exact ⟨.int ..,LiteralPool.int_mem ..⟩

theorem string_drawn {value : Bytes} (drawn : LowerM.string value s = .ok label t) :
    s.Requests t ∧ label ∈ t.literals.labels := by
  cases drawn
  exact ⟨.string ..,LiteralPool.string_mem ..⟩

theorem constant_drawn {value : Constant} (drawn : LowerM.constant value s = .ok label t) :
    s.Requests t ∧ (label ∈ t.literals.labels ∨ label ∈ Literal.bools.map Literal.label) := by
  cases value with
  | int value => exact (int_drawn drawn).imp_right .inl
  | string value => exact (string_drawn drawn).imp_right .inl
  | bool value =>
    cases drawn
    refine ⟨.refl _,.inr ?_⟩
    cases value <;> decide

end Draws

end CoolBackend
