import CoolBackend.Proofs.Runs

/-!
A class stands at the position of its tag, no name occurs twice, and a parent link that is set leads
to the class of the parent's name. Every step on a table keeps this; what a class was defined with
never changes.
-/
namespace CoolBackend

/-- What a class was defined with, without what linking and layout queries add. -/
def ClassEntry.bare (c : ClassEntry) : ClassEntry :=
  { c with parent := none, attributeLayout := none, dispatchLayout := none }

namespace ClassTable

def ofList (cs : List ClassEntry) : ClassTable where
  classes := cs.toArray
  byName := (cs.map (·.name)).zipIdx
  byName_eq := rfl

@[simp] theorem toList_ofList (cs : List ClassEntry) : (ofList cs).toList = cs := rfl

structure Sound (table : ClassTable) : Prop where
  tag : ∀ {i : Nat} {c : ClassEntry}, table.classes[i]? = some c → c.tag = i
  name : ∀ {i j : Nat} {c d : ClassEntry}, table.classes[i]? = some c →
    table.classes[j]? = some d → c.name = d.name → i = j
  parent : ∀ {i p : Nat} {c : ClassEntry}, table.classes[i]? = some c → c.parent = some p →
    c.parentName ≠ "" ∧ ∃ d, table.classes[p]? = some d ∧ d.name = c.parentName

theorem mem_toList {table : ClassTable} {c : ClassEntry} :
    c ∈ table.toList ↔ ∃ i : Nat, table.classes[i]? = some c := by
  rw [toList,Array.mem_toList_iff,Array.mem_iff_getElem?]

theorem Sound.at_tag {table : ClassTable} {c : ClassEntry} (sound : table.Sound)
    (member : c ∈ table.toList) : table.classes[c.tag]? = some c := by
  obtain ⟨i,at_i⟩ := mem_toList.mp member
  rw [sound.tag at_i]
  exact at_i

theorem Sound.exists_of_lt {table : ClassTable} (sound : table.Sound) {tag : Nat}
    (inside : tag < table.size) : ∃ c ∈ table.toList, c.tag = tag := by
  have at_tag : table.classes[tag]? = some _ := Array.getElem?_eq_getElem inside
  exact ⟨_,mem_toList.mpr ⟨tag,at_tag⟩,sound.tag at_tag⟩

theorem Sound.eq_of_name {table : ClassTable} {c d : ClassEntry} (sound : table.Sound)
    (hc : c ∈ table.toList) (hd : d ∈ table.toList) (same : c.name = d.name) : c = d := by
  have tags := sound.name (sound.at_tag hc) (sound.at_tag hd) same
  have at_c := sound.at_tag hc
  rw [tags,sound.at_tag hd] at at_c
  exact (Option.some.inj at_c).symm

theorem lookup_names (name : String) (cs : List ClassEntry) (start : Nat) :
    ((cs.map (·.name)).zipIdx start).lookup name =
      (cs.findIdx? (·.name = name)).map (· + start) := by
  induction cs generalizing start with
  | nil => rfl
  | cons c rest ih =>
    rw [List.map_cons,List.zipIdx_cons,List.lookup_cons,List.findIdx?_cons]
    by_cases same : c.name = name
    · simp [same]
    · have other : (name == c.name) = false := beq_eq_false_iff_ne.mpr (Ne.symm same)
      rw [other,ih (start + 1)]
      simp [same,Function.comp_def,Nat.add_assoc,Nat.add_comm 1]

/-- The index leads to the first class of a name. -/
theorem find?_eq (table : ClassTable) (name : String) :
    table.find? name = table.toList.find? (·.name = name) := by
  rw [find?,table.byName_eq,lookup_names,toList,List.find?_eq_bind_findIdx?_getElem?]
  simp

theorem find?_eq_none {table : ClassTable} {name : String} :
    table.find? name = none ↔ ∀ c ∈ table.toList, c.name ≠ name := by
  simp [find?_eq]

theorem mem_of_find? {table : ClassTable} {name : String} {c : ClassEntry}
    (found : table.find? name = some c) : c ∈ table.toList ∧ c.name = name := by
  rw [find?_eq] at found
  exact ⟨List.mem_of_find?_eq_some found,by simpa using List.find?_some found⟩

theorem find?_isSome {table : ClassTable} {name : String} :
    (table.find? name).isSome ↔ ∃ c ∈ table.toList, c.name = name := by
  simp [find?_eq]

theorem Sound.find?_name {table : ClassTable} {c : ClassEntry} (sound : table.Sound)
    (member : c ∈ table.toList) : table.find? c.name = some c := by
  obtain ⟨d,found⟩ := Option.isSome_iff_exists.mp (find?_isSome.mpr ⟨c,member,rfl⟩)
  obtain ⟨memberD,same⟩ := mem_of_find? found
  rw [found,sound.eq_of_name memberD member same]

theorem require_eq_ok {table : ClassTable} {name : String} {c : ClassEntry} :
    table.require name = .ok c ↔ table.find? name = some c := by
  unfold require
  split <;> simp_all

/-- Adding a class appends it, unless its name is taken. -/
theorem addEntry_run (entry : Nat → ClassEntry) (table : ClassTable) :
    addEntry entry table =
      if (table.find? (entry table.size).name).isSome then
        .error (.definedTwice (entry table.size).name) table
      else .ok (entry table.size) (table.insert (entry table.size)) := by
  change (if (table.find? (entry table.size).name).isSome then _ else _ : TableM ClassEntry) table
    = _
  split <;> rfl

theorem toList_insert (table : ClassTable) (c : ClassEntry) :
    (table.insert c).toList = table.toList ++ [c] := by
  simp [insert,toList]

theorem size_insert (table : ClassTable) (c : ClassEntry) :
    (table.insert c).size = table.size + 1 := by
  simp [insert,size]

theorem insert_get (table : ClassTable) (c : ClassEntry) (i : Nat) :
    (table.insert c).classes[i]? = if i = table.size then some c else table.classes[i]? := by
  simp only [insert,size,Array.getElem?_push]
  split <;> simp_all

/-- A class without a parent link joins a sound table under the next tag and a new name. -/
theorem Sound.insert {table : ClassTable} {c : ClassEntry} (sound : table.Sound)
    (tag : c.tag = table.size) (free : table.find? c.name = none) (unlinked : c.parent = none) :
    (table.insert c).Sound := by
  have fresh (i : Nat) (d : ClassEntry) (at_i : table.classes[i]? = some d) : d.name ≠ c.name :=
    find?_eq_none.mp free d (mem_toList.mpr ⟨i,at_i⟩)
  constructor
  · intro i d at_i
    rw [insert_get] at at_i
    split at at_i
    next last => cases at_i; rw [tag,last]
    next => exact sound.tag at_i
  · intro i j d e at_i at_j same
    rw [insert_get] at at_i at_j
    split at at_i <;> split at at_j
    next hi hj => rw [hi,hj]
    next => cases at_i; exact absurd same.symm (fresh j e at_j)
    next => cases at_j; exact absurd same (fresh i d at_i)
    next => exact sound.name at_i at_j same
  · intro i p d at_i link
    rw [insert_get] at at_i
    split at at_i
    next => cases at_i; rw [unlinked] at link; cases link
    next =>
      obtain ⟨named,e,at_p,same⟩ := sound.parent at_i link
      refine ⟨named,e,?_,same⟩
      have bound : p < table.size := by
        obtain ⟨bound,-⟩ := Array.getElem?_eq_some_iff.mp at_p
        exact bound
      rw [insert_get,if_neg (Nat.ne_of_lt bound)]
      exact at_p

theorem sound_empty : empty.Sound := by
  constructor <;> intros <;> simp_all [empty]

theorem eq_of_toList {table table' : ClassTable} (same : table.toList = table'.toList) :
    table = table' := by
  obtain ⟨classes,byName,rfl⟩ := table
  obtain ⟨classes',byName',rfl⟩ := table'
  cases Array.toList_inj.mp same
  rfl

/-- Looking a name up gives the same class in tables that were defined alike. -/
theorem find?_bare {table table' : ClassTable} (name : String)
    (same : table.toList.map ClassEntry.bare = table'.toList.map ClassEntry.bare) :
    (table.find? name).map ClassEntry.bare = (table'.find? name).map ClassEntry.bare := by
  have through (t : ClassTable) : (t.find? name).map ClassEntry.bare =
      (t.toList.map ClassEntry.bare).find? (·.name = name) := by
    rw [List.find?_map,find?_eq]
    rfl
  rw [through,through,same]

section Update

variable {table : ClassTable} {tag : Nat} {f : ClassEntry → ClassEntry}
  {names : ∀ c, (f c).name = c.name}

theorem update_get (table : ClassTable) (tag : Nat) (f : ClassEntry → ClassEntry)
    (names : ∀ c, (f c).name = c.name) (i : Nat) :
    (table.update tag f names).classes[i]? =
      if i = tag then table.classes[i]?.map f else table.classes[i]? := by
  simp only [update,Array.getElem?_modify]
  split <;> split <;> simp_all

/-- A change that keeps a part of each class keeps that part of the table. -/
theorem update_map {α : Type} (part : ClassEntry → α) (keeps : ∀ c, part (f c) = part c) :
    (table.update tag f names).toList.map part = table.toList.map part := by
  apply List.ext_getElem?
  intro i
  simp only [toList,List.getElem?_map,Array.getElem?_toList,update_get]
  split
  next => simp [Function.comp_def,keeps]
  next => rfl

/-- A change of one class keeps a table sound if it keeps what the class was defined with and sets
no wrong parent link. -/
theorem Sound.update (sound : table.Sound) (keeps : ∀ c, (f c).bare = c.bare)
    (link : ∀ c p, table.classes[tag]? = some c → (f c).parent = some p →
      c.parentName ≠ "" ∧ ∃ d, table.classes[p]? = some d ∧ d.name = c.parentName) :
    (table.update tag f names).Sound := by
  have tagKept (c : ClassEntry) : (f c).tag = c.tag := congrArg (·.tag) (keeps c)
  have parentKept (c : ClassEntry) : (f c).parentName = c.parentName :=
    congrArg (·.parentName) (keeps c)
  -- Every class of the changed table is one of the old table, up to what `f` may change.
  have origin {i : Nat} {c : ClassEntry} (at_i : (table.update tag f names).classes[i]? = some c) :
      ∃ d, table.classes[i]? = some d ∧ c.tag = d.tag ∧ c.name = d.name ∧
        c.parentName = d.parentName ∧ (c.parent = d.parent ∨ i = tag ∧ c = f d) := by
    rw [update_get] at at_i
    split at at_i
    next same =>
      obtain ⟨d,at_d,rfl⟩ := Option.map_eq_some_iff.mp at_i
      exact ⟨d,at_d,tagKept d,names d,parentKept d,.inr ⟨same,rfl⟩⟩
    next => exact ⟨c,at_i,rfl,rfl,rfl,.inl rfl⟩
  have image {p : Nat} {d : ClassEntry} (at_p : table.classes[p]? = some d) :
      ∃ e, (table.update tag f names).classes[p]? = some e ∧ e.name = d.name := by
    rw [update_get,at_p]
    split
    next => exact ⟨f d,rfl,names d⟩
    next => exact ⟨d,rfl,rfl⟩
  constructor
  · intro i c at_i
    obtain ⟨d,at_d,tags,-⟩ := origin at_i
    rw [tags]
    exact sound.tag at_d
  · intro i j c d at_i at_j same
    obtain ⟨c',at_c,-,names,-⟩ := origin at_i
    obtain ⟨d',at_d,-,names',-⟩ := origin at_j
    exact sound.name at_c at_d (by rw [← names,same,names'])
  · intro i p c at_i set
    obtain ⟨d,at_d,-,-,parentName,parent | ⟨rfl,rfl⟩⟩ := origin at_i
    · obtain ⟨named,e,at_e,same⟩ := sound.parent at_d (parent.symm.trans set)
      obtain ⟨e',at_e',nameE⟩ := image at_e
      exact ⟨parentName ▸ named,e',at_e',by rw [nameE,same,parentName]⟩
    · obtain ⟨named,e,at_e,same⟩ := link d p at_d set
      obtain ⟨e',at_e',nameE⟩ := image at_e
      exact ⟨parentName ▸ named,e',at_e',by rw [nameE,same,parentName]⟩

end Update

end ClassTable

end CoolBackend
