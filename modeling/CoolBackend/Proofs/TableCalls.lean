import CoolBackend.Location
import CoolBackend.Proofs.HierarchyChecks

/-!
Whatever is called on a class table, in any order and with or without success, the table only grows
at its end. A class keeps its position, its tag, its name and the name of its parent; what comes
later are parent links and kept layouts. So looking up by name and by tag always agree, and a parent
link always leads to the class of the parent's name.
-/
namespace CoolBackend

/-- A question about layouts. The table keeps what it computes for the answer. -/
inductive LayoutQuery where
  | attributes (tag : Nat)
  | dispatch (tag : Nat)
  | objectSize (tag : Nat)
  | attributeIndex (tag : Nat) (name : String)
  | methodSlot (tag : Nat) (method : String)
  | build

inductive LayoutAnswer where
  | slots (slots : List AttributeSlot)
  | entries (entries : List DispatchEntry)
  | words (size : Nat)
  | position (index : Option Nat)
  | built
  deriving DecidableEq

namespace LayoutQuery

def run : LayoutQuery → ClassTable → LayoutAnswer × ClassTable
  | attributes tag, table => (table.attributes tag).map .slots id
  | dispatch tag, table => (table.dispatch tag).map .entries id
  | objectSize tag, table => (table.objectSize tag).map .words id
  | attributeIndex tag name, table => (table.attributeIndex? tag name).map .position id
  | methodSlot tag method, table => (table.methodSlot? tag method).map .position id
  | build, table => (.built,table.build)

def step : LayoutQuery → TableStep
  | attributes tag | objectSize tag | attributeIndex tag _ => .attributes tag
  | dispatch tag | methodSlot tag _ => .dispatch tag
  | build => .build

theorem state_of_run (query : LayoutQuery) (table : ClassTable) :
    (query.run table).2 = stateAfter (query.step.run table) := by
  cases query <;> rfl

end LayoutQuery

/-- A call on a class table. Questions that only look at the table are left to the functions that
answer them. -/
inductive TableCall where
  | define (name parentName : String)
  | defineClass (decl : ClassDecl)
  | defineBuiltin (b : Builtin)
  | link
  | layout (query : LayoutQuery)
  | location (c : ClassEntry) (name : String)

namespace TableCall

def run : TableCall → TableM Unit
  | define name parentName => discard (ClassTable.define name parentName)
  | defineClass decl => discard (ClassTable.defineClass decl)
  | defineBuiltin b => discard (ClassTable.defineBuiltin b)
  | link => ClassTable.link
  | layout query => discard (modifyGet query.run)
  | location c name => discard (ClassTable.attributeLocation c name)

def step : TableCall → TableStep
  | define name parentName => .define name parentName
  | defineClass decl => .defineClass decl
  | defineBuiltin b => .defineBuiltin b
  | link => .link
  | layout query => query.step
  | location c _ => .attributes c.tag

/-- Finding the location of an attribute fails after the layout was computed, which stays. -/
theorem state_of_location (c : ClassEntry) (name : String) (table : ClassTable) :
    stateAfter ((discard (ClassTable.attributeLocation c name) : TableM Unit) table) =
      (table.attributes c.tag).2 := by
  simp only [discard_run,ClassTable.attributeLocation,bind_run,modifyGet_run]
  cases Location.ofAttribute c.name (table.attributes c.tag).1 name <;> rfl

theorem state_of_run (call : TableCall) (table : ClassTable) :
    stateAfter (call.run table) = stateAfter (call.step.run table) := by
  cases call with
  | define | defineClass | defineBuiltin | link => rfl
  | layout query => exact query.state_of_run table
  | location c name => exact state_of_location c name table

end TableCall

/-- What a class is known by for good. -/
def ClassEntry.identity (c : ClassEntry) : String × Nat × String := (c.name,c.tag,c.parentName)

namespace ClassTable

def afterCalls (calls : List TableCall) : ClassTable :=
  calls.foldl (fun table call => stateAfter (call.run table)) .empty

theorem afterCalls_eq (calls : List TableCall) :
    afterCalls calls = after (calls.map TableCall.step) := by
  rw [afterCalls,after,List.foldl_map]
  simp only [TableCall.state_of_run]

theorem sound_afterCalls (calls : List TableCall) : (afterCalls calls).Sound := by
  rw [afterCalls_eq]
  exact sound_after _

/-- Names, tags and parents lead to one class each, and to one that is there. -/
structure Consistent (table : ClassTable) : Prop where
  tags : ∀ (i : Nat) c, table.classes[i]? = some c → c.tag = i
  names : (table.toList.map (·.name)).Nodup
  found : ∀ name c, table.find? name = some c ↔
    ∃ i : Nat, table.classes[i]? = some c ∧ c.name = name
  missing : ∀ name, table.find? name = none ↔ ∀ c ∈ table.toList, c.name ≠ name
  inverse : ∀ (tag : Int) c, table.byTag? tag = some c ↔ table.find? c.name = some c ∧ tag = c.tag
  parents : ∀ c ∈ table.toList, ∀ p : Nat, c.parent = some p →
    ∃ d, table.byTag? p = some d ∧ table.find? c.parentName = some d

theorem byTag?_natCast (table : ClassTable) (tag : Nat) :
    table.byTag? tag = table.classes[tag]? := by
  rw [byTag?,if_neg (by omega),Int.toNat_natCast]

namespace Sound

variable {table : ClassTable}

theorem find?_eq_some (sound : table.Sound) {name : String} {c : ClassEntry} :
    table.find? name = some c ↔ c ∈ table.toList ∧ c.name = name := by
  constructor
  · exact mem_of_find?
  · rintro ⟨member,rfl⟩
    exact sound.find?_name member

theorem byTag?_eq_some (sound : table.Sound) {tag : Int} {c : ClassEntry} :
    table.byTag? tag = some c ↔ c ∈ table.toList ∧ tag = c.tag := by
  constructor
  · intro found
    unfold byTag? at found
    split at found
    next => cases found
    next positive =>
      have same := sound.tag found
      exact ⟨mem_toList.mpr ⟨_,found⟩,by omega⟩
  · rintro ⟨member,rfl⟩
    rw [byTag?_natCast]
    exact sound.at_tag member

theorem names_nodup (sound : table.Sound) : (table.toList.map (·.name)).Nodup := by
  refine List.pairwise_map.mpr (List.pairwise_iff_getElem.mpr ?_)
  intro i j boundI boundJ before same
  have positions : i = j := sound.name (by simp [toList]) (by simp [toList]) same
  omega

theorem consistent (sound : table.Sound) : table.Consistent where
  tags _ _ := sound.tag
  names := sound.names_nodup
  found name c := by
    rw [sound.find?_eq_some,mem_toList,exists_and_right]
  missing name := find?_eq_none
  inverse tag c := by
    rw [sound.byTag?_eq_some,sound.find?_eq_some]
    simp
  parents c member p link := by
    obtain ⟨-,d,at_p,name⟩ := sound.parent (sound.at_tag member) link
    refine ⟨d,(byTag?_natCast table p).trans at_p,sound.find?_eq_some.mpr ⟨?_,name⟩⟩
    exact mem_toList.mpr ⟨p,at_p⟩

end Sound

/-- Resolving parents changes nothing but parent links, also where it stops on the way. -/
theorem linkParents_unlinked (cs : List ClassEntry) (table : ClassTable) :
    (stateAfter (linkParents cs table)).toList.map ClassEntry.unlinked =
      table.toList.map ClassEntry.unlinked := by
  induction cs generalizing table with
  | nil => rfl
  | cons c rest ih =>
    rw [linkParents_cons]
    split
    next => exact ih table
    next =>
      split
      next => rfl
      next p _ => exact (ih _).trans (update_map _ fun _ => rfl)

theorem link_unlinked (table : ClassTable) :
    (stateAfter (link table)).toList.map ClassEntry.unlinked =
      table.toList.map ClassEntry.unlinked := by
  rw [stateAfter_link]
  exact linkParents_unlinked table.toList table

theorem addEntry_state (entry : Nat → ClassEntry) (table : ClassTable) :
    table.toList <+: (stateAfter ((discard (addEntry entry) : TableM Unit) table)).toList := by
  rw [discard_run,addEntry_run]
  by_cases taken : (table.find? (entry table.size).name).isSome
  · rw [if_pos taken]
    exact List.prefix_rfl
  · rw [if_neg taken]
    change _ <+: (table.insert _).toList
    rw [toList_insert]
    exact List.prefix_append ..

theorem SameUnkept.bare {table table' : ClassTable} (same : table.SameUnkept table') :
    table.toList.map ClassEntry.bare = table'.toList.map ClassEntry.bare := by
  have images := congrArg (List.map ClassEntry.bare) same
  rwa [List.map_map,List.map_map] at images

/-- A step adds classes at the end, and keeps what the others were defined with. -/
theorem step_extends (step : TableStep) (table : ClassTable) :
    table.toList.map ClassEntry.bare <+:
      (stateAfter (step.run table)).toList.map ClassEntry.bare := by
  cases step with
  | define | defineClass | defineBuiltin => exact (addEntry_state _ table).map _
  | link => exact (bare_of_unlinked (link_unlinked table)).symm ▸ List.prefix_rfl
  | attributes tag =>
    have same : (table.attributes tag).2.SameUnkept table :=
      layoutFrom_unkept LayoutKind.lawful_attributes ..
    exact same.bare.symm ▸ List.prefix_rfl
  | dispatch tag =>
    have same : (table.dispatch tag).2.SameUnkept table :=
      layoutFrom_unkept LayoutKind.lawful_dispatch ..
    exact same.bare.symm ▸ List.prefix_rfl
  | build =>
    exact (buildTags_unkept (List.range table.size) table).bare.symm ▸ List.prefix_rfl

theorem after_extends (steps more : List TableStep) :
    (after steps).toList.map ClassEntry.bare <+:
      (after (steps ++ more)).toList.map ClassEntry.bare := by
  rw [after,after,List.foldl_append]
  generalize steps.foldl _ _ = table
  induction more generalizing table with
  | nil => exact List.prefix_rfl
  | cons step rest ih => exact (step_extends step table).trans (ih _)

theorem identity_of_bare {table table' : ClassTable}
    (grown : table.toList.map ClassEntry.bare <+: table'.toList.map ClassEntry.bare) :
    table.toList.map ClassEntry.identity <+: table'.toList.map ClassEntry.identity := by
  have images := grown.map ClassEntry.identity
  rwa [List.map_map,List.map_map] at images

/-- Adding a class fails only where its name is taken, and then changes nothing. -/
theorem addEntry_eq_error {entry : Nat → ClassEntry} {table left : ClassTable} {e : InternalError}
    {name : String} (named : ∀ tag, (entry tag).name = name) :
    addEntry entry table = .error e left ↔
      (∃ c ∈ table.toList, c.name = name) ∧ e = .definedTwice name ∧ left = table := by
  rw [addEntry_run,named,← find?_isSome]
  by_cases taken : (table.find? name).isSome
  · simp [taken,eq_comm]
  · simp [taken]

end ClassTable

open ClassTable

/-- After any calls on an empty table, successful or not, the table is consistent. No later call
changes the name, the tag or the parent's name of a class. Defining a class fails exactly if its
name is taken, and then changes nothing; linking that fails changes nothing but parent links. -/
theorem class_tables_stay_consistent (calls : List TableCall) :
    (afterCalls calls).Consistent ∧
    (∀ more, (afterCalls calls).toList.map ClassEntry.identity <+:
      (afterCalls (calls ++ more)).toList.map ClassEntry.identity) ∧
    (∀ name parentName e left, define name parentName (afterCalls calls) = .error e left ↔
      (∃ c ∈ (afterCalls calls).toList, c.name = name) ∧ e = .definedTwice name ∧
        left = afterCalls calls) ∧
    (∀ decl e left, defineClass decl (afterCalls calls) = .error e left ↔
      (∃ c ∈ (afterCalls calls).toList, c.name = decl.name) ∧ e = .definedTwice decl.name ∧
        left = afterCalls calls) ∧
    ∀ e left, link (afterCalls calls) = .error e left →
      left.toList.map ClassEntry.unlinked = (afterCalls calls).toList.map ClassEntry.unlinked := by
  refine ⟨(sound_afterCalls calls).consistent,fun more => ?_,fun name parentName e left => ?_,fun decl e left => ?_,
    fun e left failed => ?_⟩
  · rw [afterCalls_eq,afterCalls_eq,List.map_append]
    exact identity_of_bare (after_extends _ _)
  · exact addEntry_eq_error fun _ => rfl
  · exact addEntry_eq_error fun _ => rfl
  · have unchanged := link_unlinked (afterCalls calls)
    rw [failed] at unchanged
    exact unchanged

/-- A name that is taken, linking that stops at an undefined parent, a layout that is asked for in
between, and a class that closes a cycle. -/
def stumbling : List TableCall :=
  [.define "Object" "",.defineClass { name := "A" },.defineClass { name := "A", parent := "B" },
    .define "B" "C",.link,.layout (.objectSize 1),.define "C" "B"]

theorem stumbling_consistent :
    (afterCalls stumbling).Consistent ∧
      [("Object",0,""),("A",1,"Object"),("B",2,"C"),("C",3,"B")] <+:
        (afterCalls (stumbling ++ [.link])).toList.map ClassEntry.identity ∧
      define "A" "C" (afterCalls stumbling) =
        .error (.definedTwice "A") (afterCalls stumbling) ∧
      ∃ e left, link (afterCalls stumbling) = .error e left ∧
        left.toList.map ClassEntry.unlinked =
          (afterCalls stumbling).toList.map ClassEntry.unlinked := by
  obtain ⟨consistent,stable,taken,-,failing⟩ := class_tables_stay_consistent stumbling
  have identities : (afterCalls stumbling).toList.map ClassEntry.identity =
      [("Object",0,""),("A",1,"Object"),("B",2,"C"),("C",3,"B")] := by decide +kernel
  have present : ∃ c ∈ (afterCalls stumbling).toList, c.name = "A" := by decide +kernel
  have cyclic : succeeded (link (afterCalls stumbling)) = false := by decide +kernel
  refine ⟨consistent,identities ▸ stable [.link],(taken ..).mpr ⟨present,rfl,rfl⟩,?_⟩
  cases run : link (afterCalls stumbling) with
  | ok => rw [run] at cyclic; cases cyclic
  | error e left => exact ⟨e,left,rfl,failing e left run⟩

end CoolBackend
