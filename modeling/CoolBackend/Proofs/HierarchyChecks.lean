import CoolBackend.Proofs.VerifiedTables

/-!
The class table looks for cycles along linked tags and counts its steps, the verifier goes along
names and keeps those that it has seen. Linking succeeds on every table whose parent names lead to
one root, and a program can be laid out exactly if the verifier has nothing against its hierarchy.
-/
namespace CoolBackend

open Verify

inductive TableStep where
  | define (name parentName : String)
  | defineClass (decl : ClassDecl)
  | defineBuiltin (b : Builtin)
  | link
  | attributes (tag : Nat)
  | dispatch (tag : Nat)
  | build

namespace TableStep

def run : TableStep → TableM Unit
  | define name parentName => discard (ClassTable.define name parentName)
  | defineClass decl => discard (ClassTable.defineClass decl)
  | defineBuiltin b => discard (ClassTable.defineBuiltin b)
  | link => ClassTable.link
  | attributes tag => modify fun table => (table.attributes tag).2
  | dispatch tag => modify fun table => (table.dispatch tag).2
  | build => modify ClassTable.build

end TableStep

namespace ClassTable

def after (steps : List TableStep) : ClassTable :=
  steps.foldl (fun table step => stateAfter (step.run table)) .empty

theorem addEntry_sound {table : ClassTable} (sound : table.Sound) {entry : Nat → ClassEntry}
    (tag : ∀ n, (entry n).tag = n) (unlinked : ∀ n, (entry n).parent = none) :
    (stateAfter ((discard (addEntry entry) : TableM Unit) table)).Sound := by
  rw [discard_run,addEntry_run]
  by_cases taken : (table.find? (entry table.size).name).isSome
  · rw [if_pos taken]
    exact sound
  · rw [if_neg taken]
    exact sound.insert (tag _) (Option.not_isSome_iff_eq_none.mp taken) (unlinked _)

/-- Linking changes a table only where it resolves parents. -/
theorem stateAfter_link (table : ClassTable) :
    stateAfter (link table) = stateAfter (linkParents table.toList table) := by
  simp only [link,bind_run,get_run]
  cases linkParents table.toList table with
  | error e t => rfl
  | ok u t =>
    by_cases count : t.toList.countP (·.parentName = "") = 1
    · simp only [count,ne_eq,not_true_eq_false,if_false]
      cases t.toList.find? fun c => t.circles c.tag (t.size + 1) c.parent with
      | none => rfl
      | some c => rfl
    · simp only [count,ne_eq,not_false_eq_true,if_true]
      rfl

theorem buildTags_unkept (tags : List Nat) (table : ClassTable) :
    (buildTags tags table).SameUnkept table := by
  induction tags generalizing table with
  | nil => rfl
  | cons tag tags ih =>
    have attributes : (table.attributes tag).2.SameUnkept table :=
      layoutFrom_unkept LayoutKind.lawful_attributes ..
    have dispatch : ((table.attributes tag).2.dispatch tag).2.SameUnkept (table.attributes tag).2 :=
      layoutFrom_unkept LayoutKind.lawful_dispatch ..
    exact (ih _).trans (dispatch.trans attributes)

theorem step_sound (step : TableStep) {table : ClassTable} (sound : table.Sound) :
    (stateAfter (step.run table)).Sound := by
  cases step with
  | define | defineClass | defineBuiltin => exact addEntry_sound sound (fun _ => rfl) fun _ => rfl
  | link =>
    change (stateAfter (link table)).Sound
    rw [stateAfter_link]
    exact linkParents_sound _ sound sound.listed
  | attributes tag =>
    have same : (table.attributes tag).2.SameUnkept table :=
      layoutFrom_unkept LayoutKind.lawful_attributes ..
    exact same.sound sound
  | dispatch tag =>
    have same : (table.dispatch tag).2.SameUnkept table :=
      layoutFrom_unkept LayoutKind.lawful_dispatch ..
    exact same.sound sound
  | build => exact (buildTags_unkept (List.range table.size) table).sound sound

theorem sound_after (steps : List TableStep) : (after steps).Sound := by
  have from_here : ∀ table : ClassTable, table.Sound →
      (steps.foldl (fun table step => stateAfter (step.run table)) table).Sound := by
    induction steps with
    | nil => exact fun _ sound => sound
    | cons step rest ih => exact fun _ sound => ih _ (step_sound step sound)
  exact from_here .empty sound_empty

/-- Every parent name is defined, one class has none, and parents lead from every class to it. -/
structure IsHierarchy (table : ClassTable) : Prop where
  parents : ∀ c ∈ table.toList, c.parentName ≠ "" → (table.find? c.parentName).isSome
  root : table.toList.countP (·.parentName = "") = 1
  climbs : ∀ c ∈ table.toList, ∃ n, table.Climbs n c.name

theorem IsHierarchy.of_perm {table table' : ClassTable} (hierarchy : table.IsHierarchy)
    (sound : table'.Sound) (same : (table.toList.map fun c => (c.name,c.parentName)).Perm
      (table'.toList.map fun c => (c.name,c.parentName))) : table'.IsHierarchy := by
  have origin {c : ClassEntry} (member : c ∈ table'.toList) :
      ∃ d ∈ table.toList, d.name = c.name ∧ d.parentName = c.parentName := by
    have image := same.symm.subset (List.mem_map_of_mem member)
    obtain ⟨d,memberD,sameD⟩ := List.mem_map.mp image
    exact ⟨d,memberD,Prod.mk.inj sameD⟩
  constructor
  · intro c member named
    obtain ⟨d,memberD,-,parent⟩ := origin member
    obtain ⟨e,memberE,name⟩ := find?_isSome.mp (hierarchy.parents d memberD (parent ▸ named))
    obtain ⟨f,memberF,sameF⟩ := List.mem_map.mp (same.subset (List.mem_map_of_mem memberE))
    exact find?_isSome.mpr ⟨f,memberF,(Prod.mk.inj sameF).1.trans (name.trans parent)⟩
  · have through (t : ClassTable) : t.toList.countP (·.parentName = "") =
        (t.toList.map fun c => (c.name,c.parentName)).countP (·.2 = "") := by
      rw [List.countP_map]
      rfl
    rw [through,← same.countP_eq,← through]
    exact hierarchy.root
  · intro c member
    obtain ⟨d,memberD,name,-⟩ := origin member
    obtain ⟨n,climbs⟩ := hierarchy.climbs d memberD
    exact ⟨n,name ▸ climbs.of_perm sound same⟩

theorem names_of_bare {table table' : ClassTable}
    (same : table.toList.map ClassEntry.bare = table'.toList.map ClassEntry.bare) :
    (table.toList.map fun c => (c.name,c.parentName)) =
      table'.toList.map fun c => (c.name,c.parentName) := by
  have names := congrArg (List.map fun c => (c.name,c.parentName)) same
  rwa [List.map_map,List.map_map] at names

theorem Linked.isHierarchy {table : ClassTable} (linked : table.Linked)
    (root : table.toList.countP (·.parentName = "") = 1) : table.IsHierarchy := by
  refine ⟨fun c member named => ?_,root,fun c member => ?_⟩
  · rcases linked.parent_cases member with ⟨top,-⟩ | ⟨d,memberD,-,-,same⟩
    · exact absurd top named
    · exact find?_isSome.mpr ⟨d,memberD,same⟩
  · exact (linked.reachesRoot_iff member).mp (linked.reaches c member)

/-- Linking succeeds on the tables that are hierarchies, and on no other. -/
theorem link_succeeds_iff {table : ClassTable} (sound : table.Sound) :
    (∃ linked, link table = .ok () linked) ↔ table.IsHierarchy := by
  constructor
  · rintro ⟨linked,run⟩
    obtain ⟨-,root,-⟩ := (link_eq_ok sound).mp run
    obtain ⟨isLinked,frame⟩ := linked_of_link sound run
    have names := names_of_bare (bare_of_unlinked frame)
    exact (isLinked.isHierarchy root).of_perm sound (.of_eq names)
  · intro hierarchy
    obtain ⟨linked,run⟩ := linkParents_runs table.toList table hierarchy.parents
    obtain ⟨wired,frame⟩ := wired_of_linkParents sound run
    have names := names_of_bare (bare_of_unlinked frame)
    have after := hierarchy.of_perm wired.toSound (.of_eq names.symm)
    refine ⟨linked,(link_eq_ok sound).mpr ⟨run,after.root,fun c member => ?_⟩⟩
    exact (wired.reachesRoot_iff member).mpr (after.climbs c member)

/-- Linking ends on every table with success or an error. -/
theorem link_result {table : ClassTable} (sound : table.Sound) :
    (∃ linked, link table = .ok () linked) ∧ table.IsHierarchy ∨
      (∃ e left, link table = .error e left) ∧ ¬table.IsHierarchy := by
  cases run : link table with
  | ok u linked =>
    exact .inl ⟨⟨linked,rfl⟩,(link_succeeds_iff sound).mp ⟨linked,run⟩⟩
  | error e left =>
    refine .inr ⟨⟨e,left,rfl⟩,fun hierarchy => ?_⟩
    obtain ⟨linked,succeeded⟩ := (link_succeeds_iff sound).mpr hierarchy
    rw [run] at succeeded
    cases succeeded

end ClassTable

/-- The verifier has nothing against a hierarchy. -/
theorem Verify.Rooted.sane {p : Program} (rooted : Rooted p) : Sane (diagnose p) := by
  have all : enroll p.classes [] = ([],[] ++ p.classes) :=
    enroll_eq rooted.distinct fun c member =>
      ⟨(rooted.free c member).1,(rooted.free c member).2,List.forall_mem_nil _⟩
  have defined : p.classes.all ((Hierarchy.ofDecls p.classes).defines ·.parentName) :=
    List.all_eq_true.mpr rooted.parents
  have parents : Sane (p.classes.flatMap (checkParent (Hierarchy.ofDecls p.classes))) := by
    refine sane_flatMap.mpr fun c member => ?_
    rw [checkParent,rooted.parents c member]
    by_cases forbidden : Builtin.isValueClass c.parentName
    · simp only [forbidden,if_true]
      exact List.forall_mem_singleton.mpr rfl
    · simp only [forbidden]
      exact List.forall_mem_nil _
  have cycles : p.classes.flatMap (checkCycle (Hierarchy.ofDecls p.classes)) = [] := by
    refine List.flatMap_eq_nil_iff.mpr fun c member => ?_
    exact checkCycle_eq_nil (rooted.reaches c member)
  have main : Sane (checkMain (Hierarchy.ofDecls p.classes) p.classes) := by
    rw [checkMain]
    split
    next => exact List.forall_mem_singleton.mpr rfl
    next =>
      split
      next => exact List.forall_mem_nil _
      next => exact List.forall_mem_singleton.mpr rfl
  have features : Sane (p.classes.flatMap (checkClass (Hierarchy.ofDecls p.classes))) :=
    sane_flatMap.mpr fun c _ d found => (featured_checkClass _ c d found).2
  simp only [diagnose_eq,all,List.nil_append,checkHierarchy,defined,if_true,cycles,List.append_nil,
    List.isEmpty_nil]
  exact sane_append.mpr ⟨parents,sane_append.mpr ⟨main,features⟩⟩

namespace ClassTable

variable {table : ClassTable} {c : ClassEntry}

/-- Walking by name reaches the root where walking by tag does. -/
theorem known_reachesRoot (wired : table.Wired) (member : c ∈ table.toList) (fuel : Nat)
    (ends : (table.chainFrom fuel c.tag).any (·.parent.isNone)) :
    table.known.reachesRoot fuel c.name := by
  induction fuel generalizing c with
  | zero => cases ends
  | succ fuel ih =>
    rw [Hierarchy.reachesRoot,find?_known,wired.find?_name member]
    have here : table.known.reachesRoot fuel c.parentName := by
      rcases wired.parent_cases member with ⟨top,-⟩ | ⟨d,memberD,-,parent,same⟩
      · rw [top]
        cases fuel <;> rfl
      · rw [chainFrom,wired.at_tag member] at ends
        simp only [parent,List.any_cons,Option.isNone_some,Bool.false_or] at ends
        exact same ▸ ih memberD ends
    simp [ClassEntry.known,here]

end ClassTable

/-- The classes of a program that can be laid out form a hierarchy. -/
theorem Session.rooted_of_layout {p : Program} {options : Options} {s : Session}
    (run : layout p { options } = .ok () s) : Rooted p := by
  obtain ⟨work,-⟩ := table_of_layout run
  obtain ⟨defined,linked,define,-,-⟩ := tableWork_eq_ok.mp work
  obtain ⟨distinct,free,-⟩ := defineAll_eq_ok.mp define
  obtain ⟨ready,same⟩ := ready_of_layout run
  have known := ClassTable.known_eq same
  have entry (c : ClassDecl) (declared : c ∈ p.classes) :
      ∃ k ∈ s.classes.toList, k.name = c.name ∧ k.parentName = c.parentName := by
    obtain ⟨i,at_i⟩ := List.mem_iff_getElem?.mp declared
    obtain ⟨k,member,made⟩ := entry_at same at_i
    exact ⟨k,member,congrArg (·.name) made,congrArg (·.parentName) made⟩
  refine ⟨distinct,fun c declared => ?_,fun c declared => ?_,fun c declared => ?_⟩
  · exact ⟨(free c declared).1,ClassTable.find?_builtins.mp (free c declared).2⟩
  · obtain ⟨k,member,-,parent⟩ := entry c declared
    rw [← known,ClassTable.defines_known,← parent]
    rcases ready.parent_cases member with ⟨top,-⟩ | ⟨d,memberD,-,-,name⟩
    · exact absurd (parent.symm.trans top) c.parentName_ne
    · exact ClassTable.find?_isSome.mpr ⟨d,memberD,name⟩
  · obtain ⟨k,member,name,-⟩ := entry c declared
    rw [← known,← name]
    exact ⟨_,ClassTable.known_reachesRoot ready.toWired member _ (ready.reaches k member)⟩

/-- A program whose classes have names cannot be laid out exactly if the verifier complains about
its hierarchy. Linking ends on every table, whatever was done to it before: with success if the table is
a hierarchy, and else with an error. -/
theorem hierarchy_checks_agree {p : Program} (named : ∀ c ∈ p.classes, c.name ≠ "")
    (options : Options) :
    ((∃ e s, Session.layout p { options } = .error e s) ↔
      ∃ d ∈ diagnose p, d.complaint.concernsHierarchy) ∧
    ∀ steps, (∃ linked, ClassTable.link (.after steps) = .ok () linked) ∧
        (ClassTable.after steps).IsHierarchy ∨
      (∃ e left, ClassTable.link (.after steps) = .error e left) ∧
        ¬(ClassTable.after steps).IsHierarchy := by
  refine ⟨⟨?_,?_⟩,fun steps => ClassTable.link_result (ClassTable.sound_after steps)⟩
  · rintro ⟨e,s,failed⟩
    by_contra silent
    have sane : Sane (diagnose p) := fun d member =>
      Bool.eq_false_iff.mpr fun concerns => silent ⟨d,member,concerns⟩
    obtain ⟨table,work⟩ := (rooted_of_sane sane).1.table_work named
    obtain ⟨laid,run,-⟩ := Session.layout_of_table options work
    rw [run] at failed
    cases failed
  · rintro ⟨d,member,concerns⟩
    cases run : Session.layout p { options } with
    | error e s => exact ⟨e,s,rfl⟩
    | ok u s =>
      have innocent := (Session.rooted_of_layout run).sane d member
      rw [concerns] at innocent
      cases innocent

/-- `Main` leads into a cycle without being on it. -/
def circling : Program where
  classes := [{ name := "Main", parent := "Left" },{ name := "Left", parent := "Right" },
    { name := "Right", parent := "Left" }]

def ascending : Program where
  classes := [{ name := "Main", parent := "Left" },{ name := "Left", parent := "Right" },
    { name := "Right", parent := "IO" }]

theorem circling_rejected :
    (∃ e s, Session.layout circling {} = .error e s) ∧
      ¬∃ e s, Session.layout ascending {} = .error e s := by
  refine ⟨(hierarchy_checks_agree (by decide) {}).1.mpr (by decide +kernel),fun failed => ?_⟩
  have complaint := (hierarchy_checks_agree (by decide) {}).1.mp failed
  revert complaint
  decide +kernel

end CoolBackend
