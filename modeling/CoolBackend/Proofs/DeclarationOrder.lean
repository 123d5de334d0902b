import CoolBackend.Proofs.AttributeLayouts
import CoolBackend.Proofs.CaseSelection
import CoolBackend.Proofs.HierarchyChecks

/-!
Tags count the classes in the order of their declaration. Nothing else depends on this order: when
the classes of a program are declared in another one, the program can be laid out as before, and
every class has the same parent, layouts, size, depth and descendants.
-/
namespace CoolBackend

def ClassEntry.untagged (c : ClassEntry) : ClassEntry := { c.bare with tag := 0 }

namespace LayoutKind

variable {α : Type}

def Tagless (kind : LayoutKind α) : Prop :=
  ∀ c inherited, kind.extend c.untagged inherited = kind.extend c inherited

theorem tagless_attributes : attributes.Tagless := fun _ _ => rfl

theorem tagless_dispatch : dispatch.Tagless := fun _ _ => rfl

theorem Tagless.plain_eq {kind : LayoutKind α} (tagless : kind.Tagless)
    {chain chain' : List ClassEntry}
    (same : chain'.map ClassEntry.untagged = chain.map ClassEntry.untagged) :
    kind.plain chain' = kind.plain chain := by
  have through (chain : List ClassEntry) :
      kind.plain (chain.map ClassEntry.untagged) = kind.plain chain := by
    simp only [plain,List.foldr_map,tagless _ _]
  rw [← through,same,through]

end LayoutKind

namespace ClassTable

def SameClasses (table table' : ClassTable) : Prop :=
  (table.toList.map ClassEntry.untagged).Perm (table'.toList.map ClassEntry.untagged)

namespace SameClasses

variable {table table' : ClassTable} {c c' : ClassEntry}

theorem mem (same : table.SameClasses table') (member : c ∈ table.toList) :
    ∃ c' ∈ table'.toList, c'.untagged = c.untagged :=
  List.mem_map.mp (same.subset (List.mem_map_of_mem member))

/-- A class is known by its name. -/
theorem untagged_eq (same : table.SameClasses table') (sound : table'.Sound)
    (member : c ∈ table.toList) (member' : c' ∈ table'.toList) (name : c'.name = c.name) :
    c'.untagged = c.untagged := by
  obtain ⟨d,memberD,sameD⟩ := same.mem member
  have nameD : d.name = c.name := congrArg (·.name) sameD
  rw [sound.eq_of_name member' memberD (name.trans nameD.symm),sameD]

theorem isHierarchy_iff (same : table.SameClasses table') (sound : table.Sound)
    (sound' : table'.Sound) : table.IsHierarchy ↔ table'.IsHierarchy := by
  have names (t : ClassTable) : (t.toList.map fun c => (c.name,c.parentName)) =
      (t.toList.map ClassEntry.untagged).map fun c => (c.name,c.parentName) := by
    rw [List.map_map]
    rfl
  have perm : (table.toList.map fun c => (c.name,c.parentName)).Perm
      (table'.toList.map fun c => (c.name,c.parentName)) := by
    rw [names,names]
    exact same.map _
  exact ⟨fun hierarchy => hierarchy.of_perm sound' perm,
    fun hierarchy => hierarchy.of_perm sound perm.symm⟩

/-- The chains of one class in both tables go through the same classes. -/
theorem chain_eq (same : table.SameClasses table') (linked : table.Linked)
    (linked' : table'.Linked) (member : c ∈ table.toList) (member' : c' ∈ table'.toList)
    (name : c'.name = c.name) :
    (table'.chain c').map ClassEntry.untagged = (table.chain c).map ClassEntry.untagged := by
  refine linked.induction (P := fun c => ∀ c' ∈ table'.toList, c'.name = c.name →
    (table'.chain c').map ClassEntry.untagged = (table.chain c).map ClassEntry.untagged)
    ?_ ?_ c member c' member' name
  · intro c member top unset c' member' name
    have here := same.untagged_eq linked'.toSound member member' name
    have parent : c'.parentName = c.parentName := congrArg (·.parentName) here
    obtain ⟨-,unset'⟩ | ⟨d',-,named',-,-⟩ := linked'.parent_cases member'
    · rw [linked.chain_root member unset,linked'.chain_root member' unset',List.map_singleton,
        List.map_singleton,here]
    · exact absurd (parent.trans top) named'
  · intro c member d memberD link nameD named ih c' member' name
    have here := same.untagged_eq linked'.toSound member member' name
    have parent : c'.parentName = c.parentName := congrArg (·.parentName) here
    obtain ⟨top',-⟩ | ⟨d',memberD',-,link',nameD'⟩ := linked'.parent_cases member'
    · exact absurd (parent.symm.trans top') named
    · have above := ih d' memberD' (nameD'.trans (parent.trans nameD.symm))
      rw [linked.chain_step member link,linked'.chain_step member' link',List.map_cons,
        List.map_cons,here,above]

end SameClasses

/-- The classes that have some of the tags. -/
def namesOfTags (table : ClassTable) (tags : List Nat) : List String :=
  tags.filterMap fun tag : Nat => (table.byTag? tag).map (·.name)

theorem Linked.parentNameOf?_eq {table : ClassTable} (linked : table.Linked) {c : ClassEntry}
    (member : c ∈ table.toList) :
    table.parentNameOf? c = if c.parentName = "" then none else some c.parentName := by
  obtain ⟨top,unset⟩ | ⟨d,memberD,named,link,name⟩ := linked.parent_cases member
  · rw [if_pos top,parentNameOf?,unset]
    rfl
  · rw [if_neg named,parentNameOf?,link,Option.bind_some,linked.at_tag memberD,← name]
    rfl

/-- Behind the conforming tags of a class are the classes with its name on their chains. -/
theorem Linked.mem_names_conforming {table : ClassTable} (linked : table.Linked) {c : ClassEntry}
    (member : c ∈ table.toList) {name : String} :
    name ∈ table.namesOfTags (table.conformingTags c) ↔
      ∃ d ∈ table.toList, d.name = name ∧ c.name ∈ (table.chain d).map (·.name) := by
  rw [namesOfTags,List.mem_filterMap]
  constructor
  · rintro ⟨tag,conforming,found⟩
    obtain ⟨d,at_tag,rfl⟩ := Option.map_eq_some_iff.mp found
    have here : table.classes[tag]? = some d := by simpa [byTag?] using at_tag
    have memberD := mem_toList.mpr ⟨tag,here⟩
    rw [← linked.tag here,linked.mem_conformingTags memberD] at conforming
    exact ⟨d,memberD,rfl,List.mem_map_of_mem ((linked.mem_chain_iff member memberD).mpr conforming)⟩
  · rintro ⟨d,memberD,rfl,onChain⟩
    obtain ⟨k,inside,name⟩ := List.mem_map.mp onChain
    have memberK := linked.mem_of_mem_chain memberD k inside
    cases linked.eq_of_name memberK member name
    have sub := (linked.mem_chain_iff member memberD).mp inside
    refine ⟨d.tag,(linked.mem_conformingTags memberD).mpr sub,?_⟩
    simp [byTag?,linked.at_tag memberD]

/-- One class in two tables: all is the same but for its tag. -/
structure SameLayout (table table' : ClassTable) (c c' : ClassEntry) : Prop where
  defined : c'.untagged = c.untagged
  parent : table'.parentNameOf? c' = table.parentNameOf? c
  attributes : table'.slots c' = table.slots c
  dispatch : table'.entries c' = table.entries c
  size : (table'.objectSize c'.tag).1 = (table.objectSize c.tag).1
  depth : table'.depth c' = table.depth c
  descendants : ∀ name, name ∈ table'.namesOfTags (table'.conformingTags c') ↔
    name ∈ table.namesOfTags (table.conformingTags c)

theorem SameClasses.layouts {table table' : ClassTable} (same : table.SameClasses table')
    (ready : table.Ready) (ready' : table'.Ready) {c c' : ClassEntry} (member : c ∈ table.toList)
    (member' : c' ∈ table'.toList) (defined : c'.untagged = c.untagged) :
    SameLayout table table' c c' := by
  have name : c'.name = c.name := congrArg (·.name) defined
  have chains := same.chain_eq ready.toLinked ready'.toLinked member member' name
  have slots : table'.slots c' = table.slots c := by
    rw [ready.slots_eq member,ready'.slots_eq member']
    exact LayoutKind.tagless_attributes.plain_eq chains
  have namesOn (chain : List ClassEntry) : chain.map (·.name) =
      (chain.map ClassEntry.untagged).map (·.name) := by
    rw [List.map_map]
    rfl
  have inherits {d d' : ClassEntry} (memberD : d ∈ table.toList) (memberD' : d' ∈ table'.toList)
      (sameD : d'.name = d.name) :
      c'.name ∈ (table'.chain d').map (·.name) ↔ c.name ∈ (table.chain d).map (·.name) := by
    rw [namesOn (table.chain d),namesOn (table'.chain d'),name,
      same.chain_eq ready.toLinked ready'.toLinked memberD memberD' sameD]
  exact {
    defined
    parent := by
      have above : c'.parentName = c.parentName := congrArg (·.parentName) defined
      rw [ready.parentNameOf?_eq member,ready'.parentNameOf?_eq member',above]
    attributes := slots
    dispatch := by
      rw [ready.entries_eq member,ready'.entries_eq member']
      exact LayoutKind.tagless_dispatch.plain_eq chains
    size := congrArg (fun slots : List AttributeSlot => slots.length + headerWords) slots
    depth := by
      have lengths := congrArg List.length chains
      rw [List.length_map,List.length_map] at lengths
      rw [depth,depth,lengths]
    descendants := by
      intro other
      rw [ready.mem_names_conforming member,ready'.mem_names_conforming member']
      constructor
      · rintro ⟨d',memberD',rfl,onChain⟩
        obtain ⟨d,memberD,sameD⟩ := SameClasses.mem same.symm memberD'
        have nameD : d.name = d'.name := congrArg (·.name) sameD
        exact ⟨d,memberD,nameD,(inherits memberD memberD' nameD.symm).mp onChain⟩
      · rintro ⟨d,memberD,rfl,onChain⟩
        obtain ⟨d',memberD',sameD⟩ := same.mem memberD
        have nameD : d'.name = d.name := congrArg (·.name) sameD
        exact ⟨d',memberD',nameD,(inherits memberD memberD' nameD).mpr onChain⟩ }

end ClassTable

theorem Program.perm_declared {p p' : Program} (perm : p'.classes.Perm p.classes) :
    (p'.declared.map ClassEntry.untagged).Perm (p.declared.map ClassEntry.untagged) := by
  have untagged (c : ClassDecl) (tag : Nat) :
      (ClassEntry.ofDecl c tag).untagged = .ofDecl c 0 := rfl
  rw [p.map_declared untagged,p'.map_declared untagged]
  exact (perm.map _).append_left _

namespace Session

open ClassTable

/-- A program can be laid out exactly if its classes can be defined and make up a hierarchy. -/
theorem layout_succeeds_iff {p : Program} {options : Options} :
    (∃ s, layout p { options } = .ok () s) ↔ ∃ defined,
      defineAll p.classes builtins = .ok () defined ∧ defined.IsHierarchy := by
  constructor
  · rintro ⟨s,run⟩
    obtain ⟨defined,linked,define,link,-⟩ := tableWork_eq_ok.mp (table_of_layout run).1
    exact ⟨defined,define,
      (link_succeeds_iff (defineAll_sound builtins_sound define)).mp ⟨linked,link⟩⟩
  · rintro ⟨defined,define,hierarchy⟩
    obtain ⟨linked,link⟩ :=
      (link_succeeds_iff (defineAll_sound builtins_sound define)).mpr hierarchy
    obtain ⟨s,run,-⟩ := layout_of_table options (tableWork_eq_ok.mpr ⟨_,_,define,link,rfl⟩)
    exact ⟨s,run⟩

/-- If a program can be laid out, so can every one with the same classes in another order. -/
theorem layout_of_perm {p p' : Program} (perm : p'.classes.Perm p.classes) {options : Options}
    (laid : ∃ s, layout p { options } = .ok () s) : ∃ s, layout p' { options } = .ok () s := by
  obtain ⟨defined,define,hierarchy⟩ := layout_succeeds_iff.mp laid
  obtain ⟨distinct,free,classes⟩ := defineAll_eq_ok.mp define
  obtain ⟨defined',own⟩ : ∃ table : ClassTable, table.toList = p'.declared :=
    ⟨.ofList p'.declared,rfl⟩
  have define' : defineAll p'.classes builtins = .ok () defined' := by
    refine defineAll_eq_ok.mpr ⟨(perm.map _).nodup_iff.mpr distinct,?_,own⟩
    exact fun c member => free c (perm.subset member)
  have same : defined.SameClasses defined' := by
    rw [SameClasses,classes,own]
    exact (Program.perm_declared perm).symm
  refine layout_succeeds_iff.mpr ⟨defined',define',?_⟩
  exact (same.isHierarchy_iff (defineAll_sound builtins_sound define)
    (defineAll_sound builtins_sound define')).mp hierarchy

theorem sameClasses_of_layout {p p' : Program} (perm : p'.classes.Perm p.classes)
    {options : Options} {s s' : Session} (run : layout p { options } = .ok () s)
    (run' : layout p' { options } = .ok () s') : s.classes.SameClasses s'.classes := by
  obtain ⟨-,same⟩ := ready_of_layout run
  obtain ⟨-,same'⟩ := ready_of_layout run'
  have through (t : ClassTable) : t.toList.map ClassEntry.untagged =
      (t.toList.map ClassEntry.bare).map ClassEntry.untagged := by
    rw [List.map_map]
    rfl
  rw [SameClasses,through,through s'.classes,same,same']
  exact (Program.perm_declared perm).symm

/-- The tags of the classes of a program follow those of the built-in classes. -/
theorem tag_of_layout {p : Program} {options : Options} {s : Session}
    (run : layout p { options } = .ok () s) {i : Nat} {decl : ClassDecl}
    (at_i : p.classes[i]? = some decl) :
    ∃ c, s.classes.find? decl.name = some c ∧ c.tag = 5 + i := by
  obtain ⟨ready,same⟩ := ready_of_layout run
  obtain ⟨c,member,made⟩ := entry_at same at_i
  have name : c.name = decl.name := congrArg (·.name) made
  exact ⟨c,name ▸ ready.find?_name member,congrArg (·.tag) made⟩

end Session

/-- Classes can be declared in any order: a program can be laid out exactly if it can in another
order, with the same layouts for all classes. Tags are given in the order of declaration. -/
theorem layouts_independent_of_order {p p' : Program} (perm : p'.classes.Perm p.classes)
    (options : Options) :
    ((∃ s, Session.layout p { options } = .ok () s) ↔
      ∃ s', Session.layout p' { options } = .ok () s') ∧
    ∀ s s', Session.layout p { options } = .ok () s → Session.layout p' { options } = .ok () s' →
      (∀ c ∈ s.classes.toList, ∃ c', s'.classes.find? c.name = some c' ∧
        ClassTable.SameLayout s.classes s'.classes c c') ∧
      (∀ c' ∈ s'.classes.toList, ∃ c, s.classes.find? c'.name = some c ∧
        ClassTable.SameLayout s.classes s'.classes c c') ∧
      (∀ i decl, p.classes[i]? = some decl →
        ∃ c, s.classes.find? decl.name = some c ∧ c.tag = 5 + i) ∧
      ∀ i decl, p'.classes[i]? = some decl →
        ∃ c', s'.classes.find? decl.name = some c' ∧ c'.tag = 5 + i := by
  refine ⟨⟨Session.layout_of_perm perm,Session.layout_of_perm perm.symm⟩,fun s s' run run' => ?_⟩
  obtain ⟨ready,-⟩ := Session.ready_of_layout run
  obtain ⟨ready',-⟩ := Session.ready_of_layout run'
  have same := Session.sameClasses_of_layout perm run run'
  refine ⟨fun c member => ?_,fun c' member' => ?_,fun i decl => Session.tag_of_layout run,
    fun i decl => Session.tag_of_layout run'⟩
  · obtain ⟨c',member',defined⟩ := same.mem member
    have name : c'.name = c.name := congrArg (·.name) defined
    exact ⟨c',name ▸ ready'.find?_name member',same.layouts ready ready' member member' defined⟩
  · obtain ⟨c,member,defined⟩ := ClassTable.SameClasses.mem same.symm member'
    have name : c.name = c'.name := congrArg (·.name) defined
    exact ⟨c,name ▸ ready.find?_name member,
      same.layouts ready ready' member member' defined.symm⟩

/-- The classes of `redeclaring` from the top of the hierarchy down. -/
def descending : Program where
  classes := redeclaring.classes.reverse

theorem descending_same_layouts : ∃ s s' c c',
    Session.layout redeclaring {} = .ok () s ∧ Session.layout descending {} = .ok () s' ∧
      s.classes.find? "C" = some c ∧ s'.classes.find? "C" = some c' ∧ c.tag = 5 ∧ c'.tag = 7 ∧
      ClassTable.SameLayout s.classes s'.classes c c' := by
  have perm : descending.classes.Perm redeclaring.classes := List.reverse_perm _
  have run := eq_ok_of_succeeded
    (by decide +kernel : succeeded (Session.layout redeclaring {}))
  obtain ⟨laid,layouts⟩ := layouts_independent_of_order perm {}
  obtain ⟨s',run'⟩ := laid.mp ⟨_,run⟩
  obtain ⟨same,-,tags,tags'⟩ := layouts _ _ run run'
  obtain ⟨c,found,tag⟩ := tags 0 _ rfl
  obtain ⟨d,foundD,tagD⟩ := tags' 2 _ rfl
  obtain ⟨c',found',layout⟩ := same c (ClassTable.mem_of_find? found).1
  rw [(ClassTable.mem_of_find? found).2] at found'
  cases found'.symm.trans foundD
  exact ⟨_,_,c,d,run,run',found,found',tag,tagD,layout⟩

end CoolBackend
