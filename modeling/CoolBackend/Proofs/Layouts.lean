import CoolBackend.Proofs.Hierarchies

/-!
A table that keeps layouts answers as one that computes each of them anew: from the root down the
chain, every class extending the layout of its parent. Queries change nothing but what is kept.
-/
namespace CoolBackend

def ClassEntry.unkept (c : ClassEntry) : ClassEntry :=
  { c with attributeLayout := none, dispatchLayout := none }

namespace LayoutKind

variable {α β : Type}

/-- The layout of a class with the given chain, by plain recursion over the chain. -/
def plain (kind : LayoutKind α) (chain : List ClassEntry) : List α := chain.foldr kind.extend []

/-- A kind reads back the layout that it keeps, changes nothing else, and extends layouts without
looking at kept ones. -/
structure Lawful (kind : LayoutKind α) : Prop where
  kept_keep : ∀ layout c, kind.kept (kind.keep layout c) = some layout
  keep_unkept : ∀ layout c, (kind.keep layout c).unkept = c.unkept
  extend_unkept : ∀ c inherited, kind.extend c.unkept inherited = kind.extend c inherited

theorem lawful_attributes : attributes.Lawful := ⟨fun _ _ => rfl,fun _ _ => rfl,fun _ _ => rfl⟩

theorem lawful_dispatch : dispatch.Lawful := ⟨fun _ _ => rfl,fun _ _ => rfl,fun _ _ => rfl⟩

theorem Lawful.plain_unkept {kind : LayoutKind α} (lawful : kind.Lawful)
    (chain : List ClassEntry) : kind.plain (chain.map ClassEntry.unkept) = kind.plain chain := by
  simp only [plain,List.foldr_map,lawful.extend_unkept]

def Keeps (kind : LayoutKind α) (table : ClassTable) : Prop :=
  ∀ c ∈ table.toList, ∀ layout, kind.kept c = some layout → layout = kind.plain (table.chain c)

end LayoutKind

namespace ClassTable

variable {α β : Type}

def SameUnkept (table table' : ClassTable) : Prop :=
  table.toList.map ClassEntry.unkept = table'.toList.map ClassEntry.unkept

theorem SameUnkept.get {table table' : ClassTable} (same : table.SameUnkept table') (i : Nat) :
    table.classes[i]?.map ClassEntry.unkept = table'.classes[i]?.map ClassEntry.unkept := by
  have at_i := congrArg (·[i]?) same
  simpa [toList] using at_i

theorem SameUnkept.size {table table' : ClassTable} (same : table.SameUnkept table') :
    table.size = table'.size := by
  have lengths := congrArg List.length same
  simpa [toList,ClassTable.size] using lengths

theorem SameUnkept.chainFrom {table table' : ClassTable} (same : table.SameUnkept table')
    (fuel tag : Nat) : (table.chainFrom fuel tag).map ClassEntry.unkept =
      (table'.chainFrom fuel tag).map ClassEntry.unkept := by
  induction fuel generalizing tag with
  | zero => rfl
  | succ fuel ih =>
    have at_tag := same.get tag
    simp only [ClassTable.chainFrom]
    cases left : table.classes[tag]? <;> cases right : table'.classes[tag]?
    · rfl
    · simp [left,right] at at_tag
    · simp [left,right] at at_tag
    next c d =>
      simp only [left,right,Option.map_some,Option.some.injEq] at at_tag
      have parents : c.parent = d.parent := congrArg (·.parent) at_tag
      simp only [parents,List.map_cons,at_tag]
      cases d.parent with
      | none => rfl
      | some p => exact congrArg _ (ih p)

theorem SameUnkept.plain {table table' : ClassTable} (same : table.SameUnkept table')
    {kind : LayoutKind α} (lawful : kind.Lawful) (fuel tag : Nat) :
    kind.plain (table.chainFrom fuel tag) = kind.plain (table'.chainFrom fuel tag) := by
  rw [← lawful.plain_unkept,same.chainFrom,lawful.plain_unkept]

theorem SameUnkept.mem {table table' : ClassTable} {c : ClassEntry} (same : table.SameUnkept table')
    (member : c ∈ table.toList) : ∃ d ∈ table'.toList, d.unkept = c.unkept := by
  have image : c.unkept ∈ table.toList.map ClassEntry.unkept := List.mem_map_of_mem member
  rw [same] at image
  exact List.mem_map.mp image

theorem SameUnkept.back {table table' : ClassTable} (same : table.SameUnkept table') {i : Nat}
    {c : ClassEntry} (at_i : table.classes[i]? = some c) :
    ∃ d, table'.classes[i]? = some d ∧ d.unkept = c.unkept := by
  have image := same.get i
  rw [at_i] at image
  exact Option.map_eq_some_iff.mp image.symm

theorem SameUnkept.sound {table table' : ClassTable} (same : table.SameUnkept table')
    (sound : table'.Sound) : table.Sound := by
  constructor
  · intro i c at_i
    obtain ⟨d,at_d,same⟩ := same.back at_i
    exact (congrArg (·.tag) same).symm.trans (sound.tag at_d)
  · intro i j c e at_i at_j names
    obtain ⟨d,at_d,sameC⟩ := same.back at_i
    obtain ⟨f,at_f,sameE⟩ := same.back at_j
    have nameD : d.name = c.name := congrArg (·.name) sameC
    have nameF : f.name = e.name := congrArg (·.name) sameE
    exact sound.name at_d at_f (by rw [nameD,names,nameF])
  · intro i p c at_i set
    obtain ⟨d,at_d,sameC⟩ := same.back at_i
    have parentD : d.parent = c.parent := congrArg (·.parent) sameC
    have parentNameD : d.parentName = c.parentName := congrArg (·.parentName) sameC
    obtain ⟨named,e,at_e,name⟩ := sound.parent at_d (parentD.trans set)
    obtain ⟨f,at_f,sameF⟩ := SameUnkept.back same.symm at_e
    have nameF : f.name = e.name := congrArg (·.name) sameF
    exact ⟨parentNameD ▸ named,f,at_f,by rw [nameF,name,parentNameD]⟩

/-- What is kept plays no part in linking. -/
theorem SameUnkept.linked {table table' : ClassTable} (same : table.SameUnkept table')
    (linked : table'.Linked) : table.Linked := by
  refine ⟨⟨same.sound linked.toSound,fun {c} member named => ?_⟩,fun c member => ?_⟩
  · obtain ⟨d,memberD,sameD⟩ := same.mem member
    have parentD : d.parent = c.parent := congrArg (·.parent) sameD
    have parentNameD : d.parentName = c.parentName := congrArg (·.parentName) sameD
    exact parentD ▸ linked.linked memberD (parentNameD ▸ named)
  · obtain ⟨d,memberD,sameD⟩ := same.mem member
    have tagD : d.tag = c.tag := congrArg (·.tag) sameD
    have reaches := linked.reaches d memberD
    have through (chain : List ClassEntry) : chain.any (·.parent.isNone) =
        (chain.map ClassEntry.unkept).any (·.parent.isNone) := by
      rw [List.any_map]
      rfl
    rw [reachesRoot,chain,through] at reaches ⊢
    rw [same.chainFrom,same.size,← tagD]
    exact reaches

/-- A query keeps every part of the classes that keeping a layout keeps. -/
theorem layoutFrom_map {kind : LayoutKind α} (part : ClassEntry → β)
    (keeps : ∀ layout c, part (kind.keep layout c) = part c) (fuel tag : Nat) (table : ClassTable) :
    (layoutFrom kind fuel tag table).2.toList.map part = table.toList.map part := by
  induction fuel generalizing tag with
  | zero => rfl
  | succ fuel ih =>
    simp only [layoutFrom]
    split
    next => rfl
    next c _ =>
      split
      next => rfl
      next =>
        rw [keepLayout,update_map part (keeps _)]
        cases c.parent with
        | none => rfl
        | some p => exact ih p

theorem layoutFrom_unkept {kind : LayoutKind α} (lawful : kind.Lawful) (fuel tag : Nat)
    (table : ClassTable) : (layoutFrom kind fuel tag table).2.SameUnkept table :=
  layoutFrom_map _ lawful.keep_unkept fuel tag table

theorem length_chainFrom (table : ClassTable) (fuel tag : Nat) :
    (table.chainFrom fuel tag).length ≤ fuel := by
  induction fuel generalizing tag with
  | zero => exact Nat.le_refl 0
  | succ fuel ih =>
    simp only [chainFrom]
    split
    next => exact Nat.zero_le _
    next c _ =>
      cases c.parent with
      | none => exact Nat.succ_le_succ (Nat.zero_le fuel)
      | some p => exact Nat.succ_le_succ (ih p)

theorem SameUnkept.plain_chain {table table' : ClassTable} (same : table.SameUnkept table')
    {kind : LayoutKind α} (lawful : kind.Lawful) {c d : ClassEntry} (tags : c.tag = d.tag) :
    kind.plain (table.chain c) = kind.plain (table'.chain d) := by
  rw [chain,chain,same.plain lawful,same.size,tags]

/-- What another kind keeps stays right through queries of this one. -/
theorem keeps_of_same {kind : LayoutKind α} (lawful : kind.Lawful) {table table' : ClassTable}
    (same : table.SameUnkept table')
    (kept : table.toList.map (fun c => (c.unkept,kind.kept c)) =
      table'.toList.map (fun c => (c.unkept,kind.kept c))) (keeps : kind.Keeps table') :
    kind.Keeps table := by
  intro c member layout keptC
  have image := List.mem_map_of_mem (f := fun c => (c.unkept,kind.kept c)) member
  rw [kept] at image
  obtain ⟨d,memberD,sameD⟩ := List.mem_map.mp image
  obtain ⟨unkept,keptD⟩ := Prod.mk.inj sameD
  rw [keeps d memberD layout (keptD.trans keptC)]
  exact (same.plain_chain lawful (congrArg (·.tag) unkept).symm).symm

theorem update_unkept {kind : LayoutKind α} (lawful : kind.Lawful) (table : ClassTable) (tag : Nat)
    (layout : List α) : (table.keepLayout kind tag layout).SameUnkept table :=
  update_map _ (lawful.keep_unkept layout)

/-- Keeping the plain layout of a class is right. -/
theorem keeps_update {kind : LayoutKind α} (lawful : kind.Lawful) {table : ClassTable}
    (linked : table.Linked) (keeps : kind.Keeps table) {c : ClassEntry}
    (member : c ∈ table.toList) :
    kind.Keeps (table.keepLayout kind c.tag (kind.plain (table.chain c))) := by
  have same := update_unkept lawful table c.tag (kind.plain (table.chain c))
  have linked' := same.linked linked
  intro d memberD layout kept
  have at_d := linked'.at_tag memberD
  rw [keepLayout,update_get] at at_d
  split at at_d
  next tags =>
    rw [tags,linked.at_tag member] at at_d
    cases at_d
    rw [lawful.kept_keep] at kept
    cases kept
    exact (same.plain_chain lawful tags).symm
  next =>
    rw [keeps d (mem_toList.mpr ⟨d.tag,at_d⟩) layout kept]
    exact (same.plain_chain lawful rfl).symm

/-- With fuel for its chain, a query gives the plain layout and keeps only plain ones. -/
theorem layoutFrom_spec {kind : LayoutKind α} (lawful : kind.Lawful) {table : ClassTable}
    (linked : table.Linked) (keeps : kind.Keeps table) {c : ClassEntry} (member : c ∈ table.toList)
    {fuel : Nat} (enough : (table.chain c).length ≤ fuel) :
    (layoutFrom kind fuel c.tag table).1 = kind.plain (table.chain c) ∧
      kind.Keeps (layoutFrom kind fuel c.tag table).2 := by
  revert fuel
  refine linked.induction (P := fun c => ∀ {fuel}, (table.chain c).length ≤ fuel →
    (layoutFrom kind fuel c.tag table).1 = kind.plain (table.chain c) ∧
      kind.Keeps (layoutFrom kind fuel c.tag table).2) ?_ ?_ c member
  · intro c member _ unset fuel enough
    have chain := linked.chain_root member unset
    rw [chain,List.length_cons] at enough
    obtain ⟨fuel,rfl⟩ : ∃ n, fuel = n + 1 := Nat.exists_eq_add_one.mpr (by omega)
    have plain : kind.extend c [] = kind.plain (table.chain c) := by rw [chain]; rfl
    simp only [layoutFrom,linked.at_tag member,unset]
    split
    next layout kept => exact ⟨keeps c member layout kept,keeps⟩
    next =>
      rw [plain]
      exact ⟨rfl,keeps_update lawful linked keeps member⟩
  · intro c member d memberD parent _ _ ih fuel enough
    have chain := linked.chain_step member parent
    rw [chain,List.length_cons] at enough
    obtain ⟨fuel,rfl⟩ : ∃ n, fuel = n + 1 := Nat.exists_eq_add_one.mpr (by omega)
    simp only [layoutFrom,linked.at_tag member,parent]
    split
    next layout kept => exact ⟨keeps c member layout kept,keeps⟩
    next =>
      have enoughD : (table.chain d).length ≤ fuel := Nat.le_of_succ_le_succ enough
      obtain ⟨inherited,keepsD⟩ := ih enoughD
      have same := layoutFrom_unkept lawful fuel d.tag table
      have plain : kind.extend c (kind.plain (table.chain d)) = kind.plain (table.chain c) := by
        rw [chain]; rfl
      rw [inherited,plain]
      refine ⟨rfl,?_⟩
      -- The class as it stands after the query for its parent.
      obtain ⟨e,memberE,sameE⟩ := SameUnkept.mem same.symm member
      have tags : e.tag = c.tag := congrArg (·.tag) sameE
      rw [← tags,← same.plain_chain lawful tags]
      exact keeps_update lawful (same.linked linked) keepsD memberE

/-- A linked table in which every kept layout is the plain one. -/
structure Ready (table : ClassTable) : Prop extends table.Linked where
  attributesKept : LayoutKind.attributes.Keeps table
  dispatchKept : LayoutKind.dispatch.Keeps table

namespace Ready

variable {table : ClassTable}

theorem slots_eq (ready : table.Ready) {c : ClassEntry} (member : c ∈ table.toList) :
    table.slots c = LayoutKind.attributes.plain (table.chain c) :=
  (layoutFrom_spec LayoutKind.lawful_attributes ready.toLinked ready.attributesKept member
    (length_chainFrom ..)).1

theorem entries_eq (ready : table.Ready) {c : ClassEntry} (member : c ∈ table.toList) :
    table.entries c = LayoutKind.dispatch.plain (table.chain c) :=
  (layoutFrom_spec LayoutKind.lawful_dispatch ready.toLinked ready.dispatchKept member
    (length_chainFrom ..)).1

theorem of_attributes (ready : table.Ready) {c : ClassEntry} (member : c ∈ table.toList) :
    (table.attributes c.tag).2.Ready := by
  have same : (table.attributes c.tag).2.SameUnkept table :=
    layoutFrom_unkept LayoutKind.lawful_attributes ..
  exact ⟨same.linked ready.toLinked,
    (layoutFrom_spec LayoutKind.lawful_attributes ready.toLinked ready.attributesKept member
      (length_chainFrom ..)).2,
    keeps_of_same LayoutKind.lawful_dispatch same
      (layoutFrom_map _ (fun _ _ => rfl) ..) ready.dispatchKept⟩

theorem of_dispatch (ready : table.Ready) {c : ClassEntry} (member : c ∈ table.toList) :
    (table.dispatch c.tag).2.Ready := by
  have same : (table.dispatch c.tag).2.SameUnkept table :=
    layoutFrom_unkept LayoutKind.lawful_dispatch ..
  exact ⟨same.linked ready.toLinked,
    keeps_of_same LayoutKind.lawful_attributes same
      (layoutFrom_map _ (fun _ _ => rfl) ..) ready.attributesKept,
    (layoutFrom_spec LayoutKind.lawful_dispatch ready.toLinked ready.dispatchKept member
      (length_chainFrom ..)).2⟩

theorem of_buildTags (tags : List Nat) (ready : table.Ready)
    (bound : ∀ tag ∈ tags, tag < table.size) :
    (buildTags tags table).Ready ∧ (buildTags tags table).SameUnkept table := by
  induction tags generalizing table with
  | nil => exact ⟨ready,rfl⟩
  | cons tag tags ih =>
    obtain ⟨c,member,rfl⟩ := ready.exists_of_lt (bound tag List.mem_cons_self)
    have readyA := ready.of_attributes member
    have sameA : (table.attributes c.tag).2.SameUnkept table :=
      layoutFrom_unkept LayoutKind.lawful_attributes ..
    obtain ⟨d,memberD,sameD⟩ := SameUnkept.mem sameA.symm member
    have tagD : d.tag = c.tag := congrArg (·.tag) sameD
    have readyD := readyA.of_dispatch memberD
    have sameB : ((table.attributes c.tag).2.dispatch d.tag).2.SameUnkept table :=
      (layoutFrom_unkept LayoutKind.lawful_dispatch ..).trans sameA
    rw [tagD] at readyD sameB
    obtain ⟨readyRest,sameRest⟩ := ih readyD
      (fun t inRest => sameB.size ▸ bound t (List.mem_cons_of_mem _ inRest))
    exact ⟨readyRest,sameRest.trans sameB⟩

end Ready

def Fresh (table : ClassTable) : Prop :=
  ∀ c ∈ table.toList, c.attributeLayout = none ∧ c.dispatchLayout = none

theorem Fresh.of_unlinked {table table' : ClassTable} (fresh : table.Fresh)
    (same : table'.toList.map ClassEntry.unlinked = table.toList.map ClassEntry.unlinked) :
    table'.Fresh := by
  intro c member
  have image : c.unlinked ∈ table.toList.map ClassEntry.unlinked :=
    same ▸ List.mem_map_of_mem member
  obtain ⟨d,memberD,sameD⟩ := List.mem_map.mp image
  obtain ⟨attributes,dispatch⟩ := fresh d memberD
  exact ⟨(congrArg (·.attributeLayout) sameD).symm.trans attributes,
    (congrArg (·.dispatchLayout) sameD).symm.trans dispatch⟩

theorem Fresh.ready {table : ClassTable} (fresh : table.Fresh) (linked : table.Linked) :
    table.Ready := by
  refine ⟨linked,?_,?_⟩
  · intro c member layout kept
    exact absurd ((fresh c member).1.symm.trans kept) (by simp)
  · intro c member layout kept
    exact absurd ((fresh c member).2.symm.trans kept) (by simp)

theorem Ready.of_build {table : ClassTable} (ready : table.Ready) :
    table.build.Ready ∧ table.build.SameUnkept table :=
  ready.of_buildTags _ fun _ inRange => List.mem_range.mp inRange

end ClassTable

end CoolBackend
