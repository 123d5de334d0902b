import CoolBackend.Proofs.TableCalls

/-!
Plain recursion computes the layout of a class from that of its parent, up to the root, and keeps
nothing. On a linked table it comes to an end. Queries that keep what they compute give the same
answers, whatever was asked before and whatever is kept already.
-/
namespace CoolBackend

/-- The layout of the class with a tag by plain recursion: the root extends the empty layout, every
other class that of its parent. There is none where the recursion goes on for ever. -/
inductive LayoutKind.Flattens {α : Type} (kind : LayoutKind α) (table : ClassTable) :
    Nat → List α → Prop where
  | root {tag : Nat} {c : ClassEntry} (here : table.classes[tag]? = some c)
      (top : c.parent = none) : Flattens kind table tag (kind.extend c [])
  | child {tag p : Nat} {c : ClassEntry} {inherited : List α}
      (here : table.classes[tag]? = some c) (link : c.parent = some p)
      (above : Flattens kind table p inherited) : Flattens kind table tag (kind.extend c inherited)

namespace LayoutKind

variable {α : Type} {kind : LayoutKind α} {table linked : ClassTable} {tag : Nat}

theorem Flattens.unique {layout other : List α} (flattens : kind.Flattens table tag layout)
    (again : kind.Flattens table tag other) : layout = other := by
  induction flattens generalizing other with
  | root here top =>
    cases again with
    | root here' =>
      cases here.symm.trans here'
      rfl
    | child here' link =>
      cases here.symm.trans here'
      cases top.symm.trans link
  | child here link _ ih =>
    cases again with
    | root here' top =>
      cases here.symm.trans here'
      cases link.symm.trans top
    | child here' link' above =>
      cases here.symm.trans here'
      cases link.symm.trans link'
      rw [ih above]

/-- The recursion ends on every class of a linked table, with the layout of its chain. -/
theorem flattens_plain (kind : LayoutKind α) (isLinked : linked.Linked) {c : ClassEntry}
    (member : c ∈ linked.toList) : kind.Flattens linked c.tag (kind.plain (linked.chain c)) := by
  refine isLinked.induction
    (P := fun c => kind.Flattens linked c.tag (kind.plain (linked.chain c))) ?_ ?_ c member
  · intro c member _ top
    rw [isLinked.chain_root member top]
    exact .root (isLinked.at_tag member) top
  · intro c member d _ link _ _ above
    rw [isLinked.chain_step member link]
    exact .child (isLinked.at_tag member) link above

theorem existsUnique_flattens (kind : LayoutKind α) (isLinked : linked.Linked)
    (inside : tag < linked.size) : ∃! layout, kind.Flattens linked tag layout := by
  obtain ⟨c,member,rfl⟩ := isLinked.exists_of_lt inside
  have flattens := flattens_plain kind isLinked member
  exact ⟨_,flattens,fun _ other => other.unique flattens⟩

/-- A query on a table that keeps plain layouts gives what plain recursion gives on the linked table
that it came from. -/
theorem flattens_layoutFrom (lawful : kind.Lawful) (isLinked : linked.Linked)
    (same : table.SameUnkept linked) (keeps : kind.Keeps table) (inside : tag < linked.size) :
    kind.Flattens linked tag (ClassTable.layoutFrom kind table.size tag table).1 := by
  obtain ⟨c,member,rfl⟩ := isLinked.exists_of_lt inside
  obtain ⟨d,memberD,tags⟩ := (same.linked isLinked).exists_of_lt (same.size ▸ inside)
  have spec := ClassTable.layoutFrom_spec lawful (same.linked isLinked) keeps memberD
    (ClassTable.length_chainFrom table table.size d.tag)
  rw [← tags,spec.1,same.plain_chain lawful tags,tags]
  exact flattens_plain kind isLinked member

end LayoutKind

namespace LayoutQuery

/-- The class that a query is about. -/
def tag? : LayoutQuery → Option Nat
  | attributes tag | dispatch tag | objectSize tag | attributeIndex tag _ | methodSlot tag _ =>
    some tag
  | build => none

/-- What a query has to answer, by plain recursion. -/
def Answers (table : ClassTable) : LayoutQuery → LayoutAnswer → Prop
  | attributes tag, answer =>
    ∃ slots, LayoutKind.attributes.Flattens table tag slots ∧ answer = .slots slots
  | dispatch tag, answer =>
    ∃ entries, LayoutKind.dispatch.Flattens table tag entries ∧ answer = .entries entries
  | objectSize tag, answer =>
    ∃ slots, LayoutKind.attributes.Flattens table tag slots ∧
      answer = .words (slots.length + headerWords)
  | attributeIndex tag name, answer =>
    ∃ slots, LayoutKind.attributes.Flattens table tag slots ∧
      answer = .position (slots.findIdx? (·.name = name))
  | methodSlot tag method, answer =>
    ∃ entries, LayoutKind.dispatch.Flattens table tag entries ∧
      answer = .position (ClassTable.slotIn? entries method)
  | build, answer => answer = .built

def runAll : List LayoutQuery → ClassTable → List LayoutAnswer × ClassTable
  | [], table => ([],table)
  | query :: rest, table =>
    let (answer,table) := query.run table
    (runAll rest table).map (answer :: ·) id

variable {table linked : ClassTable}

/-- What a query for a layout leaves of a table that is ready. -/
theorem ready_of_run (ready : table.Ready) (query : LayoutQuery)
    (inside : ∀ tag ∈ query.tag?, tag < table.size) :
    (query.run table).2.Ready ∧ (query.run table).2.SameUnkept table := by
  have attributes (tag : Nat) (bound : tag < table.size) :
      (table.attributes tag).2.Ready ∧ (table.attributes tag).2.SameUnkept table := by
    obtain ⟨c,member,rfl⟩ := ready.exists_of_lt bound
    exact ⟨ready.of_attributes member,
      ClassTable.layoutFrom_unkept LayoutKind.lawful_attributes ..⟩
  have dispatch (tag : Nat) (bound : tag < table.size) :
      (table.dispatch tag).2.Ready ∧ (table.dispatch tag).2.SameUnkept table := by
    obtain ⟨c,member,rfl⟩ := ready.exists_of_lt bound
    exact ⟨ready.of_dispatch member,ClassTable.layoutFrom_unkept LayoutKind.lawful_dispatch ..⟩
  cases query with
  | attributes tag | objectSize tag | attributeIndex tag name =>
    exact attributes tag (inside tag rfl)
  | dispatch tag | methodSlot tag method => exact dispatch tag (inside tag rfl)
  | build => exact ready.of_build

/-- One query gives the answer of plain recursion, and the table can be asked again. -/
theorem run_answers (isLinked : linked.Linked) (ready : table.Ready)
    (same : table.SameUnkept linked) (query : LayoutQuery)
    (inside : ∀ tag ∈ query.tag?, tag < linked.size) :
    query.Answers linked (query.run table).1 ∧ (query.run table).2.Ready ∧
      (query.run table).2.SameUnkept linked := by
  have slots (tag : Nat) (bound : tag < linked.size) :
      LayoutKind.attributes.Flattens linked tag (table.attributes tag).1 :=
    LayoutKind.flattens_layoutFrom LayoutKind.lawful_attributes isLinked same ready.attributesKept
      bound
  have entries (tag : Nat) (bound : tag < linked.size) :
      LayoutKind.dispatch.Flattens linked tag (table.dispatch tag).1 :=
    LayoutKind.flattens_layoutFrom LayoutKind.lawful_dispatch isLinked same ready.dispatchKept bound
  obtain ⟨readyNext,sameNext⟩ := ready_of_run ready query (same.size ▸ inside)
  refine ⟨?_,readyNext,sameNext.trans same⟩
  cases query with
  | attributes tag | objectSize tag | attributeIndex tag name =>
    exact ⟨_,slots tag (inside tag rfl),rfl⟩
  | dispatch tag | methodSlot tag method => exact ⟨_,entries tag (inside tag rfl),rfl⟩
  | build => rfl

/-- All queries give the answers of plain recursion on the table as it was before the first. -/
theorem runAll_answers (isLinked : linked.Linked) (queries : List LayoutQuery)
    (inside : ∀ query ∈ queries, ∀ tag ∈ query.tag?, tag < linked.size) (ready : table.Ready)
    (same : table.SameUnkept linked) :
    List.Forall₂ (Answers linked) queries (runAll queries table).1 ∧
      (runAll queries table).2.SameUnkept linked := by
  induction queries generalizing table with
  | nil => exact ⟨.nil,same⟩
  | cons query rest ih =>
    obtain ⟨here,inside⟩ := List.forall_mem_cons.mp inside
    obtain ⟨answer,readyNext,sameNext⟩ := run_answers isLinked ready same query here
    obtain ⟨answers,sameLast⟩ := ih inside readyNext sameNext
    exact ⟨.cons answer answers,sameLast⟩

end LayoutQuery

open ClassTable

/-- On a table that was linked before any layout was kept, plain recursion ends for every class,
with one result. Whatever is asked about its classes, in any order and as often as one likes, is answered
as plain recursion answers it, and nothing changes but the layouts that are kept. -/
theorem layout_caching_transparent {calls : List TableCall} {linked : ClassTable}
    (fresh : (afterCalls calls).Fresh) (run : link (afterCalls calls) = .ok () linked) :
    (∀ tag < linked.size, (∃! slots, LayoutKind.attributes.Flattens linked tag slots) ∧
      ∃! entries, LayoutKind.dispatch.Flattens linked tag entries) ∧
    ∀ queries : List LayoutQuery, (∀ query ∈ queries, ∀ tag ∈ query.tag?, tag < linked.size) →
      List.Forall₂ (LayoutQuery.Answers linked) queries (LayoutQuery.runAll queries linked).1 ∧
        (LayoutQuery.runAll queries linked).2.SameUnkept linked := by
  obtain ⟨isLinked,frame⟩ := linked_of_link (sound_afterCalls calls) run
  refine ⟨fun tag inside => ?_,fun queries inside => ?_⟩
  · exact ⟨LayoutKind.existsUnique_flattens _ isLinked inside,
      LayoutKind.existsUnique_flattens _ isLinked inside⟩
  · have ready := (fresh.of_unlinked frame).ready isLinked
    exact LayoutQuery.runAll_answers isLinked queries inside ready rfl

/-- A subclass that comes before its parent, and a root that lays out nothing. -/
def layered : List TableCall :=
  [.defineClass {
      name := "B", parent := "A"
      attributes := [({ name := "y", type := "Int" },.absent)]
      methods := [{ name := "f", formals := [], returnType := "Int", body := .absent }] },
    .define "Object" "",
    .defineClass {
      name := "A"
      attributes := [({ name := "x", type := "A" },.absent)]
      methods := [{ name := "f", formals := [], returnType := "Int", body := .absent }] }]

def layeredQueries : List LayoutQuery :=
  [.attributes 1,.methodSlot 0 "f",.attributes 1,.objectSize 0,.build,.dispatch 0,
    .attributeIndex 2 "y",.attributeIndex 0 "y"]

theorem layered_answers :
    ∃ linked, link (afterCalls layered) = .ok () linked ∧
      List.Forall₂ (LayoutQuery.Answers linked) layeredQueries
        [.slots [],.position (some 0),.slots [],.words 5,.built,.entries [⟨"f","B",0⟩],
          .position none,.position (some 1)] := by
  have fresh : (afterCalls layered).Fresh := by
    simp only [Fresh]
    decide +kernel
  have run := eq_ok_of_succeeded (r := link (afterCalls layered)) (by decide +kernel)
  have answers := ((layout_caching_transparent fresh run).2 layeredQueries (by decide +kernel)).1
  have given : (LayoutQuery.runAll layeredQueries (stateAfter (link (afterCalls layered)))).1 =
      [.slots [],.position (some 0),.slots [],.words 5,.built,.entries [⟨"f","B",0⟩],
        .position none,.position (some 1)] := by decide +kernel
  exact ⟨_,run,given ▸ answers⟩

end CoolBackend
