import CoolBackend.Proofs.ProgramTables
import CoolBackend.Verify

/-!
The verifier walks classes by name, the class table by tag. On a table that is linked, and in which
no class has the empty name, they see the same ancestors, attributes and methods.
-/
namespace CoolBackend

open Verify

/-- A name that occurs in a list is found there. -/
theorem exists_find?_of_mem {α : Type} {name : String} {xs : List α} {nameOf : α → String}
    (member : name ∈ xs.map nameOf) : ∃ x, xs.find? (nameOf · = name) = some x := by
  obtain ⟨x,here,same⟩ := List.mem_map.mp member
  exact Option.isSome_iff_exists.mp (List.find?_isSome.mpr ⟨x,here,decide_eq_true same⟩)

theorem Location.ofAttribute_ok {className name : String} {slots : List AttributeSlot}
    (member : name ∈ slots.map (·.name)) :
    ∃ place, Location.ofAttribute className slots name = .ok place := by
  obtain ⟨slot,found⟩ := exists_find?_of_mem member
  exact ⟨_,by rw [Location.ofAttribute,found]⟩

/-- A class of the table as the verifier sees it. -/
def ClassEntry.known (c : ClassEntry) : KnownClass :=
  { name := c.name
    parent := c.parentName
    attributes := c.attributes.map (·.name)
    methods := c.methods }

namespace ClassEntry

theorem extendAttributes_origin {c : ClassEntry} {inherited : List AttributeSlot}
    {slot : AttributeSlot} (member : slot ∈ c.extendAttributes inherited) :
    slot ∈ inherited ∨ slot.className = c.name ∧ ∃ a ∈ c.attributes, slot.name = a.name := by
  rw [extendAttributes] at member
  generalize c.attributes = attributes at member ⊢
  induction attributes generalizing inherited with
  | nil => exact .inl member
  | cons a rest ih =>
    rw [List.foldl_cons] at member
    rcases ih member with earlier | ⟨owner,b,among,same⟩
    · split at earlier
      next => exact .inl earlier
      next =>
        rcases List.mem_append.mp earlier with earlier | new
        · exact .inl earlier
        · cases List.mem_singleton.mp new
          exact .inr ⟨rfl,a,List.mem_cons_self,rfl⟩
    · exact .inr ⟨owner,b,List.mem_cons_of_mem _ among,same⟩

theorem extendAttributes_keeps {c : ClassEntry} {inherited : List AttributeSlot}
    {slot : AttributeSlot} (member : slot ∈ inherited) : slot ∈ c.extendAttributes inherited := by
  rw [extendAttributes]
  generalize c.attributes = attributes
  induction attributes generalizing inherited with
  | nil => exact member
  | cons a rest ih =>
    rw [List.foldl_cons]
    apply ih
    split
    next => exact member
    next => exact List.mem_append_left _ member

theorem extendAttributes_own {c : ClassEntry} {a : AttributeDecl} (inherited : List AttributeSlot)
    (member : a ∈ c.attributes) : ∃ slot ∈ c.extendAttributes inherited, slot.name = a.name := by
  obtain ⟨before,after,split⟩ := List.append_of_mem member
  -- What comes before `a` only adds slots, and `a` either finds one or adds its own.
  rw [extendAttributes,split,List.foldl_append,List.foldl_cons]
  generalize before.foldl _ inherited = slots
  have keep (slot : AttributeSlot) (here : slot ∈ if slots.any (·.name = a.name) then slots
      else slots ++ [{ name := a.name, className := c.name, type := a.type,
                       offset := (headerWords + slots.length) * wordSize }]) :=
    extendAttributes_keeps (c := { c with attributes := after }) here
  by_cases taken : slots.any (·.name = a.name)
  · obtain ⟨slot,here,same⟩ := List.any_eq_true.mp taken
    exact ⟨slot,keep slot (by rw [if_pos taken]; exact here),of_decide_eq_true same⟩
  · exact ⟨_,keep _ (by rw [if_neg taken]; exact List.mem_append_right _ List.mem_cons_self),rfl⟩

theorem map_extendDispatch (c : ClassEntry) (inherited : List DispatchEntry) :
    (c.extendDispatch inherited).map (·.method) =
      inherited.map (·.method) ++ c.methods.filter fun m => !inherited.any (·.method = m) := by
  have kept (e : DispatchEntry) :
      (if c.methods.contains e.method then { e with className := c.name } else e).method =
        e.method := by
    split
    next => rfl
    next => rfl
  have introduced (new : List String) (first : Nat) :
      (new.mapIdx fun i m => (⟨m,c.name,first + i⟩ : DispatchEntry)).map (·.method) = new := by
    apply List.ext_getElem?
    intro i
    simp [Option.map_map,Function.comp_def]
  simp only [extendDispatch,List.map_append,List.map_map,Function.comp_def,kept,introduced]

theorem mem_extendDispatch {c : ClassEntry} {inherited : List DispatchEntry} {method : String} :
    method ∈ (c.extendDispatch inherited).map (·.method) ↔
      method ∈ inherited.map (·.method) ∨ method ∈ c.methods := by
  rw [map_extendDispatch,List.mem_append,List.mem_filter]
  by_cases known : method ∈ inherited.map (·.method)
  · simp [known]
  · have new : inherited.any (·.method = method) = false := by
      simpa using known
    simp [known,new]

end ClassEntry

namespace LayoutKind

/-- The names in a flattened layout are those that the classes of the chain declare. -/
theorem mem_attributes_plain {chain : List ClassEntry} {name : String} :
    name ∈ (attributes.plain chain).map (·.name) ↔
      ∃ k ∈ chain, name ∈ k.attributes.map (·.name) := by
  induction chain with
  | nil => simp [plain]
  | cons k rest ih =>
    have step : attributes.plain (k :: rest) = k.extendAttributes (attributes.plain rest) := rfl
    simp only [step,List.mem_cons,exists_eq_or_imp,← ih]
    constructor
    · intro member
      obtain ⟨slot,here,rfl⟩ := List.mem_map.mp member
      rcases ClassEntry.extendAttributes_origin here with earlier | ⟨-,a,among,same⟩
      · exact .inr (List.mem_map.mpr ⟨slot,earlier,rfl⟩)
      · exact .inl (List.mem_map.mpr ⟨a,among,same.symm⟩)
    · rintro (own | earlier)
      · obtain ⟨a,among,rfl⟩ := List.mem_map.mp own
        obtain ⟨slot,here,same⟩ := ClassEntry.extendAttributes_own (attributes.plain rest) among
        exact List.mem_map.mpr ⟨slot,here,same⟩
      · obtain ⟨slot,here,rfl⟩ := List.mem_map.mp earlier
        exact List.mem_map.mpr ⟨slot,ClassEntry.extendAttributes_keeps here,rfl⟩

/-- A slot names the class on the chain that declares it. -/
theorem attributes_owner {chain : List ClassEntry} {slot : AttributeSlot}
    (member : slot ∈ attributes.plain chain) : ∃ k ∈ chain, slot.className = k.name := by
  induction chain with
  | nil => cases member
  | cons k rest ih =>
    rcases ClassEntry.extendAttributes_origin member with earlier | ⟨owner,-⟩
    · obtain ⟨d,above,owner⟩ := ih earlier
      exact ⟨d,List.mem_cons_of_mem _ above,owner⟩
    · exact ⟨k,List.mem_cons_self,owner⟩

theorem mem_dispatch_plain {chain : List ClassEntry} {method : String} :
    method ∈ (dispatch.plain chain).map (·.method) ↔ ∃ k ∈ chain, method ∈ k.methods := by
  induction chain with
  | nil => simp [plain]
  | cons k rest ih =>
    have step : dispatch.plain (k :: rest) = k.extendDispatch (dispatch.plain rest) := rfl
    simp only [step,ClassEntry.mem_extendDispatch,ih,List.mem_cons,exists_eq_or_imp]
    exact or_comm

end LayoutKind

namespace ClassTable

variable {table : ClassTable} {c : ClassEntry}

/-- The hierarchy of a table as the verifier sees it. -/
def known (table : ClassTable) : Hierarchy := table.toList.map ClassEntry.known

theorem find?_known (table : ClassTable) (name : String) :
    table.known.find? name = (table.find? name).map ClassEntry.known := by
  rw [known,Hierarchy.find?,List.find?_map,find?_eq]
  rfl

theorem defines_known (table : ClassTable) (name : String) :
    table.known.defines name = (table.find? name).isSome := by
  rw [Hierarchy.defines,find?_known,Option.isSome_map]

theorem length_known (table : ClassTable) : table.known.length = table.size := by
  rw [known,List.length_map]
  rfl

variable (named : ∀ c ∈ table.toList, c.name ≠ "")

include named

theorem chainFrom_known (linked : table.Linked) (fuel : Nat) (member : c ∈ table.toList) :
    table.known.chainFrom fuel c.name =
      (table.chainFrom fuel c.tag).map ClassEntry.known := by
  induction fuel generalizing c with
  | zero => rfl
  | succ fuel ih =>
    rw [Hierarchy.chainFrom,find?_known,linked.find?_name member,ClassTable.chainFrom,
      linked.at_tag member]
    -- Walking by name goes on above the root, where it meets the empty name.
    rcases linked.parent_cases member with ⟨top,root⟩ | ⟨d,memberD,-,parent,same⟩
    · have none : table.known.chainFrom fuel "" = [] := by
        cases fuel with
        | zero => rfl
        | succ fuel =>
          rw [Hierarchy.chainFrom,find?_known,find?_eq_none.mpr named]
          rfl
      simp [root,ClassEntry.known,top,none]
    · simp [parent,ClassEntry.known,← same,ih memberD]

theorem chain_known (linked : table.Linked) (member : c ∈ table.toList) :
    table.known.chain c.name = (table.chain c).map ClassEntry.known := by
  rw [Hierarchy.chain,length_known,chainFrom_known named linked _ member]
  rfl

theorem hasAttribute_known (ready : table.Ready) (member : c ∈ table.toList) (name : String) :
    table.known.hasAttribute c.name name ↔ name ∈ (table.slots c).map (·.name) := by
  rw [ready.slots_eq member,LayoutKind.mem_attributes_plain,Hierarchy.hasAttribute,
    chain_known named ready.toLinked member]
  simp [ClassEntry.known]

theorem hasMethod_known (ready : table.Ready) (member : c ∈ table.toList) (method : String) :
    table.known.hasMethod c.name method ↔ method ∈ (table.entries c).map (·.method) := by
  rw [ready.entries_eq member,LayoutKind.mem_dispatch_plain,Hierarchy.hasMethod,
    chain_known named ready.toLinked member]
  simp only [List.any_map,List.any_eq_true,Function.comp_apply,List.contains_iff_mem,
    ClassEntry.known]

theorem conforms_known (linked : table.Linked) {d : ClassEntry} (memberC : c ∈ table.toList)
    (memberD : d ∈ table.toList) :
    table.known.conforms d.name c.name ↔ table.isSubclassOf d c := by
  rw [Hierarchy.conforms,chain_known named linked memberD,isSubclassOf]
  simp only [List.any_map,List.any_eq_true,Function.comp_apply,decide_eq_true_eq]
  constructor
  · rintro ⟨k,inChain,same⟩
    have memberK := linked.mem_of_mem_chain memberD k inChain
    exact ⟨k,inChain,congrArg (·.tag) (linked.eq_of_name memberK memberC same)⟩
  · rintro ⟨k,inChain,same⟩
    have memberK := linked.mem_of_mem_chain memberD k inChain
    exact ⟨k,inChain,congrArg (·.name) (linked.eq_of_tag memberK memberC same)⟩

/-- Walking by name reaches the root only where walking by tag does. -/
theorem reachesRoot_known (sound : table.Sound)
    (member : c ∈ table.toList) (fuel : Nat) (reaches : table.known.reachesRoot fuel c.name) :
    (table.chainFrom fuel c.tag).any (·.parent.isNone) := by
  induction fuel generalizing c with
  | zero => exact absurd (of_decide_eq_true reaches) (named c member)
  | succ fuel ih =>
    simp only [Hierarchy.reachesRoot,named c member,find?_known,sound.find?_name member,
      decide_false,Bool.false_or,Option.map_some] at reaches
    rw [ClassTable.chainFrom,sound.at_tag member]
    cases parent : c.parent with
    | none => simp [parent]
    | some tag =>
      obtain ⟨-,d,at_tag,same⟩ := sound.parent (sound.at_tag member) parent
      have memberD := mem_toList.mpr ⟨tag,at_tag⟩
      have above := ih memberD (by rw [same]; exact reaches)
      rw [sound.tag at_tag] at above
      simp [parent,above]

end ClassTable

/-- Whether a name belongs to a class of the program or to a built-in one. -/
def Program.HasClass (p : Program) (name : String) : Prop :=
  Builtin.isBuiltin name ∨ ∃ c ∈ p.classes, c.name = name

theorem Program.defines_iff {p : Program} {name : String} :
    (Hierarchy.ofDecls p.classes).defines name ↔ p.HasClass name := by
  rw [Hierarchy.defines,Hierarchy.find?,List.find?_isSome,Hierarchy.ofDecls,HasClass,
    Builtin.isBuiltin,List.any_eq_true]
  simp only [List.mem_append,List.mem_map,decide_eq_true_eq]
  constructor
  · rintro ⟨_,⟨b,member,rfl⟩ | ⟨c,member,rfl⟩,same⟩
    · exact .inl ⟨b,member,same⟩
    · exact .inr ⟨c,member,same⟩
  · rintro (⟨b,member,same⟩ | ⟨c,member,same⟩)
    · exact ⟨_,.inl ⟨b,member,rfl⟩,same⟩
    · exact ⟨_,.inr ⟨c,member,rfl⟩,same⟩

theorem ClassTable.known_eq {table : ClassTable} {p : Program}
    (same : table.toList.map ClassEntry.bare = p.declared) :
    table.known = Hierarchy.ofDecls p.classes := by
  have entry (c : ClassDecl) (tag : Nat) :
      (ClassEntry.ofDecl c tag).known = KnownClass.ofDecl c := by
    simp [ClassEntry.known,ClassEntry.ofDecl,KnownClass.ofDecl]
  have declared : p.declared.map ClassEntry.known = Hierarchy.ofDecls p.classes := by
    rw [p.map_declared entry]
    rfl
  rw [← declared,← same,List.map_map]
  rfl

end CoolBackend
