import CoolBackend.Proofs.VerifiedTables
import Mathlib.Order.Defs.Unbundled

/-!
The verifier answers each question by a walk over names; the class table answers from the layouts
that it keeps and by walks over tags. On a program that can be laid out and whose classes have
names, they give the same answers, and all these walks end. The order of the classes is that of the
suffixes of chains: a partial order below `Object` in which the ancestors of a class are a chain.
-/
namespace CoolBackend

open Verify

namespace ClassTable

def Below (table : ClassTable) (c d : { c // c ∈ table.toList }) : Prop :=
  table.isSubclassOf c.1 d.1

section Order

variable {table : ClassTable} (linked : table.Linked)

include linked

theorem Linked.below_iff (c d : { c // c ∈ table.toList }) :
    table.Below c d ↔ table.chain d.1 <:+ table.chain c.1 :=
  linked.isSubclassOf_iff d.2 c.2

/-- A chain starts with the class that it belongs to. -/
theorem Linked.head_chain {c : ClassEntry} (member : c ∈ table.toList) :
    (table.chain c).head? = some c := by
  rcases linked.parent_cases member with ⟨-,unset⟩ | ⟨d,-,-,parent,-⟩
  · rw [linked.chain_root member unset]
    rfl
  · rw [linked.chain_step member parent]
    rfl

theorem Linked.below_order : IsPartialOrder { c // c ∈ table.toList } table.Below where
  refl c := (linked.below_iff c c).mpr List.suffix_rfl
  trans c d e lower upper := linked.isSubclassOf_trans e.2 d.2 c.2 lower upper
  antisymm c d lower upper := by
    rw [linked.below_iff] at lower upper
    have same : table.chain d.1 = table.chain c.1 :=
      lower.eq_of_length_le upper.length_le
    have heads := linked.head_chain c.2
    rw [← same,linked.head_chain d.2] at heads
    exact Subtype.ext (Option.some.inj heads).symm

/-- The ancestors of a class are all above or below each other. -/
theorem Linked.ancestors_comparable {c d e : { c // c ∈ table.toList }}
    (first : table.Below c d) (second : table.Below c e) : table.Below d e ∨ table.Below e d := by
  rw [linked.below_iff] at first second
  rw [linked.below_iff,linked.below_iff]
  exact List.suffix_or_suffix_of_suffix second first

/-- From the class that is the only root all classes inherit. -/
theorem Linked.below_root {object : ClassEntry}
    (only : ∀ c ∈ table.toList, c.parentName = "" → c = object) :
    ∀ c ∈ table.toList, table.chain object <:+ table.chain c := by
  refine linked.induction (fun c memberC top _ => ?_) fun c memberC d _ parent _ _ above => ?_
  · obtain rfl := only c memberC top
    exact List.suffix_rfl
  · rw [linked.chain_step memberC parent]
    exact above.trans (List.suffix_cons ..)

end Order

section Answers

variable {table : ClassTable} {c : ClassEntry}

theorem attributeIndex?_isSome (table : ClassTable) (c : ClassEntry) (name : String) :
    (table.attributeIndex? c.tag name).1.isSome ↔ name ∈ (table.slots c).map (·.name) := by
  change ((table.slots c).findIdx? (·.name = name)).isSome ↔ _
  rw [List.findIdx?_isSome,List.any_eq_true]
  simp only [decide_eq_true_eq,List.mem_map]

theorem methodSlot?_isSome (table : ClassTable) (c : ClassEntry) (method : String) :
    (table.methodSlot? c.tag method).1.isSome ↔ method ∈ (table.entries c).map (·.method) := by
  change (slotIn? (table.entries c) method).isSome ↔ _
  rw [slotIn?,Option.isSome_map,List.find?_isSome]
  simp only [decide_eq_true_eq,List.mem_map]

/-- A walk by name that has come to the root sees no more classes with more steps. -/
theorem chainFrom_known_stable (named : ∀ c ∈ table.toList, c.name ≠ "") (linked : table.Linked)
    (member : c ∈ table.toList) {fuel : Nat} (enough : table.known.length ≤ fuel) :
    table.known.chainFrom fuel c.name = table.known.chain c.name := by
  rw [length_known] at enough
  rw [chainFrom_known named linked fuel member,chain_known named linked member,
    chainFrom_stable (linked.reaches c member) enough]
  rfl

end Answers

end ClassTable

/-- The only class without a parent's name is `Object`. -/
theorem root_is_object {p : Program} {table : ClassTable} (sound : table.Sound)
    (same : table.toList.map ClassEntry.bare = p.declared) :
    ∃ object ∈ table.toList, object.name = Builtin.objectName ∧
      ∀ c ∈ table.toList, c.parentName = "" → c = object := by
  have declared : (Hierarchy.ofDecls p.classes).defines Builtin.objectName := rfl
  rw [← ClassTable.known_eq same,ClassTable.defines_known] at declared
  obtain ⟨object,member,name⟩ := ClassTable.find?_isSome.mp declared
  refine ⟨object,member,name,fun c memberC top => sound.eq_of_name memberC member ?_⟩
  rcases entry_source same memberC with ⟨b,among,tag,made⟩ | ⟨d,-,tag,made⟩
  · have roots : ∀ b ∈ Builtin.all, b.parent = "" → b.name = Builtin.objectName := by decide
    have parent : c.parentName = b.parent := congrArg (·.parentName) made
    have own : c.name = b.name := congrArg (·.name) made
    rw [own,roots b among (parent.symm.trans top),name]
  · have parent : c.parentName = d.parentName := congrArg (·.parentName) made
    exact absurd (parent.symm.trans top) d.parentName_ne

/-- In a program that can be laid out, and whose classes have names, the verifier finds an attribute
or a method of a class exactly if the layout of the class has it, and one class conforms to another
exactly if the table says so. The walks of both end. The classes are partially ordered below
`Object`, and the ancestors of a class are totally ordered. -/
theorem lookups_agree {p : Program} {options : Options} {s : Session}
    (run : Session.layout p { options } = .ok () s) (named : ∀ c ∈ p.classes, c.name ≠ "") :
    let known := Hierarchy.ofDecls (enroll p.classes []).2
    (∀ c ∈ s.classes.toList, ∀ name,
      (known.hasAttribute c.name name ↔ (s.classes.attributeIndex? c.tag name).1.isSome) ∧
      (known.hasMethod c.name name ↔ (s.classes.methodSlot? c.tag name).1.isSome)) ∧
    (∀ c ∈ s.classes.toList, ∀ d ∈ s.classes.toList,
      known.conforms c.name d.name ↔ s.classes.isSubclassOf c d) ∧
    (∀ c ∈ s.classes.toList, ∀ fuel,
      (known.length ≤ fuel → known.chainFrom fuel c.name = known.chain c.name) ∧
      (s.classes.size ≤ fuel → s.classes.chainFrom fuel c.tag = s.classes.chain c)) ∧
    IsPartialOrder { c // c ∈ s.classes.toList } s.classes.Below ∧
    (∃ object, object.1.name = Builtin.objectName ∧ ∀ c, s.classes.Below c object) ∧
    ∀ c d e, s.classes.Below c d → s.classes.Below c e →
      s.classes.Below d e ∨ s.classes.Below e d := by
  obtain ⟨ready,same⟩ := Session.ready_of_layout run
  have linked := ready.toLinked
  have names : ∀ c ∈ s.classes.toList, c.name ≠ "" :=
    ClassTable.named_of_known (ClassTable.known_eq same) named
  rw [← Session.known_of_layout run]
  refine ⟨fun c member name => ⟨?_,?_⟩,fun c memberC d memberD => ?_,fun c member fuel => ?_,
    linked.below_order,?_,fun c d e => linked.ancestors_comparable⟩
  · rw [ClassTable.attributeIndex?_isSome]
    exact ClassTable.hasAttribute_known names ready member name
  · rw [ClassTable.methodSlot?_isSome]
    exact ClassTable.hasMethod_known names ready member name
  · exact ClassTable.conforms_known names linked memberD memberC
  · exact ⟨ClassTable.chainFrom_known_stable names linked member,
      ClassTable.chainFrom_stable (linked.reaches c member)⟩
  · obtain ⟨object,member,name,only⟩ := root_is_object linked.toSound same
    refine ⟨⟨object,member⟩,name,fun c => ?_⟩
    rw [linked.below_iff]
    exact linked.below_root only c.1 c.2

/-- A class that stands before its parent and declares again what it inherits. -/
def doubling : Program where
  classes :=
    [ { name := "Leaf", parent := "Stem"
        attributes := [({ name := "x", type := "Bool" },.absent)]
        methods := [{ name := "f", formals := [], returnType := "Leaf", body := .new {} "Leaf" }] },
      { name := "Stem"
        attributes := [({ name := "x", type := "Int" },.absent)]
        methods := [{ name := "f", formals := [], returnType := "Stem", body := .new {} "Stem" },
          { name := "f", formals := [], returnType := "Leaf", body := .new {} "Leaf" }] } ]

theorem doubling_lookups :
    ∃ s c d, Session.layout doubling {} = .ok () s ∧ s.classes.find? "Leaf" = some c ∧
      s.classes.find? "Stem" = some d ∧ (s.classes.attributeIndex? c.tag "x").1.isSome ∧
      (s.classes.methodSlot? c.tag "f").1.isSome ∧ ¬(s.classes.methodSlot? c.tag "g").1.isSome ∧
      s.classes.isSubclassOf c d ∧ ¬s.classes.isSubclassOf d c ∧
      IsPartialOrder { c // c ∈ s.classes.toList } s.classes.Below := by
  have run := eq_ok_of_succeeded (by decide +kernel : succeeded (Session.layout doubling {}))
  let s := stateAfter (Session.layout doubling {})
  obtain ⟨c,foundC⟩ := Option.isSome_iff_exists.mp
    (by decide +kernel : (s.classes.find? "Leaf").isSome)
  obtain ⟨d,foundD⟩ := Option.isSome_iff_exists.mp
    (by decide +kernel : (s.classes.find? "Stem").isSome)
  obtain ⟨memberC,nameC⟩ := ClassTable.mem_of_find? foundC
  obtain ⟨memberD,nameD⟩ := ClassTable.mem_of_find? foundD
  obtain ⟨features,conforms,-,ordered,-⟩ := lookups_agree run (by decide)
  have own := features c memberC
  have up := conforms c memberC d memberD
  have down := conforms d memberD c memberC
  rw [nameC] at own up down
  rw [nameD] at up down
  -- The answers of the verifier, which does not look at the table.
  refine ⟨s,c,d,run,foundC,foundD,(own "x").1.mp ?_,(own "f").2.mp ?_,mt (own "g").2.mpr ?_,
    up.mp ?_,mt down.mpr ?_,ordered⟩
  all_goals decide +kernel

end CoolBackend
