import CoolBackend.Proofs.AttributeLayouts
import Mathlib.Data.Finset.Card

/-!
A class gives slots to the methods that its ancestors do not have, one for each declaration. So a
method has as many slots as it has declarations in the class that introduces it. That is one slot
unless that class declares the method again; declaring it again further down adds none.
-/
namespace CoolBackend

def introducer? (chain : List ClassEntry) (method : String) : Option ClassEntry :=
  chain.reverse.find? (·.methods.contains method)

/-- No class on a chain declares a method twice that it introduces. -/
def IntroducedOnce (chain : List ClassEntry) : Prop :=
  ∀ method k, introducer? chain method = some k → k.methods.count method ≤ 1

theorem introducer?_cons (c : ClassEntry) (chain : List ClassEntry) (method : String) :
    introducer? (c :: chain) method =
      (introducer? chain method).or (if c.methods.contains method then some c else none) := by
  rw [introducer?,List.reverse_cons,List.find?_append,List.find?_singleton]
  rfl

theorem introducer?_eq_none {chain : List ClassEntry} {method : String} :
    introducer? chain method = none ↔ ∀ k ∈ chain, method ∉ k.methods := by
  simp [introducer?]

namespace LayoutKind

/-- What a class adds to the slots of a method: one for each declaration, if the method is new. -/
theorem count_extendDispatch (c : ClassEntry) (inherited : List DispatchEntry) (method : String) :
    ((c.extendDispatch inherited).map (·.method)).count method =
      (inherited.map (·.method)).count method +
        if method ∈ inherited.map (·.method) then 0 else c.methods.count method := by
  rw [ClassEntry.map_extendDispatch,List.count_append]
  congr 1
  split
  next placed =>
    obtain ⟨e,here,rfl⟩ := List.mem_map.mp placed
    refine List.count_eq_zero_of_not_mem fun added => ?_
    have absent : ∀ x ∈ inherited, x.method ≠ e.method := by
      simpa using (List.mem_filter.mp added).2
    exact absent e here rfl
  next new => exact List.count_filter (by simpa using new)

theorem count_dispatch_plain (chain : List ClassEntry) (method : String) :
    ((dispatch.plain chain).map (·.method)).count method =
      (introducer? chain method).elim 0 (·.methods.count method) := by
  induction chain with
  | nil => rfl
  | cons c rest ih =>
    have step : dispatch.plain (c :: rest) = c.extendDispatch (dispatch.plain rest) := rfl
    rw [step,count_extendDispatch,ih,introducer?_cons]
    cases found : introducer? rest method with
    | some k =>
      have placed : method ∈ (dispatch.plain rest).map (·.method) := by
        refine mem_dispatch_plain.mpr ⟨k,?_,?_⟩
        · exact List.mem_reverse.mp (List.mem_of_find?_eq_some found)
        · simpa using List.find?_some found
      rw [if_pos placed]
      rfl
    | none =>
      have new : method ∉ (dispatch.plain rest).map (·.method) := fun placed => by
        obtain ⟨k,member,declared⟩ := mem_dispatch_plain.mp placed
        exact introducer?_eq_none.mp found k member declared
      rw [if_neg new]
      by_cases declared : c.methods.contains method
      · rw [if_pos declared]
        exact Nat.zero_add _
      · rw [if_neg declared]
        exact (Nat.zero_add _).trans (List.count_eq_zero.mpr (by simpa using declared))

theorem nodup_dispatch_iff (chain : List ClassEntry) :
    ((dispatch.plain chain).map (·.method)).Nodup ↔ IntroducedOnce chain := by
  rw [List.nodup_iff_count_le_one]
  simp only [count_dispatch_plain,IntroducedOnce]
  refine forall_congr' fun method => ?_
  cases introducer? chain method <;> simp

end LayoutKind

/-- A list with the names that are declared has as many as there are, unless it repeats one. -/
theorem length_eq_card_iff {names declared : List String}
    (same : ∀ name, name ∈ names ↔ name ∈ declared) :
    names.length = declared.toFinset.card ↔ names.Nodup := by
  have sets : declared.toFinset = names.toFinset := by
    ext name
    simp [same]
  rw [sets,eq_comm]
  exact Multiset.toFinset_card_eq_card_iff_nodup (m := (names : Multiset String))

/-- In a laid out program, a method has as many slots in a class as it has declarations where it is
introduced. A class has one slot for each method on its chain exactly if none of these classes
repeats a method that it introduces. Attributes always have one slot each. -/
theorem method_slots_counted {p : Program} {options : Options} {s : Session}
    (run : Session.layout p { options } = .ok () s) :
    ∀ c ∈ s.classes.toList,
      (∀ method, ((s.classes.entries c).map (·.method)).count method =
        (introducer? (s.classes.chain c) method).elim 0 (·.methods.count method)) ∧
      (((s.classes.entries c).map (·.method)).Nodup ↔ IntroducedOnce (s.classes.chain c)) ∧
      ((s.classes.entries c).length = ((s.classes.chain c).flatMap (·.methods)).toFinset.card ↔
        IntroducedOnce (s.classes.chain c)) ∧
      ((s.classes.slots c).map (·.name)).Nodup ∧
      (s.classes.slots c).length =
        ((s.classes.chain c).flatMap (·.attributes.map (·.name))).toFinset.card := by
  obtain ⟨ready,-⟩ := Session.ready_of_layout run
  intro c member
  have distinct := (ready.laidOut member).distinct
  rw [ready.entries_eq member,ready.slots_eq member] at *
  refine ⟨LayoutKind.count_dispatch_plain _,LayoutKind.nodup_dispatch_iff _,?_,distinct,?_⟩
  · refine Iff.trans ?_ (LayoutKind.nodup_dispatch_iff _)
    rw [← List.length_map (·.method)]
    refine length_eq_card_iff fun method => ?_
    rw [LayoutKind.mem_dispatch_plain,List.mem_flatMap]
  · rw [← List.length_map (·.name)]
    refine (length_eq_card_iff fun name => ?_).mpr distinct
    rw [LayoutKind.mem_attributes_plain,List.mem_flatMap]

/-- A class that introduces a method twice, one that inherits it and declares it again, and one that
declares an inherited method twice. -/
def repeating : Program where
  classes :=
    [ { name := "A"
        methods := [{ name := "f", formals := [], returnType := "Object", body := .new {} "A" },
          { name := "f", formals := [], returnType := "Object", body := .new {} "B" }] },
      { name := "B", parent := "A"
        methods := [{ name := "f", formals := [], returnType := "Object", body := .new {} "B" }] },
      { name := "C"
        methods := [{ name := "copy", formals := [], returnType := "C", body := .new {} "C" },
          { name := "copy", formals := [], returnType := "C", body := .new {} "C" }] } ]

theorem repeating_counted :
    ∃ s b c, Session.layout repeating {} = .ok () s ∧ s.classes.find? "B" = some b ∧
      s.classes.find? "C" = some c ∧ ¬IntroducedOnce (s.classes.chain b) ∧
      IntroducedOnce (s.classes.chain c) ∧
      (s.classes.entries c).length = ((s.classes.chain c).flatMap (·.methods)).toFinset.card := by
  have run := eq_ok_of_succeeded (by decide +kernel : succeeded (Session.layout repeating {}))
  let s := stateAfter (Session.layout repeating {})
  obtain ⟨b,foundB⟩ := Option.isSome_iff_exists.mp
    (by decide +kernel : (s.classes.find? "B").isSome)
  obtain ⟨c,foundC⟩ := Option.isSome_iff_exists.mp
    (by decide +kernel : (s.classes.find? "C").isSome)
  have repeats : ¬((s.classes.entries b).map (·.method)).Nodup := by
    have all : (s.classes.find? "B").all fun b =>
        ¬((s.classes.entries b).map (·.method)).Nodup := by decide +kernel
    simpa [foundB] using all
  have distinct : ((s.classes.entries c).map (·.method)).Nodup := by
    have all : (s.classes.find? "C").all fun c =>
        ((s.classes.entries c).map (·.method)).Nodup := by decide +kernel
    simpa [foundC] using all
  obtain ⟨-,onceB,-⟩ := method_slots_counted run b (ClassTable.mem_of_find? foundB).1
  obtain ⟨-,onceC,sized,-⟩ := method_slots_counted run c (ClassTable.mem_of_find? foundC).1
  have once := onceC.mp distinct
  exact ⟨s,b,c,run,foundB,foundC,fun once => repeats (onceB.mpr once),once,sized.mpr once⟩

/-- A dispatch table that has two slots for one method. -/
theorem repeating_two_slots :
    ∃ s a, Session.layout repeating {} = .ok () s ∧ s.classes.find? "A" = some a ∧
      (s.classes.entries a).map (·.method) = ["abort","type_name","copy","f","f"] ∧
      ¬((s.classes.entries a).map (·.method)).Nodup ∧
      (s.classes.entries a).length ≠ ((s.classes.chain a).flatMap (·.methods)).toFinset.card := by
  have run := eq_ok_of_succeeded (by decide +kernel : succeeded (Session.layout repeating {}))
  let s := stateAfter (Session.layout repeating {})
  obtain ⟨a,found⟩ := Option.isSome_iff_exists.mp
    (by decide +kernel : (s.classes.find? "A").isSome)
  have all : (s.classes.find? "A").all fun a =>
      (s.classes.entries a).map (·.method) = ["abort","type_name","copy","f","f"] ∧
      (s.classes.entries a).length ≠ ((s.classes.chain a).flatMap (·.methods)).toFinset.card := by
    decide +kernel
  simp only [found,Option.all_some,decide_eq_true_eq] at all
  obtain ⟨names,size⟩ := all
  exact ⟨s,a,run,found,names,names ▸ by decide,size⟩

end CoolBackend
