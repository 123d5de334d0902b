import CoolBackend.Proofs.CaseSelection
import Mathlib.Data.List.Nodup

/-!
The verifier compares the type of a branch with the types of the branches before it. The tests of a
`case` compare a tag with all tags of one branch after the other. They agree on which branches are
idle: there is a warning about a branch exactly if the first test that matches leads to it for no
class at all.
-/
namespace CoolBackend

open Assembly Verify

namespace Verify

def branchReport (h : Hierarchy) (sc : Scope) (warnings : List Diagnostic)
    (branch : Binder × Expr) : List Diagnostic :=
  warnings ++ checkExpr h branch.2 (sc.bind branch.1.name)

/-- If all types are defined, the report about branches is what is said about each of them. -/
theorem checkBranches_eq_flatten {h : Hierarchy} {branches : List (Binder × Expr)}
    (defined : ∀ b ∈ branches, h.defines b.1.type) (earlier : List String) (sc : Scope) :
    checkBranches h earlier branches sc =
      (List.zipWith (branchReport h sc) (branchWarnings h earlier branches) branches).flatten := by
  induction branches generalizing earlier with
  | nil => rfl
  | cons branch rest ih =>
    obtain ⟨b,body⟩ := branch
    obtain ⟨here,later⟩ := List.forall_mem_cons.mp defined
    have type : checkType h b.span b.type = [] := by simp [checkType,here]
    simp [checkBranches,branchWarnings,branchReport,type,ih later]

/-- There is a warning about a branch exactly if its type conforms to an earlier one. -/
theorem checkBranch_ne_nil {h : Hierarchy} {earlier : List String} {b : Binder} :
    checkBranch h earlier b ≠ [] ↔ ∃ type ∈ earlier, h.conforms b.type type := by
  rw [ne_eq,checkBranch_eq_nil]
  simp

end Verify

namespace Arm

variable {table : ClassTable} {arms earlier later : List Arm} {a : Arm}

/-- Arms of classes in a table, each with a label of its own. -/
structure Separate (table : ClassTable) (arms : List Arm) : Prop where
  found : ∀ a ∈ arms, table.find? a.binder.type = some a.entry
  labels : (arms.map (·.head.label)).Nodup

theorem Separate.entry (separate : Separate table arms) (member : a ∈ arms) :
    a.entry ∈ table.toList ∧ a.entry.name = a.binder.type :=
  ClassTable.mem_of_find? (separate.found a member)

def target? (table : ClassTable) (arms : List Arm) (d : ClassEntry) : Option String :=
  (arms.find? (table.isSubclassOf d ·.entry)).map (·.head.label)

/-- An arm takes some class exactly if it takes its own, which it does if no earlier arm does. -/
theorem Separate.idle_iff (separate : Separate table (earlier ++ a :: later))
    (linked : table.Linked) :
    (∃ e ∈ earlier, table.isSubclassOf a.entry e.entry) ↔
      ∀ d ∈ table.toList, target? table (earlier ++ a :: later) d ≠ some a.head.label := by
  have memberA : a ∈ earlier ++ a :: later := by simp
  have entryA := (separate.entry memberA).1
  constructor
  · rintro ⟨e,before,above⟩ d memberD taken
    obtain ⟨first,found,same⟩ := Option.map_eq_some_iff.mp taken
    cases List.inj_on_of_nodup_map separate.labels (List.mem_of_find?_eq_some found) memberA same
    have distinct := separate.labels
    rw [List.map_append,List.map_cons,List.nodup_append] at distinct
    cases missed : earlier.find? (table.isSubclassOf d ·.entry) with
    | some other =>
      rw [List.find?_append,missed,Option.some_or] at found
      cases found
      have here := List.mem_map_of_mem (f := (·.head.label)) (List.mem_of_find?_eq_some missed)
      exact absurd rfl (distinct.2.2 _ here _ List.mem_cons_self)
    | none =>
      -- Whatever conforms to the class of the arm conforms to that of the earlier one.
      have entryE := (separate.entry (List.mem_append_left _ before)).1
      have takes : table.isSubclassOf d a.entry := by simpa using List.find?_some found
      have sub := linked.isSubclassOf_trans entryE entryA memberD takes above
      exact List.find?_eq_none.mp missed e before sub
  · intro idle
    by_contra apart
    apply idle a.entry entryA
    have missed : earlier.find? (table.isSubclassOf a.entry ·.entry) = none := by
      rw [List.find?_eq_none]
      intro e before above
      exact apart ⟨e,before,above⟩
    have self := (linked.mem_chain_iff entryA entryA).mp (linked.mem_chain_self entryA)
    simp [target?,List.find?_append,missed,self]

/-- For each arm behind the earlier ones: there is a warning exactly if no class is sent to it. -/
theorem Separate.warnings (linked : table.Linked) {h : Hierarchy}
    (conforms : ∀ c ∈ table.toList, ∀ d ∈ table.toList,
      h.conforms d.name c.name ↔ table.isSubclassOf d c)
    (separate : Separate table (earlier ++ arms)) :
    List.Forall₂ (fun a warnings => warnings ≠ [] ↔
      ∀ d ∈ table.toList, target? table (earlier ++ arms) d ≠ some a.head.label)
      arms (branchWarnings h (earlier.map (·.binder.type)) (arms.map branch)) := by
  induction arms generalizing earlier with
  | nil => exact .nil
  | cons a rest ih =>
    have shifted : earlier ++ a :: rest = (earlier ++ [a]) ++ rest := by simp
    refine .cons ?_ ?_
    · rw [← separate.idle_iff linked,checkBranch_ne_nil]
      have entryA := separate.entry (List.mem_append_right earlier List.mem_cons_self)
      constructor
      · rintro ⟨type,among,above⟩
        obtain ⟨e,before,rfl⟩ := List.mem_map.mp among
        have entryE := separate.entry (List.mem_append_left _ before)
        refine ⟨e,before,?_⟩
        rwa [← conforms _ entryE.1 _ entryA.1,entryE.2,entryA.2]
      · rintro ⟨e,before,above⟩
        have entryE := separate.entry (List.mem_append_left _ before)
        refine ⟨e.binder.type,List.mem_map_of_mem before,?_⟩
        rwa [← conforms _ entryE.1 _ entryA.1,entryE.2,entryA.2] at above
    · rw [shifted] at separate ⊢
      have others := ih separate
      rwa [List.map_append] at others

/-- The first test that matches the tag of a class leads to the arm that takes the class. -/
theorem exit?_eq_jumps (linked : table.Linked) {d : ClassEntry} (memberD : d ∈ table.toList)
    (arms : List Arm) (after : List Line) (label : String) :
    exit? d.tag (Code.testSection (arms.map fun a => (a.head,a.code))
        (arms.flatMap (Arm.tests table)) ++ .instruction (.jal "_case_abort") :: after) =
      some (.jumps label) ↔ target? table arms d = some label := by
  rw [Code.exit?_testSection (Arm.bare table arms),linked.find?_tests memberD,target?,
    Option.map_map]
  cases arms.find? (table.isSubclassOf d ·.entry) with
  | none => simp [exit?]
  | some a => simp

/-- The labels of the arms stand in the lines of their `case`, in their order. -/
theorem labels_sublist (endLabel : String) (arms : List Arm) :
    (arms.map (·.head.label)).Sublist
      (labelsIn (Code.branchLines endLabel (arms.map fun a => (a.head,a.code)))) := by
  rw [labelsIn_branchLines,List.flatMap_map]
  induction arms with
  | nil => exact .slnil
  | cons a rest ih =>
    rw [List.map_cons,List.flatMap_cons,List.cons_append]
    exact (ih.trans (List.sublist_append_right _ _)).cons_cons _

end Arm

/-- In a laid out program, the verifier warns about a branch of a `case` exactly if there is no
class whose tag has the label of this branch as the target of the first test that matches it. -/
theorem branch_warnings_exact {p : Program} {options : Options} {s : Session}
    (run : Session.layout p { options } = .ok () s) (named : ∀ c ∈ p.classes, c.name ≠ "")
    {ctx : Context} {info : Info} {scrutinee : Expr} {branches : List (Binder × Expr)}
    {supply supply' : Supply} {code : Code} (classes : ctx.classes = s.classes)
    (lowered : (Expr.caseOf info scrutinee branches).lower ctx supply = .ok code supply') :
    ∃ (arms : List Arm) (before tests after : List Line) (endLabel : String),
      arms.map Arm.branch = branches ∧
      (∀ (i : Nat) (a : Arm), arms[i]? = some a →
        a.Lowered ctx i ∧ a.lines endLabel <:+: after) ∧
      code.toValue.render Spim.group = .ok (joined code.lines) ∧
      code.lines = before ++ .instruction (.lw .t2 0 .a0) ::
        (tests ++ .instruction (.jal "_case_abort") :: after) ∧
      (labelsIn code.lines).Nodup ∧
      (∀ line ∈ tests, line = .blank ∨ ∃ tag label, line = .instruction (.beqTag .t2 tag label)) ∧
      let h := Hierarchy.ofDecls (enroll p.classes []).2
      (∀ sc, checkBranches h [] branches sc =
        (List.zipWith (branchReport h sc) (branchWarnings h [] branches) branches).flatten) ∧
      List.Forall₂ (fun a warnings => warnings ≠ [] ↔ ∀ d ∈ s.classes.toList,
          exit? d.tag (tests ++ .instruction (.jal "_case_abort") :: after) ≠
            some (.jumps a.head.label))
        arms (branchWarnings h [] branches) := by
  obtain ⟨ready,same⟩ := Session.ready_of_layout run
  have known := Session.known_of_layout run
  have fresh := ((ownLabels ctx.classes).lowered _ lowered rfl).nodup
  obtain ⟨scrutineeCode,site,tests,bodies,_,v,-,-,loweredBranches,rfl⟩ := lower_case lowered
  obtain ⟨arms,rfl,each,rfl,rfl⟩ := lowerBranches_arms loweredBranches
  rw [classes] at fresh ⊢
  have separate : Arm.Separate s.classes arms := by
    refine ⟨fun a member => ?_,.sublist ?_ fresh⟩
    · obtain ⟨i,here⟩ := List.mem_iff_getElem?.mp member
      exact classes ▸ (each i a here).found
    refine (Arm.labels_sublist (v.newLabel "esac").1 arms).trans ?_
    rw [Code.lines_caseOf]
    simp only [labelsIn_append,labelsIn_instruction]
    exact ((List.sublist_append_left _ _).trans (List.sublist_append_right _ _)).trans
      (List.sublist_append_right _ _)
  refine ⟨arms,_,_,_,(v.newLabel "esac").1,rfl,?_,Code.render_toValue _,Code.lines_caseOf ..,fresh,
    ?_,?_,?_⟩
  · intro i a here
    refine ⟨each i a here,.trans ?_ (List.prefix_append ..).isInfix⟩
    rw [Code.branchLines_eq,List.map_map]
    exact List.infix_of_mem_flatten (List.mem_map_of_mem (List.mem_of_getElem? here))
  · intro line member
    by_cases solid : line = .blank
    · exact .inl solid
    · obtain ⟨test,-,same⟩ := (Code.mem_testSection (Arm.bare s.classes arms) solid).mp member
      exact .inr ⟨test.1,test.2,same⟩
  · refine fun sc => checkBranches_eq_flatten (List.forall_mem_map.mpr fun a member => ?_) [] sc
    rw [← known,ClassTable.defines_known]
    exact Option.isSome_of_eq_some (separate.found a member)
  · have entries := ClassTable.named_of_known (ClassTable.known_eq same) named
    have whole : Arm.Separate s.classes ([] ++ arms) := separate
    have agreeing := whole.warnings ready.toLinked fun c memberC d memberD =>
      ClassTable.conforms_known entries ready.toLinked memberC memberD
    rw [known] at agreeing
    refine agreeing.imp fun a warnings agree => agree.trans (forall₂_congr fun d memberD => ?_)
    exact not_congr (Arm.exit?_eq_jumps ready.toLinked memberD arms _ a.head.label).symm

/-- `case self of a : A => 1; b : B => b; o : Other => o; esac`, in the classes of `narrowed`. -/
def widening : List (Binder × Expr) :=
  [({ name := "a", type := "A" },.constant {} (.int 1)),({ name := "b", type := "B" },
    .ident {} "b" .localVar),({ name := "o", type := "Other" },.ident {} "o" .localVar)]

def wideningCase : Expr := .caseOf {} (.ident {} selfName .unknown) widening

/-- All objects of `B` go to the branch of `A`: there is a warning about the second branch, and none
about the others, to which some objects go. -/
theorem widening_warned :
    ∃ s a code supply, Session.layout narrowed {} = .ok () s ∧ s.classes.find? "A" = some a ∧
      wideningCase.lower (.ofExpr s.classes a wideningCase) {} = .ok code supply ∧
      ∃ (first second third : Arm) (before tests after : List Line), code.lines = before ++
          .instruction (.lw .t2 0 .a0) :: (tests ++ .instruction (.jal "_case_abort") :: after) ∧
        [first,second,third].map Arm.branch = widening ∧
        (∃ d ∈ s.classes.toList, exit? d.tag (tests ++ .instruction (.jal "_case_abort") :: after) =
          some (.jumps first.head.label)) ∧
        (∀ d ∈ s.classes.toList, exit? d.tag (tests ++ .instruction (.jal "_case_abort") :: after) ≠
          some (.jumps second.head.label)) ∧
        ∃ d ∈ s.classes.toList, exit? d.tag (tests ++ .instruction (.jal "_case_abort") :: after) =
          some (.jumps third.head.label) := by
  let s := stateAfter (Session.layout narrowed {})
  have run : Session.layout narrowed {} = .ok () s :=
    eq_ok_of_succeeded (by decide +kernel : succeeded (Session.layout narrowed {}))
  obtain ⟨a,foundA⟩ := Option.isSome_iff_exists.mp
    (by decide +kernel : (s.classes.find? "A").isSome)
  obtain ⟨code,supply,lowered⟩ : ∃ code supply,
      wideningCase.lower (.ofExpr s.classes a wideningCase) {} = .ok code supply := by
    have all : (s.classes.find? "A").all fun a => succeeded
        (wideningCase.lower (.ofExpr s.classes a wideningCase) {}) := by decide +kernel
    exact exists_of_succeeded (by simpa [foundA] using all)
  have warned : branchWarnings (Hierarchy.ofDecls (enroll narrowed.classes []).2) [] widening =
      [[],[.on {} (.unreachable "B" "A")],[]] := by decide +kernel
  clear_value s
  obtain ⟨arms,before,tests,after,endLabel,branches,-,-,lines,-,-,-,agree⟩ :=
    branch_warnings_exact run (by decide) rfl lowered
  rw [warned] at agree
  cases agree with | cons first agree => ?_
  cases agree with | cons second agree => ?_
  cases agree with | cons third agree => ?_
  cases agree
  refine ⟨s,a,code,supply,run,foundA,lowered,_,_,_,before,tests,after,lines,branches,?_,
    second.mp (List.cons_ne_nil _ _),?_⟩
  · simpa using first
  · simpa using third

end CoolBackend
