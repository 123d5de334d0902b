import CoolBackend.Proofs.FreshLabels
import CoolBackend.Proofs.ListingText
import CoolBackend.Proofs.PlannedDepths
import CoolBackend.Proofs.VerifiedTables

/-!
The tests of a `case` compare the tag of an object with the tags of all classes that conform to the
type of a branch, one branch after the other. The first that matches need not belong to the branch
of the nearest type; if no branch stands behind one that takes all its objects, it does.
-/
namespace CoolBackend

open Assembly Verify

namespace Verify

/-- What the verifier says about the place of each branch among the others, branch by branch. -/
def branchWarnings (h : Hierarchy) (earlier : List String) :
    List (Binder × Expr) → List (List Diagnostic)
  | [] => []
  | (b,_) :: rest => checkBranch h earlier b :: branchWarnings h (earlier ++ [b.type]) rest

def partReport (h : Hierarchy) (sc : Scope) (branch : Binder × Expr) : List Diagnostic :=
  checkType h branch.1.span branch.1.type ++ checkExpr h branch.2 (sc.bind branch.1.name)

theorem checkBranches_perm (h : Hierarchy) (earlier : List String)
    (branches : List (Binder × Expr)) (sc : Scope) :
    (checkBranches h earlier branches sc).Perm
      ((branchWarnings h earlier branches).flatten ++ branches.flatMap (partReport h sc)) := by
  induction branches generalizing earlier with
  | nil => exact .refl _
  | cons branch rest ih =>
    obtain ⟨b,body⟩ := branch
    refine List.perm_iff_count.mpr fun d => ?_
    have others := (List.perm_iff_count.mp (ih (earlier ++ [b.type]))) d
    simp only [checkBranches,branchWarnings,partReport,List.flatten_cons,List.flatMap_cons,
      List.count_append] at others ⊢
    omega

/-- If the report is about types and bodies only, it has no warning about a place. -/
theorem branchWarnings_of_perm {h : Hierarchy} {earlier : List String}
    {branches : List (Binder × Expr)} {sc : Scope}
    (quiet : (checkBranches h earlier branches sc).Perm (branches.flatMap (partReport h sc))) :
    (branchWarnings h earlier branches).flatten = [] := by
  have lengths := ((checkBranches_perm h earlier branches sc).symm.trans quiet).length_eq
  rw [List.length_append] at lengths
  apply List.eq_nil_of_length_eq_zero
  omega

theorem checkBranch_eq_nil {h : Hierarchy} {earlier : List String} {b : Binder} :
    checkBranch h earlier b = [] ↔ ∀ type ∈ earlier, h.conforms b.type type = false := by
  unfold checkBranch
  split
  next type found =>
    constructor
    · intro none
      cases none
    · intro all
      have conforms := List.find?_some found
      rw [all type (List.mem_of_find?_eq_some found)] at conforms
      cases conforms
  next none => simpa using none

/-- There is no warning if no type conforms to an earlier one. -/
theorem pairwise_of_branchWarnings {h : Hierarchy} {earlier : List String}
    {branches : List (Binder × Expr)} (quiet : (branchWarnings h earlier branches).flatten = []) :
    (∀ b ∈ branches, ∀ type ∈ earlier, h.conforms b.1.type type = false) ∧
      branches.Pairwise fun b later => h.conforms later.1.type b.1.type = false := by
  induction branches generalizing earlier with
  | nil => exact ⟨List.forall_mem_nil _,.nil⟩
  | cons branch rest ih =>
    obtain ⟨b,body⟩ := branch
    obtain ⟨first,others⟩ := List.append_eq_nil_iff.mp quiet
    obtain ⟨apart,pairwise⟩ := ih others
    refine ⟨List.forall_mem_cons.mpr ⟨checkBranch_eq_nil.mp first,?_⟩,
      List.pairwise_cons.mpr ⟨?_,pairwise⟩⟩
    · intro later member type here
      exact apart later member type (List.mem_append_left _ here)
    · intro later member
      exact apart later member b.type (List.mem_append_right _ List.mem_cons_self)

end Verify

namespace ClassTable

variable {table : ClassTable} {d : ClassEntry}

/-- The nearest class, from a class upward, whose name is one of the given types. -/
def closest? (table : ClassTable) (d : ClassEntry) (types : List String) : Option ClassEntry :=
  (table.chain d).find? (types.contains ·.name)

theorem closest?_eq_none {types : List String} :
    table.closest? d types = none ↔ ∀ k ∈ table.chain d, k.name ∉ types := by
  simp [closest?]

namespace Linked

/-- What stands behind a class on a chain is the chain of that class. -/
theorem chain_of_suffix (linked : table.Linked) (member : d ∈ table.toList) :
    ∀ k rest, k :: rest <:+ table.chain d → table.chain k = k :: rest := by
  refine linked.induction (P := fun d => ∀ k rest, k :: rest <:+ table.chain d →
    table.chain k = k :: rest) ?_ ?_ d member
  · rintro d member - root k rest suffix
    have top := linked.chain_root member root
    rw [top,List.suffix_cons_iff] at suffix
    rcases suffix with same | none
    · cases same
      exact top
    · cases List.suffix_nil.mp none
  · rintro d member e - parent - - ih k rest suffix
    have step := linked.chain_step member parent
    rw [step,List.suffix_cons_iff] at suffix
    rcases suffix with same | above
    · cases same
      exact step
    · exact ih k rest above

theorem mem_chain_iff (linked : table.Linked) {c : ClassEntry} (memberC : c ∈ table.toList)
    (memberD : d ∈ table.toList) : c ∈ table.chain d ↔ table.isSubclassOf d c := by
  rw [isSubclassOf,List.any_eq_true]
  constructor
  · intro here
    exact ⟨c,here,decide_eq_true rfl⟩
  · rintro ⟨k,here,same⟩
    have memberK := linked.mem_of_mem_chain memberD k here
    cases linked.eq_of_tag memberK memberC (of_decide_eq_true same)
    exact here

theorem mem_conformingTags (linked : table.Linked) {c : ClassEntry} (memberD : d ∈ table.toList) :
    d.tag ∈ table.conformingTags c ↔ table.isSubclassOf d c := by
  rw [conformingTags,List.mem_map]
  constructor
  · rintro ⟨k,here,same⟩
    obtain ⟨memberK,sub⟩ := List.mem_filter.mp here
    cases linked.eq_of_tag memberK memberD same
    exact sub
  · intro sub
    exact ⟨d,List.mem_filter.mpr ⟨memberD,sub⟩,rfl⟩

section Closest

variable (linked : table.Linked) {cs : List ClassEntry} (members : ∀ c ∈ cs, c ∈ table.toList)
  (memberD : d ∈ table.toList)
include linked members memberD

theorem contains_name {k : ClassEntry} (here : k ∈ table.chain d) :
    (cs.map (·.name)).contains k.name ↔ k ∈ cs := by
  rw [List.contains_iff_mem,List.mem_map]
  constructor
  · rintro ⟨c,member,same⟩
    rw [← linked.eq_of_name (members c member) (linked.mem_of_mem_chain memberD k here) same]
    exact member
  · intro member
    exact ⟨k,member,rfl⟩

/-- All ancestors among the given classes are ancestors of the nearest one. -/
theorem closest?_spec {k : ClassEntry} (found : table.closest? d (cs.map (·.name)) = some k) :
    k ∈ cs ∧ table.isSubclassOf d k ∧
      ∀ c ∈ cs, table.isSubclassOf d c → table.isSubclassOf k c := by
  obtain ⟨named,front,rest,split,skipped⟩ := List.find?_eq_some_iff_append.mp found
  have behind := linked.chain_of_suffix memberD k rest ⟨front,split.symm⟩
  have above : k ∈ table.chain d := split ▸ List.mem_append_right _ List.mem_cons_self
  have among := (linked.contains_name members memberD above).mp named
  refine ⟨among,(linked.mem_chain_iff (members k among) memberD).mp above,?_⟩
  intro c member sub
  have aboveC := (linked.mem_chain_iff (members c member) memberD).mpr sub
  have listed := (linked.contains_name members memberD aboveC).mpr member
  rw [← linked.mem_chain_iff (members c member) (members k among),behind]
  rw [split] at aboveC
  rcases List.mem_append.mp aboveC with early | late
  · have free := skipped c early
    rw [listed] at free
    cases free
  · exact late

/-- Among classes of which none inherits from an earlier one, the first ancestor is the nearest. -/
theorem find?_eq_closest (apart : cs.Pairwise fun c later => table.isSubclassOf later c = false) :
    cs.find? (table.isSubclassOf d ·) = table.closest? d (cs.map (·.name)) := by
  cases found : table.closest? d (cs.map (·.name)) with
  | none =>
    rw [List.find?_eq_none]
    intro c member sub
    have here := (linked.mem_chain_iff (members c member) memberD).mpr sub
    exact List.find?_eq_none.mp found c here
      ((linked.contains_name members memberD here).mpr member)
  | some k =>
    obtain ⟨among,subK,nearest⟩ := linked.closest?_spec members memberD found
    obtain ⟨c,first⟩ := Option.isSome_iff_exists.mp (List.find?_isSome.mpr ⟨k,among,subK⟩)
    obtain ⟨subC,before,after,order,missed⟩ := List.find?_eq_some_iff_append.mp first
    rw [first]
    by_cases same : c = k
    · rw [same]
    · -- `c` comes first in `cs`, so `k` does not inherit from it; but the nearest ancestor does.
      have later : k ∈ after := by
        rw [order] at among
        rcases List.mem_append.mp among with early | late
        · exact absurd subK (by simpa using missed k early)
        · exact (List.mem_cons.mp late).resolve_left (Ne.symm same)
      have inherits := nearest c (List.mem_of_find?_eq_some first) subC
      rw [order,List.pairwise_append] at apart
      rw [(List.pairwise_cons.mp apart.2.1).1 k later] at inherits
      cases inherits

end Closest

end Linked

end ClassTable

namespace Assembly

/-- A place that control goes to. -/
inductive Exit where
  | jumps (label : String)
  | calls (routine : String)

/-- Where control leaves the tests on the tag in `$t2`: at the first that matches, or behind all of
them. -/
def exit? (tag : Nat) : List Line → Option Exit
  | .blank :: rest => exit? tag rest
  | .instruction (.beqTag .t2 other label) :: rest =>
    if other = tag then some (.jumps label) else exit? tag rest
  | .instruction (.jal routine) :: _ => some (.calls routine)
  | _ => none

theorem exit?_tests (tag : Nat) (tests : List (Nat × String)) (rest : List Line) :
    exit? tag (Code.testLines tests ++ rest) =
      ((tests.find? (·.1 = tag)).map fun test => .jumps test.2).or (exit? tag rest) := by
  induction tests with
  | nil => rfl
  | cons test tests ih =>
    obtain ⟨other,label⟩ := test
    change (if other = tag then some (.jumps label)
      else exit? tag (Code.testLines tests ++ rest)) = _
    by_cases same : other = tag
    · simp [same]
    · simp [same,ih]

end Assembly

namespace Code

def testSection (bodies : List (BranchHead × Code)) (tests : List (Nat × String)) : List Line :=
  if bodies.isEmpty then [] else block (testLines tests)

theorem lines_caseOf (scrutinee : Code) (site : Site) (tests : List (Nat × String))
    (bodies : List (BranchHead × Code)) (endLabel : String) :
    (caseOf scrutinee site tests bodies endLabel).lines =
      (block scrutinee.lines ++ checkVoid site "_case_abort2") ++ .instruction (.lw .t2 0 .a0) ::
        (testSection bodies tests ++ .instruction (.jal "_case_abort") ::
          (branchLines endLabel bodies ++ [.label endLabel])) := by
  simp [lines,testSection,code]

theorem exit?_testSection {bodies : List (BranchHead × Code)} {tests : List (Nat × String)}
    (bare : bodies = [] → tests = []) (tag : Nat) (rest : List Line) :
    exit? tag (testSection bodies tests ++ rest) =
      ((tests.find? (·.1 = tag)).map fun test => .jumps test.2).or (exit? tag rest) := by
  rw [← exit?_tests]
  cases bodies with
  | nil =>
    rw [bare rfl]
    rfl
  | cons =>
    -- Room for tests that turn out to be none is a blank line.
    cases tests with
    | nil => rfl
    | cons => rfl

theorem mem_testSection {bodies : List (BranchHead × Code)} {tests : List (Nat × String)}
    (bare : bodies = [] → tests = []) {line : Line} (solid : line ≠ .blank) :
    line ∈ testSection bodies tests ↔
      ∃ test ∈ tests, line = .instruction (.beqTag .t2 test.1 test.2) := by
  cases bodies with
  | nil =>
    rw [bare rfl]
    simp [testSection]
  | cons =>
    cases tests with
    | nil => simp [testSection,testLines,block,code,solid]
    | cons => simp [testSection,testLines,block,code,eq_comm]

end Code

structure Arm where
  binder : Binder
  body : Expr
  entry : ClassEntry
  head : BranchHead
  code : Code

namespace Arm

def branch (a : Arm) : Binder × Expr := (a.binder,a.body)

def lines (endLabel : String) (a : Arm) : List Line := Code.branchListing endLabel (a.head,a.code)

def tests (table : ClassTable) (a : Arm) : List (Nat × String) :=
  (table.conformingTags a.entry).map (·,a.head.label)

structure Lowered (ctx : Context) (i : Nat) (a : Arm) : Prop where
  found : ctx.classes.find? a.binder.type = some a.entry
  lowered : ∃ depth s t, ctx.planned ⟨[],i⟩ = some depth ∧ a.head.slot = Location.ofDepth depth ∧
    a.body.lower ((ctx.bind a.binder.name depth).part (i + 1)) s = .ok a.code t

end Arm

/-- The tests and the bodies of branches, arm by arm. -/
theorem lowerBranches_arms {branches : List (Binder × Expr)} {i : Nat} {ctx : Context}
    {s t : Supply} {tests : List (Nat × String)} {bodies : List (BranchHead × Code)}
    (run : lowerBranches branches i ctx s = .ok (tests,bodies) t) :
    ∃ arms : List Arm, arms.map Arm.branch = branches ∧
      (∀ (j : Nat) (a : Arm), arms[j]? = some a → a.Lowered ctx (j + i)) ∧
      tests = arms.flatMap (Arm.tests ctx.classes) ∧
      bodies = arms.map fun a => (a.head,a.code) := by
  induction branches generalizing i s tests bodies with
  | nil =>
    cases run
    exact ⟨[],rfl,nofun,rfl,rfl⟩
  | cons branch rest ih =>
    obtain ⟨b,body⟩ := branch
    obtain ⟨c,depth,bodyCode,otherTests,others,u,found,planned,lowered,loweredRest,rfl,rfl⟩ :=
      lowerBranches_cons run
    obtain ⟨arms,rfl,each,rfl,rfl⟩ := ih loweredRest
    let arm : Arm := ⟨b,body,c,⟨(s.newLabel "branch").1,Location.ofDepth depth⟩,bodyCode⟩
    refine ⟨arm :: arms,rfl,fun j a here => ?_,rfl,rfl⟩
    cases j with
    | zero =>
      cases here
      rw [Nat.zero_add]
      exact ⟨ClassTable.require_eq_ok.mp found,depth,_,_,planned,rfl,lowered⟩
    | succ j =>
      rw [Nat.succ_add_eq_add_succ]
      exact each j a here

namespace ClassTable.Linked

variable {table : ClassTable} {d : ClassEntry}

theorem find?_conformingTags (linked : table.Linked) {c : ClassEntry} (memberD : d ∈ table.toList) :
    (table.conformingTags c).find? (· = d.tag) =
      if table.isSubclassOf d c then some d.tag else none := by
  cases found : (table.conformingTags c).find? (· = d.tag) with
  | none =>
    have absent := List.find?_eq_none.mp found d.tag
    rw [linked.mem_conformingTags memberD] at absent
    simp_all
  | some tag =>
    have same : tag = d.tag := by simpa using List.find?_some found
    have here := List.mem_of_find?_eq_some found
    rw [same,linked.mem_conformingTags memberD] at here
    rw [if_pos here,same]

/-- The first test that matches belongs to the first arm whose class is an ancestor. -/
theorem find?_tests (linked : table.Linked) (memberD : d ∈ table.toList) (arms : List Arm) :
    (arms.flatMap (Arm.tests table)).find? (·.1 = d.tag) =
      (arms.find? (table.isSubclassOf d ·.entry)).map fun a => (d.tag,a.head.label) := by
  induction arms with
  | nil => rfl
  | cons a arms ih =>
    have own : (a.tests table).find? (·.1 = d.tag) =
        if table.isSubclassOf d a.entry then some (d.tag,a.head.label) else none := by
      rw [Arm.tests,List.find?_map]
      change ((table.conformingTags a.entry).find? (· = d.tag)).map _ = _
      rw [linked.find?_conformingTags memberD]
      split
      next => rfl
      next => rfl
    rw [List.flatMap_cons,List.find?_append,ih,own]
    by_cases sub : table.isSubclassOf d a.entry
    · simp [sub]
    · simp [sub]

end ClassTable.Linked

namespace Arm

variable {table : ClassTable} {d : ClassEntry} {arms : List Arm}

theorem bare (table : ClassTable) (arms : List Arm)
    (none : (arms.map fun a => (a.head,a.code)) = []) : arms.flatMap (tests table) = [] := by
  rw [List.map_eq_nil_iff.mp none]
  rfl

/-- Arms whose classes are in a table, and of which none takes only what an earlier one takes. -/
structure Ordered (table : ClassTable) (arms : List Arm) : Prop where
  found : ∀ a ∈ arms, table.find? a.binder.type = some a.entry
  apart : arms.Pairwise fun a later => table.isSubclassOf later.entry a.entry = false

theorem Ordered.types (ordered : Ordered table arms) :
    arms.map (·.binder.type) = (arms.map (·.entry)).map (·.name) := by
  rw [List.map_map]
  refine List.map_congr_left fun a member => ?_
  exact (ClassTable.mem_of_find? (ordered.found a member)).2.symm

theorem Ordered.members (ordered : Ordered table arms) :
    ∀ c ∈ arms.map (·.entry), c ∈ table.toList := by
  intro c member
  obtain ⟨a,here,rfl⟩ := List.mem_map.mp member
  exact (ClassTable.mem_of_find? (ordered.found a here)).1

/-- The first arm that takes a class is that of its nearest ancestor. -/
theorem Ordered.first (ordered : Ordered table arms) (linked : table.Linked)
    (memberD : d ∈ table.toList) :
    (arms.find? (table.isSubclassOf d ·.entry)).map (·.entry) =
      table.closest? d (arms.map (·.binder.type)) := by
  rw [ordered.types,← linked.find?_eq_closest ordered.members memberD
    (List.pairwise_map.mpr ordered.apart),List.find?_map]
  rfl

theorem Ordered.nodup (ordered : Ordered table arms) (linked : table.Linked) :
    (arms.map (·.binder.type)).Nodup := by
  rw [List.Nodup,List.pairwise_map]
  refine ordered.apart.imp_of_mem fun {a later} memberA memberLater apart same => ?_
  have foundA := ordered.found a memberA
  rw [same,ordered.found later memberLater] at foundA
  have member := (ClassTable.mem_of_find? (ordered.found later memberLater)).1
  rw [← Option.some.inj foundA] at apart
  have self := (linked.mem_chain_iff member member).mp (linked.mem_chain_self member)
  rw [apart] at self
  cases self

end Arm

/-- What the tests of a `case`, and the lines behind them, do with the objects of a class. -/
structure TakesNearest (table : ClassTable) (arms : List Arm) (tests behind : List Line)
    (d : ClassEntry) : Prop where
  /-- The first test that matches leads to the arm of the nearest ancestor among their types. -/
  nearest : ∀ k, table.closest? d (arms.map (·.binder.type)) = some k →
    ∃ a ∈ arms, a.binder.type = k.name ∧ exit? d.tag (tests ++ behind) = some (.jumps a.head.label)
  /-- No test matches if and only if no type is the class or an ancestor. -/
  unmatched : (∀ label, .instruction (.beqTag .t2 d.tag label) ∉ tests) ↔
    ∀ k ∈ table.chain d, k.name ∉ arms.map (·.binder.type)
  aborts : (∀ k ∈ table.chain d, k.name ∉ arms.map (·.binder.type)) →
    exit? d.tag (tests ++ behind) = some (.calls "_case_abort")

theorem Arm.Ordered.takesNearest {table : ClassTable} {arms : List Arm} {d : ClassEntry}
    (ordered : Arm.Ordered table arms) (linked : table.Linked) (memberD : d ∈ table.toList)
    (after : List Line) :
    TakesNearest table arms (Code.testSection (arms.map fun a => (a.head,a.code))
      (arms.flatMap (Arm.tests table))) (.instruction (.jal "_case_abort") :: after) d := by
  have bare := Arm.bare table arms
  have exits := Code.exit?_testSection bare d.tag (.instruction (.jal "_case_abort") :: after)
  have first := ordered.first linked memberD
  rw [linked.find?_tests memberD,Option.map_map] at exits
  refine ⟨?_,?_,?_⟩
  · intro k closest
    rw [← first] at closest
    obtain ⟨a,found,rfl⟩ := Option.map_eq_some_iff.mp closest
    have member := List.mem_of_find?_eq_some found
    refine ⟨a,member,(ClassTable.mem_of_find? (ordered.found a member)).2.symm,?_⟩
    rw [exits,found]
    rfl
  · have none : table.closest? d (arms.map (·.binder.type)) = none ↔
        (arms.flatMap (Arm.tests table)).find? (·.1 = d.tag) = none := by
      rw [← first,linked.find?_tests memberD,Option.map_eq_none_iff,Option.map_eq_none_iff]
    rw [← ClassTable.closest?_eq_none,none,List.find?_eq_none]
    constructor
    · intro unmatched test here same
      refine unmatched test.2 ((Code.mem_testSection bare (by simp)).mpr ⟨test,here,?_⟩)
      rw [of_decide_eq_true same]
    · intro unmatched label here
      obtain ⟨test,member,same⟩ := (Code.mem_testSection bare (by simp)).mp here
      obtain ⟨-,tag,-⟩ := Instruction.beqTag.inj (Line.instruction.inj same)
      exact unmatched test member (decide_eq_true tag.symm)
  · intro free
    rw [← ClassTable.closest?_eq_none,← first,Option.map_eq_none_iff] at free
    rw [exits,free]
    rfl

/-- In a laid out program, a `case` about whose branches the verifier says nothing but what is wrong
with their types and bodies goes to the branch whose type is the nearest ancestor of the class of
the object, and to none exactly if there is no such type. -/
theorem case_takes_nearest_branch {p : Program} {options : Options} {s : Session}
    (run : Session.layout p { options } = .ok () s) (named : ∀ c ∈ p.classes, c.name ≠ "")
    {ctx : Context} {info : Info} {scrutinee : Expr} {branches : List (Binder × Expr)}
    {supply supply' : Supply} {code : Code} (classes : ctx.classes = s.classes)
    (lowered : (Expr.caseOf info scrutinee branches).lower ctx supply = .ok code supply')
    {h : Hierarchy} (verified : h = .ofDecls (enroll p.classes []).2) {sc : Verify.Scope}
    (quiet : (checkBranches h [] branches sc).Perm (branches.flatMap (partReport h sc))) :
    ∃ (arms : List Arm) (before tests after : List Line) (endLabel : String),
      arms.map Arm.branch = branches ∧
      (∀ (i : Nat) (a : Arm), arms[i]? = some a →
        a.Lowered ctx i ∧ a.lines endLabel <:+: after) ∧
      (arms.map (·.binder.type)).Nodup ∧
      code.toValue.render Spim.group = .ok (joined code.lines) ∧
      code.lines = before ++ .instruction (.lw .t2 0 .a0) ::
        (tests ++ .instruction (.jal "_case_abort") :: after) ∧
      (labelsIn code.lines).Nodup ∧
      (∀ line ∈ tests, line = .blank ∨ ∃ tag label, line = .instruction (.beqTag .t2 tag label)) ∧
      ∀ d ∈ s.classes.toList,
        TakesNearest s.classes arms tests (.instruction (.jal "_case_abort") :: after) d := by
  obtain ⟨ready,same⟩ := Session.ready_of_layout run
  have fresh := ((ownLabels ctx.classes).lowered _ lowered rfl).nodup
  obtain ⟨scrutineeCode,site,tests,bodies,_,v,-,-,loweredBranches,rfl⟩ := lower_case lowered
  obtain ⟨arms,rfl,each,rfl,rfl⟩ := lowerBranches_arms loweredBranches
  rw [classes] at fresh ⊢
  have ordered : Arm.Ordered s.classes arms := by
    have found : ∀ a ∈ arms, s.classes.find? a.binder.type = some a.entry :=
      fun a member => by
        obtain ⟨i,here⟩ := List.mem_iff_getElem?.mp member
        exact classes ▸ (each i a here).found
    have known := Session.known_of_layout run
    have entries := ClassTable.named_of_known (ClassTable.known_eq same) named
    rw [← known] at verified
    subst verified
    have apart := pairwise_of_branchWarnings (branchWarnings_of_perm quiet)
    refine ⟨found,(List.pairwise_map.mp apart.2).imp_of_mem ?_⟩
    intro a later memberA memberLater apart
    obtain ⟨memberA,nameA⟩ := ClassTable.mem_of_find? (found a memberA)
    obtain ⟨memberLater,nameLater⟩ := ClassTable.mem_of_find? (found later memberLater)
    change s.classes.known.conforms later.binder.type a.binder.type = false at apart
    rw [← nameA,← nameLater,← Bool.not_eq_true,
      ClassTable.conforms_known entries ready.toLinked memberA memberLater] at apart
    exact eq_false_of_ne_true apart
  refine ⟨arms,_,_,_,(v.newLabel "esac").1,rfl,?_,ordered.nodup ready.toLinked,
    Code.render_toValue _,Code.lines_caseOf ..,fresh,?_,?_⟩
  · intro i a here
    refine ⟨each i a here,.trans ?_ (List.prefix_append ..).isInfix⟩
    rw [Code.branchLines_eq,List.map_map]
    exact List.infix_of_mem_flatten (List.mem_map_of_mem (List.mem_of_getElem? here))
  · intro line member
    by_cases solid : line = .blank
    · exact .inl solid
    · obtain ⟨test,-,same⟩ := (Code.mem_testSection (Arm.bare s.classes arms) solid).mp member
      exact .inr ⟨test.1,test.2,same⟩
  · intro d memberD
    exact ordered.takesNearest ready.toLinked memberD _

/-- Classes in a chain, `C` below `B` below `A`, and one beside it. -/
def narrowed : Program where
  classes := [{ name := "C", parent := "B" },{ name := "B", parent := "A" },{ name := "A" },
    { name := "Other" }]

/-- `case self of c : C => c; a : A => 1; i : Int => i; esac`. -/
def narrowing : List (Binder × Expr) :=
  [({ name := "c", type := "C" },.ident {} "c" .localVar),({ name := "a", type := "A" },
    .constant {} (.int 1)),({ name := "i", type := "Int" },.ident {} "i" .localVar)]

def narrowingCase : Expr := .caseOf {} (.ident {} selfName .unknown) narrowing

/-- Objects of `B` go to the branch of `A`, those of `Other` to none. -/
theorem narrowing_takes_nearest :
    ∃ s a b other code supply, Session.layout narrowed {} = .ok () s ∧
      s.classes.find? "A" = some a ∧ s.classes.find? "B" = some b ∧
      s.classes.find? "Other" = some other ∧
      narrowingCase.lower (.ofExpr s.classes a narrowingCase) {} = .ok code supply ∧
      ∃ (before tests after : List Line) (label : String), code.lines = before ++
          .instruction (.lw .t2 0 .a0) :: (tests ++ .instruction (.jal "_case_abort") :: after) ∧
        .label label ∈ after ∧
        exit? b.tag (tests ++ .instruction (.jal "_case_abort") :: after) = some (.jumps label) ∧
        exit? other.tag (tests ++ .instruction (.jal "_case_abort") :: after) =
          some (.calls "_case_abort") := by
  let s := stateAfter (Session.layout narrowed {})
  have run : Session.layout narrowed {} = .ok () s :=
    eq_ok_of_succeeded (by decide +kernel : succeeded (Session.layout narrowed {}))
  obtain ⟨a,foundA⟩ := Option.isSome_iff_exists.mp
    (by decide +kernel : (s.classes.find? "A").isSome)
  obtain ⟨b,foundB⟩ := Option.isSome_iff_exists.mp
    (by decide +kernel : (s.classes.find? "B").isSome)
  obtain ⟨other,foundOther⟩ := Option.isSome_iff_exists.mp
    (by decide +kernel : (s.classes.find? "Other").isSome)
  obtain ⟨code,supply,lowered⟩ : ∃ code supply,
      narrowingCase.lower (.ofExpr s.classes a narrowingCase) {} = .ok code supply := by
    have all : (s.classes.find? "A").all fun a => succeeded
        (narrowingCase.lower (.ofExpr s.classes a narrowingCase) {}) := by decide +kernel
    exact exists_of_succeeded (by simpa [foundA] using all)
  let h := Hierarchy.ofDecls (enroll narrowed.classes []).2
  let sc : Verify.Scope := { className := "A" }
  have quiet : (checkBranches h [] narrowing sc).Perm (narrowing.flatMap (partReport h sc)) := by
    decide +kernel
  have types : narrowing.map (·.1.type) = ["C","A","Int"] := rfl
  have closest : (s.classes.closest? b ["C","A","Int"]).map (·.name) = some "A" ∧
      ∀ k ∈ s.classes.chain other, k.name ∉ ["C","A","Int"] := by
    have all : (s.classes.find? "B").all fun b => (s.classes.find? "Other").all fun other =>
        (s.classes.closest? b ["C","A","Int"]).map (·.name) = some "A" ∧
          (s.classes.chain other).all (·.name ∉ ["C","A","Int"]) := by decide +kernel
    simpa [foundB,foundOther] using all
  clear_value s
  obtain ⟨arms,before,tests,after,endLabel,branches,each,-,-,lines,-,-,takes⟩ :=
    case_takes_nearest_branch run (by decide) rfl lowered rfl quiet
  have armTypes : arms.map (·.binder.type) = ["C","A","Int"] := by
    rw [← types,← branches,List.map_map]
    rfl
  obtain ⟨k,found,-⟩ := Option.map_eq_some_iff.mp closest.1
  obtain ⟨arm,member,-,jumps⟩ := (takes b (ClassTable.mem_of_find? foundB).1).nearest k
    (by rw [armTypes]; exact found)
  have aborts := (takes other (ClassTable.mem_of_find? foundOther).1).aborts
    (by rw [armTypes]; exact closest.2)
  refine ⟨s,a,b,other,code,supply,run,foundA,foundB,foundOther,lowered,before,tests,after,
    arm.head.label,lines,?_,jumps,aborts⟩
  obtain ⟨i,here⟩ := List.mem_iff_getElem?.mp member
  exact (each i arm here).2.subset List.mem_cons_self

end CoolBackend
