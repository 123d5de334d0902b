import CoolBackend.Proofs.Climbs
import CoolBackend.Proofs.Enrollment
import CoolBackend.Proofs.Expressions

/-!
What the verifier has established about a program when all that it reports are warnings. A message
shows whether it is a warning: all others begin with their place, or with the missing class.
-/
namespace CoolBackend.Verify

def Clean (found : List Diagnostic) : Prop := ∀ d ∈ found, d.isWarning

@[simp] theorem clean_nil : Clean [] := List.forall_mem_nil _

@[simp] theorem clean_append {found more : List Diagnostic} :
    Clean (found ++ more) ↔ Clean found ∧ Clean more := List.forall_mem_append

@[simp] theorem clean_on {span : Span} {complaint : Complaint} :
    Clean [.on span complaint] ↔ complaint.isWarning := List.forall_mem_singleton

theorem clean_flatMap {α : Type} {f : α → List Diagnostic} {xs : List α} :
    Clean (xs.flatMap f) ↔ ∀ x ∈ xs, Clean (f x) := List.forall_mem_flatMap

/-- What is complained about unless a condition holds. -/
theorem clean_unless {condition : Prop} [Decidable condition] {span : Span} {complaint : Complaint}
    (serious : complaint.isWarning = false) :
    Clean (if condition then [] else [.on span complaint]) ↔ condition := by
  split
  next yes => simp [yes]
  next no => simp [no,serious]

/-- The class in which the verifier looks a call up. -/
def callTarget (sc : Scope) (receiverType : Option String) (staticClass : String) : String :=
  if staticClass = "" then
    match receiverType with
    | some type => if type = "" || type = selfType then sc.className else type
    | none => sc.className
  else staticClass

theorem clean_checkCall {h : Hierarchy} {sc : Scope} {span : Span} {receiverType : Option String}
    {staticClass method : String}
    (clean : Clean (checkCall h sc span receiverType staticClass method)) :
    h.defines (callTarget sc receiverType staticClass) ∧
      h.hasMethod (callTarget sc receiverType staticClass) method := by
  rw [checkCall.eq_def] at clean
  split at clean
  next => cases clean_on.mp clean
  next =>
    change Clean (if !h.defines (callTarget sc receiverType staticClass) then _ else _) at clean
    split at clean
    next => cases clean_on.mp clean
    next defined =>
      rw [clean_unless rfl] at clean
      exact ⟨by simpa using defined,clean⟩

/-- The complaints without which the classes of a program form a hierarchy. -/
def Complaint.concernsHierarchy : Complaint → Bool
  | namedSelfType | redefinesBuiltin _ | alreadyDefined _ _ | undefinedParent _ _
  | inheritanceCycle _ => true
  | _ => false

def Sane (found : List Diagnostic) : Prop := ∀ d ∈ found, d.complaint.concernsHierarchy = false

theorem sane_append {found more : List Diagnostic} :
    Sane (found ++ more) ↔ Sane found ∧ Sane more := List.forall_mem_append

theorem sane_cons {d : Diagnostic} {found : List Diagnostic} :
    Sane (d :: found) ↔ d.complaint.concernsHierarchy = false ∧ Sane found := List.forall_mem_cons

theorem sane_flatMap {α : Type} {f : α → List Diagnostic} {xs : List α} :
    Sane (xs.flatMap f) ↔ ∀ x ∈ xs, Sane (f x) := List.forall_mem_flatMap

theorem Clean.sane {found : List Diagnostic} (clean : Clean found) : Sane found := by
  intro d member
  have warning := clean d member
  rw [Diagnostic.isWarning] at warning
  cases complaint : d.complaint with
  | unreachable type earlier => rfl
  | _ => rw [complaint] at warning; cases warning

/-- The classes that are taken are all, and their names are new and their own. -/
theorem sane_enroll {cs taken : List ClassDecl} (sane : Sane (enroll cs taken).1) :
    (enroll cs taken).2 = taken ++ cs ∧ (cs.map (·.name)).Nodup ∧
      ∀ c ∈ cs, c.name ≠ selfType ∧ Builtin.isBuiltin c.name = false ∧
        ∀ earlier ∈ taken, earlier.name ≠ c.name := by
  induction cs generalizing taken with
  | nil => simp [enroll]
  | cons c rest ih =>
    rw [enroll] at sane ⊢
    simp only at sane ⊢
    split at sane
    next => cases (sane_cons.mp sane).1
    next notSelf =>
      split at sane
      next => cases (sane_cons.mp sane).1
      next notBuiltin =>
        split at sane
        next => cases (sane_cons.mp sane).1
        next free =>
          obtain ⟨all,distinct,others⟩ := ih sane
          -- The class joins those that are taken, so later ones differ from it as well.
          have new : ∀ earlier ∈ taken, earlier.name ≠ c.name := by
            simpa using free
          refine ⟨?_,List.nodup_cons.mpr ⟨?_,distinct⟩,List.forall_mem_cons.mpr ⟨?_,?_⟩⟩
          · simpa [notSelf,notBuiltin,free] using all
          · intro again
            obtain ⟨d,member,same⟩ := List.mem_map.mp again
            exact (others d member).2.2 c (by simp) same.symm
          · exact ⟨notSelf,by simpa using notBuiltin,new⟩
          · intro d member
            obtain ⟨first,second,third⟩ := others d member
            exact ⟨first,second,fun earlier among => third earlier (List.mem_append_left _ among)⟩

/-- The classes of a program, with the built-in ones, form a hierarchy. -/
structure Rooted (p : Program) : Prop where
  distinct : (p.classes.map (·.name)).Nodup
  free : ∀ c ∈ p.classes, c.name ≠ selfType ∧ Builtin.isBuiltin c.name = false
  parents : ∀ c ∈ p.classes, (Hierarchy.ofDecls p.classes).defines c.parentName
  reaches : ∀ c ∈ p.classes, ∃ n, (Hierarchy.ofDecls p.classes).reachesRoot n c.name

/-- What the verifier has established about a program that has only warnings. -/
structure Verified (p : Program) : Prop extends Rooted p where
  main : Clean (checkMain (Hierarchy.ofDecls p.classes) p.classes)
  features : ∀ c ∈ p.classes, Clean (checkClass (Hierarchy.ofDecls p.classes) c)

theorem checkCycle_eq_nil {h : Hierarchy} {c : ClassDecl} (reaches : ∃ n, h.reachesRoot n c.name) :
    checkCycle h c = [] := by
  rw [checkCycle,Hierarchy.comesBack_eq_false.mpr reaches]
  rfl

theorem sane_checkHierarchy {h : Hierarchy} {decls : List ClassDecl}
    (sane : Sane (checkHierarchy h decls).1) :
    (checkHierarchy h decls).2 = true ∧ (∀ c ∈ decls, h.defines c.parentName) ∧
      ∀ c ∈ decls, ∃ n, h.reachesRoot n c.name := by
  have parents : ∀ c ∈ decls, h.defines c.parentName := by
    have some : Sane (decls.flatMap (checkParent h)) := by
      rw [checkHierarchy] at sane
      split at sane
      next => exact (sane_append.mp sane).1
      next => exact sane
    intro c member
    have here := sane_flatMap.mp some c member
    rw [checkParent] at here
    split at here
    next => cases (sane_cons.mp here).1
    next defined => simpa using defined
  have all : decls.all (h.defines ·.parentName) = true := List.all_eq_true.mpr parents
  rw [checkHierarchy,if_pos all] at sane ⊢
  have cycles : ∀ c ∈ decls, ∃ n, h.reachesRoot n c.name := by
    intro c member
    have here := sane_flatMap.mp (sane_append.mp sane).2 c member
    rw [checkCycle] at here
    split at here
    next => cases (sane_cons.mp here).1
    next ends => exact Hierarchy.comesBack_eq_false.mp (Bool.eq_false_iff.mpr ends)
  have none : decls.flatMap (checkCycle h) = [] := by
    rw [List.flatMap_eq_nil_iff]
    intro c member
    exact checkCycle_eq_nil (cycles c member)
  exact ⟨by rw [none]; rfl,parents,cycles⟩

/-- What is reported about a program without a complaint against its hierarchy. -/
theorem rooted_of_sane {p : Program} (sane : Sane (diagnose p)) : Rooted p ∧
    ∃ found, diagnose p = found ++ (checkMain (Hierarchy.ofDecls p.classes) p.classes ++
      p.classes.flatMap (checkClass (Hierarchy.ofDecls p.classes))) := by
  simp only [diagnose_eq,sane_append] at sane
  obtain ⟨⟨enrolled,hierarchy⟩,-⟩ := sane
  obtain ⟨all,distinct,free⟩ := sane_enroll enrolled
  rw [all,List.nil_append] at hierarchy
  obtain ⟨walkable,parents,reaches⟩ := sane_checkHierarchy hierarchy
  refine ⟨⟨distinct,fun c member => ⟨(free c member).1,(free c member).2.1⟩,parents,reaches⟩,
    (enroll p.classes []).1 ++ (checkHierarchy (Hierarchy.ofDecls p.classes) p.classes).1,?_⟩
  simp only [diagnose_eq,all,List.nil_append,if_pos walkable]

theorem verified_of_clean {p : Program} (clean : Clean (diagnose p)) : Verified p := by
  obtain ⟨rooted,found,report⟩ := rooted_of_sane clean.sane
  rw [report,clean_append,clean_append] at clean
  exact ⟨rooted,clean.2.1,clean_flatMap.mp clean.2.2⟩

theorem clean_checkAttributes {h : Hierarchy} {c : ClassDecl} {seen : List String}
    {attributes : List (Binder × Expr)} (clean : Clean (checkAttributes h c seen attributes)) :
    ∀ a ∈ attributes, Clean (checkExpr h a.2 { className := c.name }) := by
  induction attributes generalizing seen with
  | nil => exact List.forall_mem_nil _
  | cons a rest ih =>
    simp only [checkAttributes,clean_append] at clean
    exact List.forall_mem_cons.mpr ⟨clean.1.2,ih clean.2⟩

theorem clean_checkMethods {h : Hierarchy} {c : ClassDecl} {seen : List String}
    {methods : List MethodDecl} (clean : Clean (checkMethods h c seen methods)) :
    ∀ m ∈ methods, m.body.isAbsent = false ∧
      Clean (checkExpr h m.body { className := c.name, formals := m.formals.map (·.name) }) := by
  induction methods generalizing seen with
  | nil => exact List.forall_mem_nil _
  | cons m rest ih =>
    simp only [checkMethods,clean_append] at clean
    obtain ⟨⟨-,body⟩,others⟩ := clean
    refine List.forall_mem_cons.mpr ⟨?_,ih others⟩
    split at body
    next => cases clean_on.mp body
    next present => exact ⟨by simpa using present,body⟩

/-- Every diagnostic says where it belongs, and none is about the hierarchy. -/
def Featured (found : List Diagnostic) : Prop :=
  ∀ d ∈ found, d.position.isSome ∧ d.complaint.concernsHierarchy = false

@[simp] theorem featured_nil : Featured [] := List.forall_mem_nil _

@[simp] theorem featured_append {found more : List Diagnostic} :
    Featured (found ++ more) ↔ Featured found ∧ Featured more := List.forall_mem_append

@[simp] theorem featured_on {span : Span} {complaint : Complaint} :
    Featured [.on span complaint] ↔ complaint.concernsHierarchy = false := by
  simp [Featured,Diagnostic.on]

@[simp] theorem featured_if {condition : Prop} [Decidable condition] {yes no : List Diagnostic} :
    Featured (if condition then yes else no) ↔
      (condition → Featured yes) ∧ (¬condition → Featured no) := by
  split
  next holds => simp [holds]
  next fails => simp [fails]

@[simp] theorem featured_checkType (h : Hierarchy) (span : Span) (type : String) :
    Featured (checkType h span type) := by
  simp [checkType,Complaint.concernsHierarchy]

theorem featured_checkVariable (h : Hierarchy) (sc : Scope) (span : Span) (name : String)
    (scope : CoolBackend.Scope) : Featured (checkVariable h sc span name scope) := by
  cases scope <;> simp [checkVariable,Complaint.concernsHierarchy]

theorem featured_checkCall (h : Hierarchy) (sc : Scope) (span : Span) (receiverType : Option String)
    (staticClass method : String) :
    Featured (checkCall h sc span receiverType staticClass method) := by
  simp [checkCall.eq_def,Complaint.concernsHierarchy]

theorem featured_checkBranch (h : Hierarchy) (earlier : List String) (b : Binder) :
    Featured (checkBranch h earlier b) := by
  rw [checkBranch]
  split
  next => simp [Complaint.concernsHierarchy]
  next => simp

mutual

theorem featured_checkExpr (h : Hierarchy) : (e : Expr) → (sc : Scope) →
    Featured (checkExpr h e sc)
  | .absent,_ => featured_nil
  | .constant _ _,_ => featured_nil
  | .ident _ _ _,sc => by
    simp [checkExpr,featured_checkVariable]
  | .assign _ _ _ value,sc => by
    simp [checkExpr,Complaint.concernsHierarchy,featured_checkVariable,
      featured_checkExpr h value]
  | .unary _ _ operand,sc => featured_checkExpr h operand sc
  | .binary _ _ left right,sc => by
    simp [checkExpr,featured_checkExpr h left,featured_checkExpr h right]
  | .cond _ test yes no,sc => by
    simp [checkExpr,featured_checkExpr h test,featured_checkExpr h yes,featured_checkExpr h no]
  | .loop _ test body,sc => by
    simp [checkExpr,featured_checkExpr h test,featured_checkExpr h body]
  | .block _ exprs,sc => by
    simp [checkExpr,Complaint.concernsHierarchy,featured_checkExprs h exprs]
  | .letIn _ bindings body,sc => by
    simp [checkExpr,featured_checkBindings h bindings,featured_checkExpr h body]
  | .caseOf _ scrutinee branches,sc => by
    simp [checkExpr,Complaint.concernsHierarchy,featured_checkExpr h scrutinee,
      featured_checkBranches h [] branches]
  | .new _ _,_ => featured_checkType _ _ _
  | .dispatch _ receiver _ _ args,sc => by
    simp [checkExpr,featured_checkExprs h args,featured_checkExpr h receiver,featured_checkCall]

theorem featured_checkExprs (h : Hierarchy) : (exprs : List Expr) → (sc : Scope) →
    Featured (checkExprs h exprs sc)
  | [],_ => featured_nil
  | e :: rest,sc => by
    simp [checkExprs,featured_checkExpr h e,featured_checkExprs h rest]

theorem featured_checkBindings (h : Hierarchy) : (bindings : List (Binder × Expr)) → (sc : Scope) →
    Featured (checkBindings h bindings sc).1
  | [],_ => featured_nil
  | (_,init) :: rest,sc => by
    simp [checkBindings,featured_checkExpr h init,featured_checkBindings h rest]

theorem featured_checkBranches (h : Hierarchy) (earlier : List String) :
    (branches : List (Binder × Expr)) → (sc : Scope) →
    Featured (checkBranches h earlier branches sc)
  | [],_ => featured_nil
  | (_,body) :: rest,sc => by
    simp [checkBranches,featured_checkBranch,featured_checkExpr h body,
      featured_checkBranches h _ rest]

end

theorem featured_checkAttributes (h : Hierarchy) (c : ClassDecl) (seen : List String)
    (attributes : List (Binder × Expr)) : Featured (checkAttributes h c seen attributes) := by
  induction attributes generalizing seen with
  | nil => exact featured_nil
  | cons a rest ih => simp [checkAttributes,Complaint.concernsHierarchy,featured_checkExpr,ih]

theorem featured_checkFormals (h : Hierarchy) (seen : List String) (formals : List Binder) :
    Featured (checkFormals h seen formals) := by
  induction formals generalizing seen with
  | nil => exact featured_nil
  | cons f rest ih => simp [checkFormals,Complaint.concernsHierarchy,ih]

theorem featured_checkMethods (h : Hierarchy) (c : ClassDecl) (seen : List String)
    (methods : List MethodDecl) : Featured (checkMethods h c seen methods) := by
  induction methods generalizing seen with
  | nil => exact featured_nil
  | cons m rest ih =>
    simp [checkMethods,Complaint.concernsHierarchy,featured_checkFormals,featured_checkExpr,ih]

theorem featured_checkClass (h : Hierarchy) (c : ClassDecl) : Featured (checkClass h c) :=
  featured_append.mpr ⟨featured_checkAttributes h c [] c.attributes,
    featured_checkMethods h c [] c.methods⟩

/-- Every diagnostic says where it belongs. -/
def Located (found : List Diagnostic) : Prop := ∀ d ∈ found, d.position.isSome

@[simp] theorem located_nil : Located [] := List.forall_mem_nil _

@[simp] theorem located_append {found more : List Diagnostic} :
    Located (found ++ more) ↔ Located found ∧ Located more := List.forall_mem_append

@[simp] theorem located_cons {span : Span} {complaint : Complaint} {found : List Diagnostic} :
    Located (.on span complaint :: found) ↔ Located found := by
  simp [Located,Diagnostic.on]

theorem located_flatMap {α : Type} {f : α → List Diagnostic} {xs : List α}
    (each : ∀ x ∈ xs, Located (f x)) : Located (xs.flatMap f) :=
  List.forall_mem_flatMap.mpr each

@[simp] theorem located_if {condition : Prop} [Decidable condition] {yes no : List Diagnostic} :
    Located (if condition then yes else no) ↔
      (condition → Located yes) ∧ (¬condition → Located no) := by
  split
  next holds => simp [holds]
  next fails => simp [fails]

theorem located_enroll (cs taken : List ClassDecl) : Located (enroll cs taken).1 := by
  induction cs generalizing taken with
  | nil => exact located_nil
  | cons c rest ih =>
    rw [enroll]
    simp only
    split
    next => exact located_cons.mpr (ih taken)
    next =>
      split
      next => exact located_cons.mpr (ih taken)
      next =>
        split
        next => exact located_cons.mpr (ih taken)
        next => exact ih _

theorem located_checkHierarchy (h : Hierarchy) (decls : List ClassDecl) :
    Located (checkHierarchy h decls).1 := by
  have parents : Located (decls.flatMap (checkParent h)) :=
    located_flatMap fun c _ => by simp [checkParent]
  have cycles : Located (decls.flatMap (checkCycle h)) :=
    located_flatMap fun c _ => by simp [checkCycle]
  rw [checkHierarchy]
  split
  next => exact located_append.mpr ⟨parents,cycles⟩
  next => exact parents

/-- Only the complaint that there is no class `Main` has no place. -/
theorem located_or_noMain {p : Program} {d : Diagnostic} (member : d ∈ diagnose p) :
    d.position.isSome ∨ d = ⟨none,.noMain⟩ := by
  simp only [diagnose_eq,List.mem_append] at member
  rcases member with (refused | hierarchy) | rest
  · exact .inl (located_enroll _ _ d refused)
  · exact .inl (located_checkHierarchy _ _ d hierarchy)
  · split at rest
    next =>
      rcases List.mem_append.mp rest with main | features
      · rw [checkMain] at main
        split at main
        next => exact .inr (List.mem_singleton.mp main)
        next =>
          split at main
          next => cases main
          next => exact .inl (by rw [List.mem_singleton.mp main]; rfl)
      · obtain ⟨c,-,here⟩ := List.mem_flatMap.mp features
        exact .inl (featured_checkClass _ c d here).1
    next => cases rest

theorem message_of_isWarning {d : Diagnostic} (warning : d.isWarning) :
    "warning:".toList <+: d.message.toList := by
  simp only [Diagnostic.message,warning,if_true,String.toList_append,List.append_assoc]
  exact ⟨_,rfl⟩

/-- A message that begins as a warning does is one. -/
theorem isWarning_of_message {p : Program} {d : Diagnostic} (member : d ∈ diagnose p)
    (message : "warning:".toList <+: d.message.toList) : d.isWarning := by
  have first : d.message.toList.head? = some 'w' := by
    obtain ⟨rest,same⟩ := message
    rw [← same]
    rfl
  cases serious : d.isWarning with
  | true => rfl
  | false =>
    rcases located_or_noMain member with place | rfl
    · obtain ⟨position,here⟩ := Option.isSome_iff_exists.mp place
      have start : toString "line " = "line " := rfl
      simp [Diagnostic.message,serious,here,start] at first
    · revert first
      decide

end CoolBackend.Verify
