import CoolBackend.Proofs.Carried
import CoolBackend.Proofs.Enrollment

/-!
The verifier says at which line and column something is wrong, and no more of the place. For a
carried program it says the same in the same order.
-/
namespace CoolBackend.Verify

def Diagnostic.carried (d : Diagnostic) : Diagnostic :=
  { d with position := d.position.map Position.carried }

theorem Diagnostic.message_carried (d : Diagnostic) : d.carried.message = d.message := by
  obtain ⟨position,complaint⟩ := d
  cases position <;> rfl

def carriedAt (found : List Diagnostic) : List Diagnostic := found.map Diagnostic.carried

@[simp] theorem on_carried (span : Span) (complaint : Complaint) :
    Diagnostic.on span.carried complaint = (Diagnostic.on span complaint).carried := rfl

@[simp] theorem carriedAt_nil : carriedAt [] = [] := rfl

@[simp] theorem carriedAt_cons (d : Diagnostic) (found : List Diagnostic) :
    carriedAt (d :: found) = d.carried :: carriedAt found := rfl

@[simp] theorem carriedAt_append (found more : List Diagnostic) :
    carriedAt (found ++ more) = carriedAt found ++ carriedAt more := List.map_append

@[simp] theorem carriedAt_ite {P : Prop} [Decidable P] (found more : List Diagnostic) :
    carriedAt (if P then found else more) = if P then carriedAt found else carriedAt more := by
  split <;> rfl

theorem carriedAt_flatMap (decls : List ClassDecl) (check : ClassDecl → List Diagnostic) :
    carriedAt (decls.flatMap check) = decls.flatMap fun c => carriedAt (check c) :=
  List.map_flatMap

section Expressions

variable (h : Hierarchy)

@[simp] theorem checkType_carried (span : Span) (type : String) :
    checkType h span.carried type = carriedAt (checkType h span type) := by
  simp [checkType]

@[simp] theorem checkVariable_carried (sc : Scope) (span : Span) (name : String)
    (scope : CoolBackend.Scope) :
    checkVariable h sc span.carried name scope.carried =
      carriedAt (checkVariable h sc span name scope) := by
  cases scope <;> simp [CoolBackend.Scope.carried,checkVariable]

@[simp] theorem checkCall_carried (sc : Scope) (span : Span) (receiverType : Option String)
    (staticClass method : String) :
    checkCall h sc span.carried receiverType staticClass method =
      carriedAt (checkCall h sc span receiverType staticClass method) := by
  simp [checkCall]

@[simp] theorem checkBranch_carried (earlier : List String) (b : Binder) :
    checkBranch h earlier b.carried = carriedAt (checkBranch h earlier b) := by
  simp only [checkBranch,Binder.type_carried]
  cases earlier.find? (h.conforms b.type) <;> rfl

def FoundAlike (e : Expr) : Prop :=
  ∀ sc, checkExpr h e.carried sc = carriedAt (checkExpr h e sc)

variable {h}

theorem checkExprs_carried {exprs : List Expr} (each : ∀ e ∈ exprs, FoundAlike h e) (sc : Scope) :
    checkExprs h (carriedAll exprs) sc = carriedAt (checkExprs h exprs sc) := by
  induction exprs with
  | nil => rfl
  | cons e rest ih =>
    have later := ih fun e member => each e (by simp [member])
    rw [carriedAll,checkExprs,checkExprs,each e (by simp),later,carriedAt_append]

theorem checkBindings_carried {bindings : List (Binder × Expr)}
    (each : ∀ b ∈ bindings, FoundAlike h b.2) (sc : Scope) :
    checkBindings h (carriedBindings bindings) sc =
      (carriedAt (checkBindings h bindings sc).1,(checkBindings h bindings sc).2) := by
  induction bindings generalizing sc with
  | nil => rfl
  | cons b rest ih =>
    have here := each b (by simp) sc
    have later := ih (fun b member => each b (by simp [member])) (sc.bind b.1.name)
    simp [carriedBindings,checkBindings,here,later]

theorem checkBranches_carried {branches : List (Binder × Expr)}
    (each : ∀ b ∈ branches, FoundAlike h b.2) (earlier : List String) (sc : Scope) :
    checkBranches h earlier (carriedBindings branches) sc =
      carriedAt (checkBranches h earlier branches sc) := by
  induction branches generalizing earlier with
  | nil => rfl
  | cons b rest ih =>
    have here := each b (by simp) (sc.bind b.1.name)
    have later := ih (fun b member => each b (by simp [member])) (earlier ++ [b.1.type])
    simp [carriedBindings,checkBranches,here,later]

/-- The same is found in every expression as in the carried one. -/
theorem foundAlike (e : Expr) : FoundAlike h e := by
  induction e using Expr.induct with
  | absent => exact fun _ => rfl
  | constant info value => exact fun _ => rfl
  | ident info name scope =>
    intro sc
    simp [Expr.carried,checkExpr]
  | assign info name scope value ih =>
    intro sc
    simp [Expr.carried,checkExpr,ih sc]
  | unary info op operand ih => exact ih
  | binary info op left right ihLeft ihRight =>
    intro sc
    simp [Expr.carried,checkExpr,ihLeft sc,ihRight sc]
  | cond info test yes no ihTest ihYes ihNo =>
    intro sc
    simp [Expr.carried,checkExpr,ihTest sc,ihYes sc,ihNo sc]
  | loop info test body ihTest ihBody =>
    intro sc
    simp [Expr.carried,checkExpr,ihTest sc,ihBody sc]
  | block info exprs ih =>
    intro sc
    have empty : (carriedAll exprs).isEmpty = exprs.isEmpty := by
      rw [carriedAll_eq,List.isEmpty_map]
    rw [Expr.carried,checkExpr,checkExpr,checkExprs_carried ih,empty]
    simp
  | letIn info bindings body ihBindings ihBody =>
    intro sc
    simp only [Expr.carried,checkExpr,checkBindings_carried ihBindings]
    rw [ihBody,carriedAt_append]
  | caseOf info scrutinee branches ihScrutinee ihBranches =>
    intro sc
    have empty : (carriedBindings branches).isEmpty = branches.isEmpty := by
      rw [carriedBindings_eq,List.isEmpty_map]
    rw [Expr.carried,checkExpr,checkExpr,ihScrutinee,checkBranches_carried ihBranches,empty]
    simp
  | new info className => exact fun _ => checkType_carried h info.span className
  | dispatch info receiver staticClass method args ihReceiver ihArgs =>
    intro sc
    rw [Expr.carried,checkExpr,checkExpr,checkExprs_carried ihArgs,ihReceiver,
      Expr.isAbsent_carried,Expr.staticType_carried]
    simp

end Expressions

section Classes

variable (h : Hierarchy)

theorem checkAttributes_carried (c : ClassDecl) (seen : List String)
    (attributes : List (Binder × Expr)) :
    checkAttributes h c.carried seen (carriedBindings attributes) =
      carriedAt (checkAttributes h c seen attributes) := by
  induction attributes generalizing seen with
  | nil => rfl
  | cons a rest ih =>
    rw [carriedBindings,checkAttributes,checkAttributes,ih,foundAlike a.2,Binder.name_carried,
      ClassDecl.parentName_carried]
    simp

theorem checkFormals_carried (seen : List String) (formals : List Binder) :
    checkFormals h seen (formals.map Binder.carried) =
      carriedAt (checkFormals h seen formals) := by
  induction formals generalizing seen with
  | nil => rfl
  | cons f rest ih => simp [checkFormals,ih]

theorem checkMethods_carried (c : ClassDecl) (seen : List String) (methods : List MethodDecl) :
    checkMethods h c.carried seen (methods.map MethodDecl.carried) =
      carriedAt (checkMethods h c seen methods) := by
  induction methods generalizing seen with
  | nil => rfl
  | cons m rest ih =>
    have names : (m.formals.map Binder.carried).map (·.name) = m.formals.map (·.name) := by
      simp [Function.comp_def]
    rw [List.map_cons,checkMethods,checkMethods,ih]
    simp only [MethodDecl.carried,ClassDecl.name_carried,names,checkFormals_carried,
      Expr.isAbsent_carried,foundAlike m.body _]
    simp

theorem checkClass_carried (c : ClassDecl) :
    checkClass h c.carried = carriedAt (checkClass h c) := by
  rw [checkClass,checkClass,carriedAt_append,← checkAttributes_carried,← checkMethods_carried]
  rfl

end Classes

theorem ofDecl_carried (c : ClassDecl) : KnownClass.ofDecl c.carried = KnownClass.ofDecl c := by
  simp only [KnownClass.ofDecl,ClassDecl.carried,carriedBindings_eq,List.map_map]
  rfl

theorem ofDecls_carried (decls : List ClassDecl) :
    Hierarchy.ofDecls (decls.map ClassDecl.carried) = Hierarchy.ofDecls decls := by
  simp only [Hierarchy.ofDecls,List.map_map,Function.comp_def,ofDecl_carried]

/-- Looking a class up by its name gives the carried one. -/
theorem find?_carried (decls : List ClassDecl) (name : String) :
    (decls.map ClassDecl.carried).find? (·.name = name) =
      (decls.find? (·.name = name)).map ClassDecl.carried := by
  rw [List.find?_map]
  rfl

theorem enroll_carried (classes known : List ClassDecl) :
    enroll (classes.map ClassDecl.carried) (known.map ClassDecl.carried) =
      (carriedAt (enroll classes known).1,(enroll classes known).2.map ClassDecl.carried) := by
  induction classes generalizing known with
  | nil => rfl
  | cons c rest ih =>
    simp only [List.map_cons,enroll,ih]
    rw [ClassDecl.name_carried,ClassDecl.span_carried,find?_carried]
    split
    next => rfl
    next =>
      split
      next => rfl
      next =>
        cases known.find? (·.name = c.name) with
        | some d => rfl
        | none =>
          have extended := ih (known ++ [c])
          rw [List.map_append] at extended
          exact extended

theorem checkHierarchy_carried (h : Hierarchy) (decls : List ClassDecl) :
    checkHierarchy h (decls.map ClassDecl.carried) =
      (carriedAt (checkHierarchy h decls).1,(checkHierarchy h decls).2) := by
  have parent (c : ClassDecl) : checkParent h c.carried = carriedAt (checkParent h c) := by
    rw [checkParent,checkParent,ClassDecl.parentName_carried]
    simp
  have cycle (c : ClassDecl) : checkCycle h c.carried = carriedAt (checkCycle h c) := by
    rw [checkCycle,checkCycle,ClassDecl.name_carried]
    simp
  have defined : (decls.map ClassDecl.carried).all (h.defines ·.parentName) =
      decls.all (h.defines ·.parentName) := by
    simp [Function.comp_def]
  simp only [checkHierarchy,defined,List.flatMap_map,parent,cycle,← carriedAt_flatMap]
  split
  next => rw [← carriedAt_append,carriedAt,carriedAt,List.isEmpty_map]
  next => rfl

theorem checkMain_carried (h : Hierarchy) (decls : List ClassDecl) :
    checkMain h (decls.map ClassDecl.carried) = carriedAt (checkMain h decls) := by
  rw [checkMain,checkMain,find?_carried]
  cases decls.find? (·.name = "Main") with
  | none => rfl
  | some c => simp

/-- The same is wrong with a carried program, at the carried places. -/
theorem diagnose_carried (p : Program) : diagnose p.carried = carriedAt (diagnose p) := by
  have enrolled : enroll (p.classes.map ClassDecl.carried) [] =
      (carriedAt (enroll p.classes []).1,(enroll p.classes []).2.map ClassDecl.carried) :=
    enroll_carried p.classes []
  simp only [diagnose_eq,Program.carried,enrolled,ofDecls_carried,checkHierarchy_carried,
    checkMain_carried,List.flatMap_map,checkClass_carried,← carriedAt_flatMap]
  simp

theorem messages_carried (p : Program) :
    (diagnose p.carried).map (·.message) = (diagnose p).map (·.message) := by
  simp only [diagnose_carried,carriedAt,List.map_map,Function.comp_def,Diagnostic.message_carried]

end CoolBackend.Verify
