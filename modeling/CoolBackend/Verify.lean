import CoolBackend.Frame
import CoolBackend.Verify.Hierarchy

/-!
Checks what lowering takes for granted: a closed hierarchy without cycles, and variables that are
classified and resolvable. Nothing is changed. The order of the diagnostics is that of the program;
the features are looked at only if the hierarchy can be walked.
-/
namespace CoolBackend.Verify

/-- The names visible in a body; locals innermost first. -/
structure Scope where
  className : String
  formals : List String := []
  locals : List String := []

def Scope.bind (sc : Scope) (name : String) : Scope := { sc with locals := name :: sc.locals }

/-- A type that is neither left open nor that of the receiver has to be defined. -/
def checkType (h : Hierarchy) (span : Span) (type : String) : List Diagnostic :=
  if type = selfType || type = "" || h.defines type then [] else [.on span (.undefinedType type)]

def checkVariable (h : Hierarchy) (sc : Scope) (span : Span) (name : String) :
    CoolBackend.Scope → List Diagnostic
  | .attr =>
    if h.hasAttribute sc.className name then [] else [.on span (.noAttribute sc.className name)]
  | .formal => if sc.formals.contains name then [] else [.on span (.notFormal name)]
  | .localVar => if sc.locals.contains name then [] else [.on span (.unboundLocal name)]
  | .unknown | .other _ => [.on span (.unclassified name)]

/-- The method of a call has to exist in the class that the call is looked up in. `receiverType` is
that of an explicit receiver. -/
def checkCall (h : Hierarchy) (sc : Scope) (span : Span) (receiverType : Option String)
    (staticClass method : String) : List Diagnostic :=
  if staticClass ≠ "" && !h.defines staticClass then [.on span (.undefinedStatic staticClass)]
  else
    let dynamic := match receiverType with
      | some type => if type = "" || type = selfType then sc.className else type
      | none => sc.className
    let target := if staticClass = "" then dynamic else staticClass
    if !h.defines target then [.on span (.undefinedReceiver target)]
    else if h.hasMethod target method then []
    else [.on span (.noMethod target method)]

/-- A branch is never taken after one whose type its own type conforms to. -/
def checkBranch (h : Hierarchy) (earlier : List String) (b : Binder) : List Diagnostic :=
  match earlier.find? (h.conforms b.type) with
  | some type => [.on b.span (.unreachable b.type type)]
  | none => []

mutual

def checkExpr (h : Hierarchy) : Expr → Scope → List Diagnostic
  | .absent, _ => []
  | .constant _ _, _ => []
  | .ident info name scope, sc =>
    if name = selfName then [] else checkVariable h sc info.span name scope
  | .assign info name scope value, sc =>
    (if name = selfName then [.on info.span .assignSelf]
      else checkVariable h sc info.span name scope) ++ checkExpr h value sc
  | .unary _ _ operand, sc => checkExpr h operand sc
  | .binary _ _ left right, sc => checkExpr h left sc ++ checkExpr h right sc
  | .cond _ test yes no, sc => checkExpr h test sc ++ checkExpr h yes sc ++ checkExpr h no sc
  | .loop _ test body, sc => checkExpr h test sc ++ checkExpr h body sc
  | .block info exprs, sc =>
    (if exprs.isEmpty then [.on info.span .emptyBlock] else []) ++ checkExprs h exprs sc
  | .letIn _ bindings body, sc =>
    let (found, inner) := checkBindings h bindings sc
    found ++ checkExpr h body inner
  | .caseOf info scrutinee branches, sc =>
    checkExpr h scrutinee sc ++
      (if branches.isEmpty then [.on info.span .emptyCase] else []) ++
      checkBranches h [] branches sc
  | .new info className, _ => checkType h info.span className
  | .dispatch info receiver staticClass method args, sc =>
    checkExprs h args sc ++ checkExpr h receiver sc ++
      checkCall h sc info.span (if receiver.isAbsent then none else some receiver.staticType)
        staticClass method

def checkExprs (h : Hierarchy) : List Expr → Scope → List Diagnostic
  | [], _ => []
  | e :: rest, sc => checkExpr h e sc ++ checkExprs h rest sc

def checkBindings (h : Hierarchy) : List (Binder × Expr) → Scope → List Diagnostic × Scope
  | [], sc => ([], sc)
  | (b, init) :: rest, sc =>
    let (found, inner) := checkBindings h rest (sc.bind b.name)
    (checkType h b.span b.type ++ checkExpr h init sc ++ found, inner)

def checkBranches (h : Hierarchy) (earlier : List String) :
    List (Binder × Expr) → Scope → List Diagnostic
  | [], _ => []
  | (b, body) :: rest, sc =>
    checkType h b.span b.type ++ checkBranch h earlier b ++ checkExpr h body (sc.bind b.name) ++
      checkBranches h (earlier ++ [b.type]) rest sc

end

def checkAttributes (h : Hierarchy) (c : ClassDecl) (seen : List String) :
    List (Binder × Expr) → List Diagnostic
  | [] => []
  | (a, init) :: rest =>
    (if seen.contains a.name then [.on a.span (.attributeTwice a.name c.name)] else []) ++
    (if a.name = selfName then [.on a.span .attributeSelf] else []) ++
    (if h.hasAttribute c.parentName a.name then
      [.on a.span (.attributeInherited a.name)] else []) ++
    checkType h a.span a.type ++
    checkExpr h init { className := c.name } ++
    checkAttributes h c (a.name :: seen) rest

def checkFormals (h : Hierarchy) (seen : List String) : List Binder → List Diagnostic
  | [] => []
  | f :: rest =>
    (if seen.contains f.name then [.on f.span (.formalTwice f.name)] else []) ++
    checkType h f.span f.type ++
    checkFormals h (f.name :: seen) rest

def checkMethods (h : Hierarchy) (c : ClassDecl) (seen : List String) :
    List MethodDecl → List Diagnostic
  | [] => []
  | m :: rest =>
    (if seen.contains m.name then [.on m.span (.methodTwice m.name c.name)] else []) ++
    checkFormals h [] m.formals ++
    (if m.body.isAbsent then [.on m.span (.noBody c.name m.name)]
      else checkExpr h m.body { className := c.name, formals := m.formals.map (·.name) }) ++
    checkMethods h c (m.name :: seen) rest

def checkClass (h : Hierarchy) (c : ClassDecl) : List Diagnostic :=
  checkAttributes h c [] c.attributes ++ checkMethods h c [] c.methods

def checkMain (h : Hierarchy) (decls : List ClassDecl) : List Diagnostic :=
  match decls.find? (·.name = "Main") with
  | none => [⟨none, .noMain⟩]
  | some main => if h.hasMethod "Main" "main" then [] else [.on main.span .noMainMethod]

/-- The place of the class that is known by a name: the first class of the name, unless the name is
reserved. -/
def knownAt? (classes : List ClassDecl) (name : String) : Option Nat :=
  if name = selfType || Builtin.isBuiltin name then none else classes.findIdx? (·.name = name)

/-- The classes whose features are looked at, in the order of the program: those whose node is the
one that is known by their name. -/
def analyzed (classAt : Nat → Nat) (classes : List ClassDecl) : List ClassDecl :=
  let known := classes.zipIdx.filter fun (c, i) =>
    (knownAt? classes c.name).any (classAt · = classAt i)
  known.map (·.1)

/-- All that is wrong with a program in which a class can be listed more than once. -/
def diagnoseIn (nodes : NodeNames) (p : Program) : List Diagnostic :=
  let (refused, decls) := enroll p.classes []
  let h := Hierarchy.ofDecls decls
  let (found, walkable) := checkHierarchy h decls
  refused ++ found ++
    if walkable then
      checkMain h decls ++ (analyzed nodes.classAt p.classes).flatMap (checkClass h)
    else []

def diagnose (p : Program) : List Diagnostic := diagnoseIn .tree p

end CoolBackend.Verify
