import CoolBackend.ClassTable.Hierarchy
import CoolBackend.ClassTable.Layout
import CoolBackend.Code
import CoolBackend.Frame
import CoolBackend.Path
import CoolBackend.Supply

/-!
From expressions to code, in the lexical context of one method or of one class's initializers.
Labels and literals are drawn in a fixed order, which the output shows: operands come before the
labels of the operator, arguments go from the last to the first and come before the receiver.
-/
namespace CoolBackend

/-- The surroundings of an expression. `planned` is the plan of its frame, at sites seen from the
expression; `locals` holds the visible `let` and `case` variables with their depths, innermost
first; `barrier` says whether stores into objects are reported to the collector. -/
structure Context where
  classes : ClassTable
  current : ClassEntry
  file : Bytes := []
  formals : List Binder := []
  planned : BindingSite → Option Nat := fun _ => none
  locals : List (String × Nat) := []
  barrier : Bool := false

namespace Context

def bind (ctx : Context) (name : String) (depth : Nat) : Context :=
  { ctx with locals := (name, depth) :: ctx.locals }

def part (ctx : Context) (k : Nat) : Context :=
  { ctx with planned := fun site => ctx.planned (site.under k) }

def depthOf (ctx : Context) (i : Nat) (b : Binder) : Except InternalError Nat :=
  match ctx.planned ⟨[], i⟩ with
  | some depth => .ok depth
  | none => .error (.noPlannedSlot b.span.start.line)

def resolve (ctx : Context) (name : String) : Scope → Except InternalError Location
  | .attr => Location.ofAttribute ctx.current.name (ctx.classes.slots ctx.current) name
  | .formal => Location.ofFormal ctx.formals name
  | .localVar =>
    match ctx.locals.lookup name with
    | some depth => .ok (Location.ofDepth depth)
    | none => .error (.unboundLocal name)
  | scope => .error (.unknownScope name scope)

/-- The class of a static type; the class being compiled where the type is unknown or that of the
receiver. -/
def staticClass (ctx : Context) (type : String) : Except InternalError ClassEntry :=
  if type = selfType || type = "" then .ok ctx.current else ctx.classes.require type

/-- The class in which a call is looked up: the one that it names, else that of its receiver. A
receiver needs a class also where the call names one. -/
def target (ctx : Context) (receiver : Expr) (staticClass : String) :
    Except InternalError ClassEntry := do
  let dynamic ← (if receiver.isAbsent then .ok ctx.current
    else ctx.staticClass receiver.staticType : Except InternalError ClassEntry)
  if staticClass = "" then .ok dynamic else ctx.classes.require staticClass

def slotOf (ctx : Context) (target : ClassEntry) (method : String) : Except InternalError Nat :=
  match (ctx.classes.methodSlot? target.tag method).1 with
  | some slot => .ok slot
  | none => .error (.noMethod target.name method)

/-- A store, which is reported to the collector if it goes into an object. -/
def store (ctx : Context) (value : Code) (target : Location) : Code :=
  .storeVar value target (ctx.barrier && target.base = .receiver)

def fileLabel (ctx : Context) : LowerM String :=
  LowerM.string (if ctx.file.isEmpty then Bytes.ofText "<unknown>" else Path.baseBytes ctx.file)

def site (ctx : Context) (stem : String) (info : Info) : LowerM Site := do
  let label ← LowerM.newLabel stem
  let file ← ctx.fileLabel
  return { label, file, line := info.span.start.line }

end Context

/-- What a variable without initializer starts with: the zero of a basic type, else void. -/
def defaultValue (type : String) : LowerM Code :=
  if type = Builtin.intName then return .loadLiteral (← LowerM.int 0)
  else if type = Builtin.boolName then return .loadLiteral (Literal.boolLabel false)
  else if type = Builtin.stringName then return .loadLiteral (← LowerM.string [])
  else return .loadVoid

def ArithOp.mnemonic : ArithOp → Except InternalError String
  | add => .ok "add"
  | sub => .ok "sub"
  | mul => .ok "mul"
  | div => .ok "div"
  | other code => .error (.unknownOperator code)

def RelOp.mnemonic : RelOp → String
  | lessEq => "ble"
  | less | other _ => "blt"

mutual

def Expr.lower : Expr → Context → LowerM Code
  | .absent, _ => throw .missingExpression
  | .constant _ value, _ => return .loadLiteral (← LowerM.constant value)
  | .ident _ name scope, ctx =>
    if name = selfName then return .loadSelf
    else return .loadVar (← ofExcept (ctx.resolve name scope))
  | .assign _ name scope value, ctx => do
    let value ← value.lower (ctx.part 0)
    return ctx.store value (← ofExcept (ctx.resolve name scope))
  | .unary _ .negate operand, ctx => return .negate (← operand.lower (ctx.part 0))
  | .unary _ .not operand, ctx => do
    let operand ← operand.lower (ctx.part 0)
    return .predicate .not operand (← LowerM.newLabel "not")
  | .unary _ .isVoid operand, ctx => do
    let operand ← operand.lower (ctx.part 0)
    return .predicate .isVoid operand (← LowerM.newLabel "isvoid")
  | .binary _ (.arith op) left right, ctx => do
    let mnemonic ← ofExcept op.mnemonic
    let left ← left.lower (ctx.part 0)
    let right ← right.lower (ctx.part 1)
    return .arithmetic mnemonic left right
  | .binary _ (.compare op) left right, ctx => do
    let left ← left.lower (ctx.part 0)
    let right ← right.lower (ctx.part 1)
    return .compare op.mnemonic left right (← LowerM.newLabel "compare")
  | .binary _ .equal left right, ctx => do
    let left ← left.lower (ctx.part 0)
    let right ← right.lower (ctx.part 1)
    return .equality left right (← LowerM.newLabel "eq")
  | .cond _ test yes no, ctx => do
    let test ← test.lower (ctx.part 0)
    let yes ← yes.lower (ctx.part 1)
    let no ← no.lower (ctx.part 2)
    let elseLabel ← LowerM.newLabel "else"
    let endLabel ← LowerM.newLabel "endif"
    return .cond test yes no elseLabel endLabel
  | .loop _ test body, ctx => do
    let test ← test.lower (ctx.part 0)
    let body ← body.lower (ctx.part 1)
    let loopLabel ← LowerM.newLabel "while"
    let endLabel ← LowerM.newLabel "pool"
    return .loop test body loopLabel endLabel
  | .block _ exprs, ctx => return .sequence (← lowerAll exprs 0 ctx)
  | .letIn _ bindings body, ctx => do
    let (stores, inner) ← lowerBindings bindings 0 ctx
    return .letIn stores (← body.lower (inner.part bindings.length))
  | .caseOf info scrutinee branches, ctx => do
    let scrutinee ← scrutinee.lower (ctx.part 0)
    let site ← ctx.site "case" info
    let endLabel ← LowerM.newLabel "esac"
    let (tests, branches) ← lowerBranches branches 0 ctx
    return .caseOf scrutinee site tests branches endLabel
  | .new _ className, ctx =>
    if className = selfType then return .newSelf
    else return .newObject (← ofExcept (ctx.classes.require className)).name
  | .dispatch info receiver staticClass method args, ctx => do
    let args ← lowerArgs args 1 ctx
    let code ← (if receiver.isAbsent then pure .loadSelf else receiver.lower (ctx.part 0) :
      LowerM Code)
    let target ← ofExcept (ctx.target receiver staticClass)
    let slot ← ofExcept (ctx.slotOf target method)
    let site ← ctx.site "dispatch" info
    let table := if staticClass = "" then none else some target.name
    return .dispatch args code table (slot * wordSize) site

def lowerAll : List Expr → Nat → Context → LowerM (List Code)
  | [], _, _ => return []
  | e :: rest, k, ctx => do
    let code ← e.lower (ctx.part k)
    return code :: (← lowerAll rest (k + 1) ctx)

def lowerArgs : List Expr → Nat → Context → LowerM (List Code)
  | [], _, _ => return []
  | e :: rest, k, ctx => do
    let pushed ← lowerArgs rest (k + 1) ctx
    return pushed ++ [← e.lower (ctx.part k)]

/-- The stores that initialize `let` variables from variable `i` on, each seeing those before it,
and the context that the body is a part of. -/
def lowerBindings : List (Binder × Expr) → Nat → Context → LowerM (List Code × Context)
  | [], _, ctx => return ([], ctx)
  | (b, init) :: rest, i, ctx => do
    let value ← (if init.isAbsent then defaultValue b.type else init.lower (ctx.part i) :
      LowerM Code)
    let depth ← ofExcept (ctx.depthOf i b)
    let store := ctx.store value (Location.ofDepth depth)
    let (stores, inner) ← lowerBindings rest (i + 1) (ctx.bind b.name depth)
    return (store :: stores, inner)

/-- The tag tests and the bodies of `case` branches from branch `i` on. A branch takes every class
that conforms to its type. -/
def lowerBranches : List (Binder × Expr) → Nat → Context →
    LowerM (List (Nat × String) × List (BranchHead × Code))
  | [], _, _ => return ([], [])
  | (b, body) :: rest, i, ctx => do
    let label ← LowerM.newLabel "branch"
    let c ← ofExcept (ctx.classes.require b.type)
    let depth ← ofExcept (ctx.depthOf i b)
    let code ← body.lower ((ctx.bind b.name depth).part (i + 1))
    let (tests, branches) ← lowerBranches rest (i + 1) ctx
    return ((ctx.classes.conformingTags c).map (·, label) ++ tests,
      ({ label, slot := Location.ofDepth depth }, code) :: branches)

end

end CoolBackend
