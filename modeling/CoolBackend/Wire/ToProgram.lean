import CoolBackend.Text.Quoted
import CoolBackend.Wire.Kind
import CoolBackend.Wire.Record

/-!
Checks that records fit together: required expressions are there, operators have their operands, and
names of kinds, operators and scopes are known.
-/
namespace CoolBackend.Wire

/-- What is wrong with the record of an expression. A null among the bindings of an expression is
not a fault that anyone reports; it ends the reading. -/
inductive RecordError where
  | missingExpression
  | operands (kind : String) (line : Int64) (want got : Nat)
  | unknownKind (kind : String) (line : Int64)
  | unknownScope (name : String)
  | unknownArithmetic (symbol : String)
  | unknownComparison (symbol : String)
  | nullEntry
  deriving DecidableEq

def RecordError.message : RecordError → String
  | missingExpression => "missing expression"
  | operands kind line want got => s!"{kind} at line {line}: want {want} operands, got {got}"
  | unknownKind kind line => s!"unknown expression kind {Text.quoted kind} at line {line}"
  | unknownScope name => s!"unknown scope {Text.quoted name}"
  | unknownArithmetic symbol => s!"unknown arithmetic operator {Text.quoted symbol}"
  | unknownComparison symbol => s!"unknown comparison operator {Text.quoted symbol}"
  | nullEntry => "null entry"

def Pos.toSpan (p : Pos) : Span := Span.point p.line p.column

def Binder.toBinder (b : Binder) : CoolBackend.Binder := ⟨b.pos.toSpan, b.name, b.type⟩

def Fields.info (f : Fields) : Info := { span := f.pos.toSpan, type := f.type }

/-- The scope of a name; the empty name leaves it open. -/
def scopeOf (name : String) : Except RecordError Scope :=
  if name = "" then .ok .unknown
  else match [Scope.unknown, .attr, .formal, .localVar].find? (·.name = name) with
    | some scope => .ok scope
    | none => .error (.unknownScope name)

def arithmeticOf (symbol : String) : Except RecordError ArithOp :=
  match [ArithOp.add, .sub, .mul, .div].find? (·.symbol = symbol) with
  | some op => .ok op
  | none => .error (.unknownArithmetic symbol)

def comparisonOf (symbol : String) : Except RecordError RelOp :=
  match [RelOp.less, .lessEq].find? (·.symbol = symbol) with
  | some op => .ok op
  | none => .error (.unknownComparison symbol)

def Fields.wrongOperands {α : Type} (f : Fields) (want : Nat) (kids : List Expr) :
    Except RecordError α :=
  .error (.operands f.kind f.pos.line want kids.length)

def orAbsent (record : Expr) (read : Except RecordError CoolBackend.Expr) :
    Except RecordError CoolBackend.Expr :=
  if record.isNull then .ok .absent else read

mutual

def Expr.toExpr : Expr → Except RecordError CoolBackend.Expr
  | .null => .error .missingExpression
  | .node f receiver kids bindings =>
    match Kind.ofName? f.kind with
    | none => .error (.unknownKind f.kind f.pos.line)
    | some .int => return .constant f.info (.int f.int)
    | some .string => return .constant f.info (.string f.str)
    | some .bool => return .constant f.info (.bool f.bool)
    | some .ident => return .ident f.info f.name (← scopeOf f.scope)
    | some .new => return .new f.info f.className
    | some .block => return .block f.info (← toExprs kids)
    | some .dispatch => do
      let receiver ← orAbsent receiver receiver.toExpr
      return .dispatch f.info receiver f.className f.name (← toExprs kids)
    | some .letIn =>
      match kids with
      | [body] => do
        let body ← body.toExpr
        return .letIn f.info (← toBindings bindings) body
      | kids => f.wrongOperands 1 kids
    | some .caseOf =>
      match kids with
      | [scrutinee] => do
        let scrutinee ← scrutinee.toExpr
        return .caseOf f.info scrutinee (← toBranches bindings)
      | kids => f.wrongOperands 1 kids
    | some .assign =>
      match kids with
      | [value] => do
        let value ← value.toExpr
        return .assign f.info f.name (← scopeOf f.scope) value
      | kids => f.wrongOperands 1 kids
    | some .negate =>
      match kids with
      | [operand] => return .unary f.info .negate (← operand.toExpr)
      | kids => f.wrongOperands 1 kids
    | some .not =>
      match kids with
      | [operand] => return .unary f.info .not (← operand.toExpr)
      | kids => f.wrongOperands 1 kids
    | some .isVoid =>
      match kids with
      | [operand] => return .unary f.info .isVoid (← operand.toExpr)
      | kids => f.wrongOperands 1 kids
    | some .arith =>
      match kids with
      | [left, right] => do
        let left ← left.toExpr
        let right ← right.toExpr
        return .binary f.info (.arith (← arithmeticOf f.op)) left right
      | kids => f.wrongOperands 2 kids
    | some .compare =>
      match kids with
      | [left, right] => do
        let left ← left.toExpr
        let right ← right.toExpr
        return .binary f.info (.compare (← comparisonOf f.op)) left right
      | kids => f.wrongOperands 2 kids
    | some .equal =>
      match kids with
      | [left, right] => do
        let left ← left.toExpr
        return .binary f.info .equal left (← right.toExpr)
      | kids => f.wrongOperands 2 kids
    | some .loop =>
      match kids with
      | [test, body] => do
        let test ← test.toExpr
        return .loop f.info test (← body.toExpr)
      | kids => f.wrongOperands 2 kids
    | some .cond =>
      match kids with
      | [test, yes, no] => do
        let test ← test.toExpr
        let yes ← yes.toExpr
        return .cond f.info test yes (← no.toExpr)
      | kids => f.wrongOperands 3 kids

def toExprs : List Expr → Except RecordError (List CoolBackend.Expr)
  | [] => return []
  | e :: rest => do
    let e ← e.toExpr
    return e :: (← toExprs rest)

def toBindings : List (Option (Binder × Expr)) →
    Except RecordError (List (CoolBackend.Binder × CoolBackend.Expr))
  | [] => return []
  | none :: _ => .error .nullEntry
  | some (b, e) :: rest => do
    let e ← orAbsent e e.toExpr
    return (b.toBinder, e) :: (← toBindings rest)

def toBranches : List (Option (Binder × Expr)) →
    Except RecordError (List (CoolBackend.Binder × CoolBackend.Expr))
  | [] => return []
  | none :: _ => .error .nullEntry
  | some (b, e) :: rest => do
    let e ← e.toExpr
    return (b.toBinder, e) :: (← toBranches rest)

end

/-- What is wrong with a class. A null entry in one of its lists is not reported with a place. -/
inductive ClassError where
  | missingClass
  | inAttribute (className name : String) (error : RecordError)
  | inMethod (className name : String) (error : RecordError)
  | nullEntry
  deriving DecidableEq

def ClassError.message : ClassError → String
  | missingClass => "missing class"
  | inAttribute c a e => s!"attribute {c}.{a}: {e.message}"
  | inMethod c m e => s!"method {c}.{m}: {e.message}"
  | nullEntry => "null entry"

def inFeature (place : RecordError → ClassError) : RecordError → ClassError
  | .nullEntry => .nullEntry
  | e => place e

def toAttributes (className : String) : List (Option (Binder × Expr)) →
    Except ClassError (List (CoolBackend.Binder × CoolBackend.Expr))
  | [] => return []
  | none :: _ => .error .nullEntry
  | some (b, e) :: rest => do
    let e ← (orAbsent e e.toExpr).mapError (inFeature (.inAttribute className b.name))
    return (b.toBinder, e) :: (← toAttributes className rest)

def toFormals : List (Option Binder) → Except ClassError (List CoolBackend.Binder)
  | [] => return []
  | none :: _ => .error .nullEntry
  | some b :: rest => return b.toBinder :: (← toFormals rest)

def Method.toMethod (className : String) (m : Method) : Except ClassError MethodDecl := do
  let body ← m.body.toExpr.mapError (inFeature (.inMethod className m.name))
  return {
    span := m.pos.toSpan
    name := m.name
    formals := ← toFormals m.formals
    returnType := m.returnType
    body }

def toMethods (className : String) : List (Option Method) → Except ClassError (List MethodDecl)
  | [] => return []
  | none :: _ => .error .nullEntry
  | some m :: rest => do
    let m ← m.toMethod className
    return m :: (← toMethods className rest)

def Class.toClass (c : Class) : Except ClassError ClassDecl := do
  let attributes ← toAttributes c.name c.attributes
  return {
    span := c.pos.toSpan
    file := c.file
    name := c.name
    parent := c.parent
    attributes
    methods := ← toMethods c.name c.methods }

def toClasses (index : Nat) : List (Option Class) → Except (Nat × ClassError) (List ClassDecl)
  | [] => return []
  | none :: _ => .error (index, .missingClass)
  | some c :: rest => do
    let c ← c.toClass.mapError (index, ·)
    return c :: (← toClasses (index + 1) rest)

def Program.toProgram (p : Program) : Except (Nat × ClassError) CoolBackend.Program := do
  return { classes := ← toClasses 0 p.classes }

end CoolBackend.Wire
