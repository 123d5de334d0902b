import CoolBackend.Wire.Kind
import CoolBackend.Wire.Record

/-!
What the record form cannot hold is lost: the ends and offsets of spans, and codes of operators and
scopes that have no name of their own.
-/
namespace CoolBackend.Wire

def Pos.ofSpan (span : Span) : Pos := ⟨span.start.line, span.start.column⟩

def Binder.ofBinder (b : CoolBackend.Binder) : Binder := ⟨Pos.ofSpan b.span, b.name, b.type⟩

def Fields.of (kind : Kind) (info : Info) : Fields :=
  { kind := kind.name, type := info.type, pos := Pos.ofSpan info.span }

def UnaryOp.kind : UnaryOp → Kind
  | .negate => .negate
  | .not => .not
  | .isVoid => .isVoid

def BinaryOp.fields (info : Info) : BinaryOp → Fields
  | .arith op => { Fields.of .arith info with op := op.symbol }
  | .compare op => { Fields.of .compare info with op := op.symbol }
  | .equal => Fields.of .equal info

def Constant.fields (info : Info) : Constant → Fields
  | .int value => { Fields.of .int info with int := value }
  | .string value => { Fields.of .string info with str := value }
  | .bool value => { Fields.of .bool info with bool := value }

mutual

def ofExpr : CoolBackend.Expr → Expr
  | .absent => .null
  | .constant info value => .node (Constant.fields info value) .null [] []
  | .ident info name scope =>
    .node { Fields.of .ident info with name, scope := scope.name } .null [] []
  | .assign info name scope value =>
    .node { Fields.of .assign info with name, scope := scope.name } .null [ofExpr value] []
  | .unary info op operand => .node (Fields.of (UnaryOp.kind op) info) .null [ofExpr operand] []
  | .binary info op left right =>
    .node (BinaryOp.fields info op) .null [ofExpr left, ofExpr right] []
  | .cond info test yes no =>
    .node (Fields.of .cond info) .null [ofExpr test, ofExpr yes, ofExpr no] []
  | .loop info test body => .node (Fields.of .loop info) .null [ofExpr test, ofExpr body] []
  | .block info exprs => .node (Fields.of .block info) .null (ofExprs exprs) []
  | .letIn info bindings body =>
    .node (Fields.of .letIn info) .null [ofExpr body] (ofBindings bindings)
  | .caseOf info scrutinee branches =>
    .node (Fields.of .caseOf info) .null [ofExpr scrutinee] (ofBindings branches)
  | .new info className => .node { Fields.of .new info with className } .null [] []
  | .dispatch info receiver staticClass method args =>
    .node { Fields.of .dispatch info with name := method, className := staticClass }
      (ofExpr receiver) (ofExprs args) []

def ofExprs : List CoolBackend.Expr → List Expr
  | [] => []
  | e :: rest => ofExpr e :: ofExprs rest

def ofBindings : List (CoolBackend.Binder × CoolBackend.Expr) → List (Option (Binder × Expr))
  | [] => []
  | (b, e) :: rest => some (Binder.ofBinder b, ofExpr e) :: ofBindings rest

end

def Method.ofMethod (m : MethodDecl) : Method :=
  { pos := Pos.ofSpan m.span
    name := m.name
    formals := m.formals.map fun f => some (Binder.ofBinder f)
    returnType := m.returnType
    body := ofExpr m.body }

def Class.ofClass (c : ClassDecl) : Class :=
  { pos := Pos.ofSpan c.span
    file := c.file
    name := c.name
    parent := c.parent
    attributes := ofBindings c.attributes
    methods := c.methods.map fun m => some (Method.ofMethod m) }

def Program.ofProgram (p : CoolBackend.Program) : Program :=
  { classes := p.classes.map fun c => some (Class.ofClass c) }

end CoolBackend.Wire
