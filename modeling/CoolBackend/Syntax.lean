import CoolBackend.Text.Bytes

/-!
A type-checked COOL program as its front end hands it over: every expression carries a static type,
every variable the kind of scope that introduced it. The front end is not trusted. An expression may
be missing anywhere, and a code for a scope or an operator may be one that has no meaning.
-/
namespace CoolBackend

/-- The type that names the dynamic class of the receiver. -/
def selfType : String := "SELF_TYPE"

def selfName : String := "self"

structure Position where
  offset : Int64 := 0
  line : Int64 := 0
  column : Int64 := 0
  deriving DecidableEq

structure Span where
  start : Position := {}
  stop : Position := {}
  deriving DecidableEq

def Span.point (line column : Int64) : Span :=
  let here : Position := { line, column }
  ⟨here, here⟩

/-- What introduced a variable: a class, a method's parameters, or a `let` or `case`. -/
inductive Scope where
  | unknown
  | attr
  | formal
  | localVar
  | other (code : Int)
  deriving DecidableEq

namespace Scope

def ofCode : Int → Scope
  | 0 => unknown
  | 1 => attr
  | 2 => formal
  | 3 => localVar
  | code => other code

def name : Scope → String
  | attr => "attribute"
  | formal => "formal"
  | localVar => "local"
  | unknown | other _ => "unknown"

end Scope

inductive ArithOp where
  | add
  | sub
  | mul
  | div
  | other (code : Int)
  deriving DecidableEq

namespace ArithOp

def ofCode : Int → ArithOp
  | 0 => add
  | 1 => sub
  | 2 => mul
  | 3 => div
  | code => other code

def symbol : ArithOp → String
  | add => "+"
  | sub => "-"
  | mul => "*"
  | div => "/"
  | other _ => "?"

end ArithOp

/-- Ordered comparison. Every code but that of `lessEq` compares strictly. -/
inductive RelOp where
  | less
  | lessEq
  | other (code : Int)
  deriving DecidableEq

namespace RelOp

def ofCode : Int → RelOp
  | 0 => less
  | 1 => lessEq
  | code => other code

def symbol : RelOp → String
  | lessEq => "<="
  | less | other _ => "<"

end RelOp

inductive UnaryOp where
  | negate
  | not
  | isVoid
  deriving DecidableEq

inductive BinaryOp where
  | arith (op : ArithOp)
  | compare (op : RelOp)
  | equal
  deriving DecidableEq

inductive Constant where
  | int (value : Int32)
  | string (value : Bytes)
  | bool (value : Bool)
  deriving DecidableEq

structure Info where
  span : Span := {}
  type : String := ""
  deriving DecidableEq

/-- A declared name with its type: an attribute, a formal, a `let` variable or a `case` branch. -/
structure Binder where
  span : Span := {}
  name : String
  type : String
  deriving DecidableEq

/-- Expressions. `absent` fills the place of an expression that is not there: an initializer that
was left out, the receiver of a call on `self`, or a required operand that the front end lost.
A `let` variable is visible in the initializers after its own and in the body; the variable of a
`case` branch is visible in that branch. -/
inductive Expr where
  | absent
  | constant (info : Info) (value : Constant)
  | ident (info : Info) (name : String) (scope : Scope)
  | assign (info : Info) (name : String) (scope : Scope) (value : Expr)
  | unary (info : Info) (op : UnaryOp) (operand : Expr)
  | binary (info : Info) (op : BinaryOp) (left right : Expr)
  | cond (info : Info) (test yes no : Expr)
  | loop (info : Info) (test body : Expr)
  | block (info : Info) (exprs : List Expr)
  | letIn (info : Info) (bindings : List (Binder × Expr)) (body : Expr)
  | caseOf (info : Info) (scrutinee : Expr) (branches : List (Binder × Expr))
  | new (info : Info) (className : String)
  | dispatch (info : Info) (receiver : Expr) (staticClass method : String) (args : List Expr)

namespace Expr

def info : Expr → Info
  | absent => {}
  | constant info _ => info
  | ident info _ _ => info
  | assign info _ _ _ => info
  | unary info _ _ => info
  | binary info _ _ _ => info
  | cond info _ _ _ => info
  | loop info _ _ => info
  | block info _ => info
  | letIn info _ _ => info
  | caseOf info _ _ => info
  | new info _ => info
  | dispatch info _ _ _ _ => info

def staticType (e : Expr) : String := e.info.type

def isAbsent : Expr → Bool
  | absent => true
  | _ => false

end Expr

structure MethodDecl where
  span : Span := {}
  name : String
  formals : List Binder
  returnType : String
  body : Expr

/-- A class of the program. An empty parent name stands for `Object`. -/
structure ClassDecl where
  span : Span := {}
  file : Bytes := []
  name : String
  parent : String := ""
  attributes : List (Binder × Expr) := []
  methods : List MethodDecl := []

structure Program where
  classes : List ClassDecl := []

end CoolBackend
