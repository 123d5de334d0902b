import CoolBackend.Syntax

/-!
The form in which programs travel: one record type for all expressions, whose fields have a meaning
only for some kinds. Any entry of a list, and any expression, can be null.
-/
namespace CoolBackend.Wire

structure Pos where
  line : Int64 := 0
  column : Int64 := 0
  deriving DecidableEq

structure Binder where
  pos : Pos := {}
  name : String := ""
  type : String := ""
  deriving DecidableEq

structure Fields where
  kind : String := ""
  type : String := ""
  pos : Pos := {}
  int : Int32 := 0
  str : Bytes := []
  bool : Bool := false
  name : String := ""
  scope : String := ""
  op : String := ""
  className : String := ""
  deriving DecidableEq

/-- An expression: its operands are in `kids`; `bindings` holds the variables of a `let` with their
initializers, or those of a `case` with their branches. -/
inductive Expr where
  | null
  | node (fields : Fields) (receiver : Expr) (kids : List Expr)
      (bindings : List (Option (Binder × Expr)))

def Expr.isNull : Expr → Bool
  | .null => true
  | .node _ _ _ _ => false

structure Method where
  pos : Pos := {}
  name : String := ""
  formals : List (Option Binder) := []
  returnType : String := ""
  body : Expr := .null

structure Class where
  pos : Pos := {}
  file : Bytes := []
  name : String := ""
  parent : String := ""
  attributes : List (Option (Binder × Expr)) := []
  methods : List (Option Method) := []

structure Program where
  classes : List (Option Class) := []

end CoolBackend.Wire
