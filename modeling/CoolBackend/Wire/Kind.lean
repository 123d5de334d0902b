namespace CoolBackend.Wire

inductive Kind where
  | int
  | string
  | bool
  | ident
  | assign
  | arith
  | compare
  | equal
  | negate
  | not
  | isVoid
  | cond
  | loop
  | block
  | letIn
  | caseOf
  | new
  | dispatch
  deriving DecidableEq

namespace Kind

def name : Kind → String
  | int => "int"
  | string => "string"
  | bool => "bool"
  | ident => "id"
  | assign => "assign"
  | arith => "arith"
  | compare => "compare"
  | equal => "eq"
  | negate => "neg"
  | not => "not"
  | isVoid => "isvoid"
  | cond => "if"
  | loop => "while"
  | block => "block"
  | letIn => "let"
  | caseOf => "case"
  | new => "new"
  | dispatch => "dispatch"

def all : List Kind :=
  [int, string, bool, ident, assign, arith, compare, equal, negate, not, isVoid, cond, loop, block,
    letIn, caseOf, new, dispatch]

def ofName? (name : String) : Option Kind := all.find? (·.name = name)

theorem ofName?_name (kind : Kind) : ofName? kind.name = some kind := by
  cases kind <;> decide

end Kind

end CoolBackend.Wire
