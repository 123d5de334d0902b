import CoolBackend.InternalError
import CoolBackend.Literal

/-!
What lowering draws from: a counter that makes labels unique, and the literal pool. What was drawn
stays drawn when lowering fails afterwards.
-/
namespace CoolBackend

structure Supply where
  literals : LiteralPool := .empty
  labels : Nat := 0
  deriving DecidableEq

namespace Supply

def newLabel (supply : Supply) (stem : String) : String × Supply :=
  (s!"{stem}{supply.labels}", { supply with labels := supply.labels + 1 })

def int (supply : Supply) (value : Int32) : String × Supply :=
  let (label, literals) := supply.literals.int value
  (label, { supply with literals })

def string (supply : Supply) (value : Bytes) : String × Supply :=
  let (label, literals) := supply.literals.string value
  (label, { supply with literals })

end Supply

abbrev LowerM := EStateM InternalError Supply

namespace LowerM

def newLabel (stem : String) : LowerM String := modifyGet (·.newLabel stem)

def int (value : Int32) : LowerM String := modifyGet (·.int value)

def string (value : Bytes) : LowerM String := modifyGet (·.string value)

/-- The label of a constant. The booleans are not in the pool. -/
def constant : Constant → LowerM String
  | .int value => int value
  | .string value => string value
  | .bool value => pure (Literal.boolLabel value)

end LowerM

end CoolBackend
