import CoolBackend.Syntax

/-!
What can go wrong between a program and its assembly. Each cause is a promise of the front end that
the program did not keep.
-/
namespace CoolBackend

inductive InternalError where
  | definedTwice (className : String)
  | namedSelfType
  | undefinedParent (className parent : String)
  | rootCount (roots : Nat)
  | inheritanceCycle (className : String)
  | noLayout (className : String)
  | noAttribute (className name : String)
  | noFormal (name : String)
  | unboundLocal (name : String)
  | noPlannedSlot (line : Int64)
  | unknownScope (name : String) (scope : Scope)
  | unknownOperator (code : Int)
  | noMethod (className method : String)
  | missingExpression
  deriving DecidableEq

namespace InternalError

def cause : InternalError → String
  | definedTwice c => s!"class {c} defined twice"
  | namedSelfType => s!"class named {selfType}"
  | undefinedParent c p => s!"class {c} inherits from undefined class {p}"
  | rootCount n => s!"class hierarchy has {n} roots, want 1"
  | inheritanceCycle c => s!"inheritance cycle through class {c}"
  | noLayout c => s!"no layout for class {c}"
  | noAttribute c a => s!"class {c} has no attribute {a}"
  | noFormal f => s!"no formal named {f}"
  | unboundLocal x => s!"local {x} is not bound"
  | noPlannedSlot line => s!"binding at line {line} has no planned slot"
  | unknownScope x scope => s!"identifier {x} has unrecognized scope kind {scope.name}"
  | unknownOperator code => s!"unknown arithmetic operator {code}"
  | noMethod c m => s!"class {c} has no method {m}"
  | missingExpression => "missing expression"

def message (e : InternalError) : String := "internal error: " ++ e.cause

end InternalError

end CoolBackend
