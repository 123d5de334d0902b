import CoolBackend.Syntax

/-!
What the verifier finds, and the words in which it says so.
-/
namespace CoolBackend.Verify

inductive Complaint where
  | namedSelfType
  | redefinesBuiltin (className : String)
  | alreadyDefined (className : String) (line : Int64)
  | undefinedParent (className parent : String)
  | forbiddenParent (className parent : String)
  | inheritanceCycle (className : String)
  | noMain
  | noMainMethod
  | attributeTwice (name className : String)
  | attributeSelf
  | attributeInherited (name : String)
  | undefinedType (type : String)
  | methodTwice (name className : String)
  | formalTwice (name : String)
  | noBody (className method : String)
  | noAttribute (className name : String)
  | notFormal (name : String)
  | unboundLocal (name : String)
  | unclassified (name : String)
  | assignSelf
  | emptyBlock
  | emptyCase
  | unreachable (type earlier : String)
  | undefinedStatic (className : String)
  | undefinedReceiver (type : String)
  | noMethod (className method : String)
  deriving DecidableEq

namespace Complaint

/-- A branch that is never taken does no harm. All else does. -/
def isWarning : Complaint → Bool
  | unreachable _ _ => true
  | _ => false

def text : Complaint → String
  | namedSelfType => s!"class cannot be named {selfType}"
  | redefinesBuiltin c => s!"cannot redefine built-in class {c}"
  | alreadyDefined c line => s!"class {c} is already defined at line {line}"
  | undefinedParent c p => s!"class {c} inherits from undefined class {p}"
  | forbiddenParent c p => s!"class {c} cannot inherit from {p}"
  | inheritanceCycle c => s!"inheritance cycle through class {c}"
  | noMain => "class Main is not defined"
  | noMainMethod => "class Main has no method main"
  | attributeTwice a c => s!"attribute {a} is declared twice in class {c}"
  | attributeSelf => s!"attribute cannot be named {selfName}"
  | attributeInherited a => s!"attribute {a} redefines an inherited attribute"
  | undefinedType t => s!"undefined type {t}"
  | methodTwice m c => s!"method {m} is declared twice in class {c}"
  | formalTwice f => s!"formal {f} is declared twice"
  | noBody c m => s!"method {c}.{m} has no body"
  | noAttribute c a => s!"class {c} has no attribute {a}"
  | notFormal f => s!"{f} is not a formal of the enclosing method"
  | unboundLocal x => s!"local {x} is not bound"
  | unclassified x => s!"identifier {x} has no scope classification"
  | assignSelf => s!"cannot assign to {selfName}"
  | emptyBlock => "empty block"
  | emptyCase => "case has no branches"
  | unreachable t earlier => s!"branch {t} is unreachable after branch {earlier}"
  | undefinedStatic c => s!"undefined class {c} in static dispatch"
  | undefinedReceiver t => s!"dispatch on undefined type {t}"
  | noMethod c m => s!"class {c} has no method {m}"

end Complaint

/-- A complaint, with the place it is about unless it is about the whole program. -/
structure Diagnostic where
  position : Option Position
  complaint : Complaint
  deriving DecidableEq

namespace Diagnostic

def on (span : Span) (complaint : Complaint) : Diagnostic := ⟨some span.start, complaint⟩

def isWarning (d : Diagnostic) : Bool := d.complaint.isWarning

def message (d : Diagnostic) : String :=
  (if d.isWarning then "warning: " else "") ++
  (match d.position with
    | some p => s!"line {p.line}, column {p.column}: "
    | none => "") ++
  d.complaint.text

end Diagnostic

end CoolBackend.Verify
