import CoolBackend.Assembly.Fragment
import CoolBackend.Assembly.Spim
import CoolBackend.Literal
import CoolBackend.Location

/-!
The tree between an expression and its assembly. Names are resolved to locations, labels and slots;
what is left of the source is its structure. Every node leaves its value in `$a0`.
-/
namespace CoolBackend

inductive Test where
  | not
  | isVoid
  deriving DecidableEq

def Test.template : Test → String
  | not => "not"
  | isVoid => "isvoid"

/-- The place where a void object is caught: the label behind the check, and the file and line that
the runtime system reports. -/
structure Site where
  label : String
  file : String
  line : Int64
  deriving DecidableEq

structure BranchHead where
  label : String
  slot : Location
  deriving DecidableEq

inductive Code where
  | loadLiteral (label : String)
  | loadVoid
  | loadSelf
  | loadVar (source : Location)
  | storeVar (value : Code) (target : Location) (barrier : Bool)
  | arithmetic (mnemonic : String) (left right : Code)
  | negate (operand : Code)
  | compare (mnemonic : String) (left right : Code) (label : String)
  | equality (left right : Code) (label : String)
  | predicate (kind : Test) (operand : Code) (label : String)
  | cond (test yes no : Code) (elseLabel endLabel : String)
  | loop (test body : Code) (loopLabel endLabel : String)
  | sequence (steps : List Code)
  | letIn (stores : List Code) (body : Code)
  | newObject (className : String)
  | newSelf
  | dispatch (args : List Code) (receiver : Code) (staticClass : Option String) (offset : Nat)
      (site : Site)
  | caseOf (scrutinee : Code) (site : Site) (tests : List (Nat × String))
      (branches : List (BranchHead × Code)) (endLabel : String)

namespace Code

open Assembly

def outcomeBindings (label : String) : List (String × Value) :=
  [("trueConst", .text Literal.trueLabel), ("falseConst", .text Literal.falseLabel),
    ("label", .text label)]

def siteBindings (site : Site) : List (String × Value) :=
  [("label", .text site.label), ("fileName", .text site.file), ("line", .int site.line.toInt)]

def barrierBindings (barrier : Bool) : List (String × Value) :=
  if barrier then [("gcAssign", .text "1")] else []

def sequenceOf (steps : List Value) : Value :=
  .fragment "sequence" (steps.map ("e", ·))

def caseTest (tag : Nat) (target : String) : Value :=
  .fragment "caseTest" [("tag", .int tag), ("target", .text target)]

mutual

def toValue : Code → Value
  | .loadLiteral label => .fragment "loadLiteral" [("value", .text label)]
  | .loadVoid => .fragment "loadVoid" []
  | .loadSelf => .fragment "loadSelf" []
  | .loadVar source =>
    .fragment "loadVar" [("offset", .int source.offset), ("base", .text source.base.register)]
  | .storeVar value target barrier =>
    .fragment "storeVar" ([("expr", value.toValue), ("offset", .int target.offset),
      ("base", .text target.base.register)] ++ barrierBindings barrier)
  | .arithmetic mnemonic left right =>
    .fragment "arithmetic" [("leftExpr", left.toValue), ("rightExpr", right.toValue),
      ("op", .text mnemonic)]
  | .negate operand => .fragment "negate" [("expr", operand.toValue)]
  | .compare mnemonic left right label =>
    .fragment "compare" ([("leftExpr", left.toValue), ("rightExpr", right.toValue),
      ("op", .text mnemonic)] ++ outcomeBindings label)
  | .equality left right label =>
    .fragment "equality" ([("leftExpr", left.toValue), ("rightExpr", right.toValue)] ++
      outcomeBindings label)
  | .predicate kind operand label =>
    .fragment kind.template (("expr", operand.toValue) :: outcomeBindings label)
  | .cond test yes no elseLabel endLabel =>
    .fragment "if" [("condExpr", test.toValue), ("thenExpr", yes.toValue),
      ("elseExpr", no.toValue), ("elseLabel", .text elseLabel), ("endLabel", .text endLabel)]
  | .loop test body loopLabel endLabel =>
    .fragment "while" [("condExpr", test.toValue), ("body", body.toValue),
      ("loopLabel", .text loopLabel), ("endLabel", .text endLabel)]
  | .sequence steps => sequenceOf (toValues steps)
  | .letIn stores body =>
    .fragment "let" [("inits", sequenceOf (toValues stores)), ("body", body.toValue)]
  | .newObject className => .fragment "new" [("className", .text className)]
  | .newSelf => .fragment "newSelfType" []
  | .dispatch args receiver staticClass offset site =>
    .fragment "dispatch" (
      (if args.isEmpty then [] else [("params", sequenceOf (toPushes args))]) ++
      [("receiver", receiver.toValue)] ++
      (match staticClass with
        | some c => [("staticClass", .text c)]
        | none => []) ++
      ("offset", .int offset) :: siteBindings site)
  | .caseOf scrutinee site tests branches endLabel =>
    .fragment "case" (
      ("expr", scrutinee.toValue) :: siteBindings site ++
      (if branches.isEmpty then [] else
        [("tests", sequenceOf (tests.map fun (tag, target) => caseTest tag target)),
          ("branches", sequenceOf (toBranches endLabel branches))]) ++
      [("endLabel", .text endLabel)])

def toValues : List Code → List Value
  | [] => []
  | c :: rest => c.toValue :: toValues rest

def toPushes : List Code → List Value
  | [] => []
  | c :: rest => .fragment "push" [("expr", c.toValue)] :: toPushes rest

def toBranches (endLabel : String) : List (BranchHead × Code) → List Value
  | [] => []
  | (head, body) :: rest =>
    .fragment "caseBranch" [("label", .text head.label), ("offset", .int head.slot.offset),
      ("body", body.toValue), ("endLabel", .text endLabel)] :: toBranches endLabel rest

end

end Code

end CoolBackend
