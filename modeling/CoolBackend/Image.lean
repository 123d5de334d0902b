import CoolBackend.Code
import CoolBackend.Literal.Escape
import CoolBackend.Options

/-!
Everything that one assembly file holds, before it becomes text: constants, tables indexed by tag,
prototype objects, dispatch tables, and the routines that initialize objects and implement methods.
-/
namespace CoolBackend

inductive PrototypeSlot where
  | word (value : String)
  | emptyString (length : String)
  deriving DecidableEq

structure Prototype where
  className : String
  tag : Nat
  words : Nat
  slots : List PrototypeSlot
  deriving DecidableEq

structure DispatchTable where
  className : String
  labels : List String
  deriving DecidableEq

structure AttributeStore where
  value : Code
  offset : Int
  barrier : Bool

structure InitRoutine where
  className : String
  parent : Option String
  frameWords : Nat
  stores : List AttributeStore

structure MethodRoutine where
  className : String
  method : String
  formals : Nat
  frameWords : Nat
  body : Code

structure Image where
  options : Options
  literals : List Literal
  classNames : List String
  prototypes : List Prototype
  dispatchTables : List DispatchTable
  inits : List InitRoutine
  methods : List MethodRoutine

open Assembly

def Literal.toValue : Literal → Value
  | int label value => .fragment "intLiteral"
      [("name", .text label), ("tag", .int Builtin.intTag), ("value", .int value.toInt)]
  | l@(string label value length) => .fragment "stringLiteral"
      [("name", .text label), ("tag", .int Builtin.stringTag), ("size", .int l.size),
        ("length", .text length), ("value", .text (escape value))]
  | bool label value => .fragment "boolLiteral"
      [("name", .text label), ("tag", .int Builtin.boolTag),
        ("value", .int (if value then 1 else 0))]

def PrototypeSlot.toValue : PrototypeSlot → Value
  | word value => .fragment "attrib" [("initVal", .text value)]
  | emptyString length => .fragment "attribString" [("length", .text length), ("value", .text "")]

def Prototype.toValue (p : Prototype) : Value :=
  .fragment "protObj" ([("className", .text p.className), ("classId", .int p.tag),
    ("classDim", .int p.words)] ++ p.slots.map fun slot => ("attribs", slot.toValue))

def wordOf (label : String) : String := "\t.word\t" ++ label

def DispatchTable.toValue (t : DispatchTable) : Value :=
  .fragment "dispatchTable" (("className", .text t.className) ::
    t.labels.map fun label => ("methods", .text (wordOf label)))

/-- Words of locals as bytes, where there are any. -/
def frameBindings (words : Nat) : List (String × Value) :=
  if words = 0 then [] else [("frame", .int (words * wordSize))]

def prologue (frameWords : Nat) : Value := .fragment "prologue" (frameBindings frameWords)

def epilogue (frameWords formals : Nat) : Value :=
  .fragment "epilogue" (("pop", .int (formalBase + wordSize * formals)) :: frameBindings frameWords)

def AttributeStore.toValue (s : AttributeStore) : Value :=
  .fragment "attrInit" ([("initExpr", s.value.toValue), ("offset", .int s.offset)] ++
    Code.barrierBindings s.barrier)

def InitRoutine.toValue (r : InitRoutine) : Value :=
  .fragment "init" ([("className", .text r.className), ("prologue", prologue r.frameWords),
    ("epilogue", epilogue r.frameWords 0)] ++
    (match r.parent with
      | some parent => [("parent", .text parent)]
      | none => []) ++
    r.stores.map fun store => ("attrInit", store.toValue))

def MethodRoutine.toValue (r : MethodRoutine) : Value :=
  .fragment "methodDeclare" [("className", .text r.className), ("methodName", .text r.method),
    ("prologue", prologue r.frameWords), ("body", r.body.toValue),
    ("epilogue", epilogue r.frameWords r.formals)]

namespace Image

def objectWordsOf (className : String) : String :=
  wordOf (className ++ "_protObj") ++ "\n" ++ wordOf (className ++ "_init")

def toFragment (image : Image) : Fragment where
  template := "program"
  bindings :=
    [("intTag", .int Builtin.intTag), ("boolTag", .int Builtin.boolTag),
      ("stringTag", .int Builtin.stringTag), ("gcInit", .text image.options.gc.initializer),
      ("gcCollect", .text image.options.gc.collector),
      ("gcTest", .int (if image.options.gcTest then 1 else 0))] ++
    image.classNames.map (fun label => ("classNames", .text (wordOf label))) ++
    image.prototypes.map (fun p => ("classObjects", .text (objectWordsOf p.className))) ++
    image.prototypes.map (fun p => ("protObjs", p.toValue)) ++
    image.dispatchTables.map (fun t => ("dispTabs", t.toValue)) ++
    image.inits.map (fun r => ("inits", r.toValue)) ++
    image.methods.map (fun r => ("methods", r.toValue)) ++
    image.literals.map (fun l => ("literalConsts", l.toValue)) ++
    Literal.bools.map (fun l => ("boolConsts", l.toValue))

end Image

end CoolBackend
