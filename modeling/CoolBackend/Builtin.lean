import CoolBackend.Syntax

/-!
Five classes whose methods live in the runtime system. They take the first tags, in this order.
-/
namespace CoolBackend

/-- An attribute as one class declares it. `raw` is the word that a built-in value slot holds in a
prototype object. -/
structure AttributeDecl where
  name : String
  type : String
  init : Expr := .absent
  raw : Option String := none

/-- A built-in class; the root has the empty parent name. -/
structure Builtin where
  name : String
  parent : String
  attributes : List AttributeDecl
  methods : List String

namespace Builtin

def objectName : String := "Object"
def ioName : String := "IO"
def intName : String := "Int"
def stringName : String := "String"
def boolName : String := "Bool"

def intTag : Nat := 2
def stringTag : Nat := 3
def boolTag : Nat := 4

/-- The type of a slot that holds a machine value and no object. -/
def slotType : String := "prim_slot"

def all : List Builtin :=
  [ { name := objectName, parent := "", attributes := [],
      methods := ["abort", "type_name", "copy"] },
    { name := ioName, parent := objectName, attributes := [],
      methods := ["out_string", "out_int", "in_string", "in_int"] },
    { name := intName, parent := objectName,
      attributes := [{ name := "_val", type := slotType, raw := some "0" }], methods := [] },
    { name := stringName, parent := objectName,
      attributes := [{ name := "_val", type := intName }, { name := "_str", type := slotType }],
      methods := ["length", "concat", "substr"] },
    { name := boolName, parent := objectName,
      attributes := [{ name := "_val", type := slotType, raw := some "0" }], methods := [] } ]

def isBuiltin (name : String) : Bool := all.any (·.name = name)

/-- The classes of unboxed values, which no class may extend. -/
def isValueClass (name : String) : Bool :=
  name = intName || name = stringName || name = boolName

end Builtin

def ClassDecl.parentName (c : ClassDecl) : String :=
  if c.parent = "" then Builtin.objectName else c.parent

end CoolBackend
