import CoolBackend.ClassTable.Layout

/-!
Where a variable lives at run time: a base register and an offset in bytes. Attributes lie in the
receiver's object. Formals and locals lie in the frame, on both sides of the saved registers.
-/
namespace CoolBackend

inductive Base where
  | receiver
  | frame
  deriving DecidableEq

namespace Base

def ofCode (code : Int) : Base := if code = 0 then receiver else frame

def register : Base → String
  | receiver => "$s0"
  | frame => "$fp"

end Base

structure Location where
  base : Base
  offset : Int
  deriving DecidableEq

/-- Frame offset of the first formal. Below it lie the saved `$ra`, `$s0` and `$fp`. -/
def formalBase : Nat := 12

namespace Location

def ofAttribute (className : String) (slots : List AttributeSlot) (name : String) :
    Except InternalError Location :=
  match slots.find? (·.name = name) with
  | some slot => .ok ⟨.receiver, slot.offset⟩
  | none => .error (.noAttribute className name)

/-- A formal by the position of its first declaration. Arguments are pushed last to first, so that
the first formal is nearest to the frame. -/
def ofFormal (formals : List Binder) (name : String) : Except InternalError Location :=
  match formals.findIdx? (·.name = name) with
  | some i => .ok ⟨.frame, formalBase + wordSize * i⟩
  | none => .error (.noFormal name)

/-- A local by its depth: the words that its scope needs beneath it. -/
def ofDepth (depth : Int) : Location := ⟨.frame, -wordSize * (depth + 1)⟩

end Location

def ClassTable.attributeLocation (c : ClassEntry) (name : String) : TableM Location := do
  let slots ← modifyGet (·.attributes c.tag)
  ofExcept (Location.ofAttribute c.name slots name)

end CoolBackend
