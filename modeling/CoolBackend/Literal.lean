import CoolBackend.Syntax

/-!
Every distinct integer and string constant of a program is one object in its data section, known by
a label. The pool only grows: a label once given stays, and entries stand in the order of their
first request. A string's entry refers to the entry of its length, which stands before it.
-/
namespace CoolBackend

def wordSize : Nat := 4

/-- Words of an object header: tag, size, dispatch pointer. -/
def headerWords : Nat := 3

/-- Size in words of the object of a string of `n` bytes: the header, the pointer to the length, and
the bytes with a closing zero, padded to a word. The division rounds toward zero. -/
def stringWords (n : Int64) : Int64 :=
  Int64.ofNat headerWords + 1 + (n + Int64.ofNat wordSize) / Int64.ofNat wordSize

inductive Literal where
  | int (label : String) (value : Int32)
  | string (label : String) (value : Bytes) (length : String)
  | bool (label : String) (value : Bool)
  deriving DecidableEq

namespace Literal

def label : Literal → String
  | int label _ | string label _ _ | bool label _ => label

def size : Literal → Int
  | string _ value _ => (stringWords (Int64.ofNat value.length)).toInt
  | int _ _ | bool _ _ => headerWords + 1

def intPair? : Literal → Option (Int32 × String)
  | int label value => some (value, label)
  | _ => none

def stringPair? : Literal → Option (Bytes × String)
  | string label value _ => some (value, label)
  | _ => none

def falseLabel : String := "bool_const0"
def trueLabel : String := "bool_const1"

def bools : List Literal := [bool falseLabel false, bool trueLabel true]

def boolLabel (b : Bool) : String := if b then trueLabel else falseLabel

end Literal

/-- Integer and string constants in the order of their first request, the labels of either kind by
value, and how many of either kind there are. The maps and the counters agree with the entries. -/
structure LiteralPool where
  entries : List Literal
  ints : List (Int32 × String)
  strings : List (Bytes × String)
  nextInt : Nat
  nextString : Nat
  ints_eq : ints = entries.filterMap Literal.intPair?
  strings_eq : strings = entries.filterMap Literal.stringPair?
  nextInt_eq : nextInt = ints.length
  nextString_eq : nextString = strings.length
  deriving DecidableEq

namespace LiteralPool

def empty : LiteralPool where
  entries := []
  ints := []
  strings := []
  nextInt := 0
  nextString := 0
  ints_eq := rfl
  strings_eq := rfl
  nextInt_eq := rfl
  nextString_eq := rfl

def size (pool : LiteralPool) : Nat := pool.entries.length

def addInt (pool : LiteralPool) (label : String) (value : Int32) : LiteralPool where
  entries := pool.entries ++ [.int label value]
  ints := pool.ints ++ [(value, label)]
  strings := pool.strings
  nextInt := pool.nextInt + 1
  nextString := pool.nextString
  ints_eq := by rw [pool.ints_eq, List.filterMap_append]; rfl
  strings_eq := by rw [pool.strings_eq, List.filterMap_append]; exact (List.append_nil _).symm
  nextInt_eq := by rw [pool.nextInt_eq, List.length_append]; rfl
  nextString_eq := pool.nextString_eq

def addString (pool : LiteralPool) (label : String) (value : Bytes) (length : String) :
    LiteralPool where
  entries := pool.entries ++ [.string label value length]
  ints := pool.ints
  strings := pool.strings ++ [(value, label)]
  nextInt := pool.nextInt
  nextString := pool.nextString + 1
  ints_eq := by rw [pool.ints_eq, List.filterMap_append]; exact (List.append_nil _).symm
  strings_eq := by rw [pool.strings_eq, List.filterMap_append]; rfl
  nextInt_eq := pool.nextInt_eq
  nextString_eq := by rw [pool.nextString_eq, List.length_append]; rfl

/-- The label of an integer constant, which joins the pool on its first request. -/
def int (pool : LiteralPool) (value : Int32) : String × LiteralPool :=
  match pool.ints.lookup value with
  | some label => (label, pool)
  | none =>
    let label := s!"int_const{pool.nextInt}"
    (label, pool.addInt label value)

/-- The label of a string constant, which joins the pool after its length on its first request. -/
def string (pool : LiteralPool) (value : Bytes) : String × LiteralPool :=
  match pool.strings.lookup value with
  | some label => (label, pool)
  | none =>
    let (length, pool) := pool.int (Int32.ofNat value.length)
    let label := s!"str_const{pool.nextString}"
    (label, pool.addString label value length)

end LiteralPool

end CoolBackend
