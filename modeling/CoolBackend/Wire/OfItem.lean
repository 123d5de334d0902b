import CoolBackend.Cbor.Parse
import CoolBackend.Wire.Record

/-!
Reading is tolerant. Entries may come in any order, names may differ in case, unknown entries are
passed over, null stands for a value that holds nothing, and most tags are ignored.
-/
namespace CoolBackend.Wire

open Cbor

/-- Whether a tag fits what it is on: texts for date strings, numbers for times, byte strings for
large integers. Any other tag fits everything. -/
def tagFits (number : Nat) (content : Item) : Bool :=
  match number, content with
  | 0, .text _ => true
  | 1, .uint _ | 1, .negative _ | 1, .float _ => true
  | 2, .bytes _ | 3, .bytes _ => true
  | number, _ => 3 < number

/-- The tag that says no more than that the item is CBOR. -/
def selfDescribed : Nat := 55799

/-- An item without the tags on it, but for those of large integers. -/
def untag : Item → Except Fault Item
  | .tag number content =>
    if number = selfDescribed then untag content
    else if !tagFits number content then .error .badTag
    else if number = 2 || number = 3 then .ok (.tag number content)
    else untag content
  | item => .ok item

/-- The content of a text; null is the empty text. -/
def readBytes (item : Item) : Except Fault Bytes := do
  match ← untag item with
  | .text chunks =>
    if chunks.all (·.toText?.isSome) then return chunks.flatten else throw .badText
  | item => if item.isNull then return [] else throw .wrongKind

def readText (item : Item) : Except Fault String := do
  match (← readBytes item).toText? with
  | some s => return s
  | none => throw .badText

/-- A number between two bounds; null is zero. Unassigned simple values stand for their number. -/
def readInt (low high : Int) (item : Item) : Except Fault Int := do
  let n : Int ← match ← untag item with
    | .uint n => pure ↑n
    | .negative n => pure (-1 - ↑n)
    | .tag 2 (.bytes content) => pure ↑(ofBigEndian content)
    | .tag 3 (.bytes content) => pure (-1 - ↑(ofBigEndian content))
    | .simple n =>
      if n = 20 || n = 21 then throw .wrongKind
      else if n = 22 || n = 23 then pure 0
      else pure ↑n
    | _ => throw .wrongKind
  if low ≤ n && n ≤ high then return n else throw .outOfRange

def readInt64 (item : Item) : Except Fault Int64 :=
  Int64.ofInt <$> readInt Int64.minValue.toInt Int64.maxValue.toInt item

def readInt32 (item : Item) : Except Fault Int32 :=
  Int32.ofInt <$> readInt Int32.minValue.toInt Int32.maxValue.toInt item

def readBool (item : Item) : Except Fault Bool := do
  match ← untag item with
  | .simple 20 => return false
  | .simple 21 => return true
  | item => if item.isNull then return false else throw .wrongKind

/-- The elements of an array; null is the empty list. -/
def readList {α : Type} (read : Item → Except Fault α) (item : Item) : Except Fault (List α) := do
  match ← untag item with
  | .array items => items.mapM read
  | item => if item.isNull then return [] else throw .wrongKind

/-- A record, or none for a null without tags. -/
def readEntry {α : Type} (read : Item → Except Fault α) (item : Item) : Except Fault (Option α) :=
  if item.isNull then .ok none else some <$> read item

def lowerCase (b : UInt8) : UInt8 := if 0x41 ≤ b && b ≤ 0x5a then b + 0x20 else b

/-- The field that a key means: the one of that name, else one whose name differs in case only. -/
def fieldFor? (names : List String) (key : Bytes) : Option String :=
  (names.find? (Bytes.ofText · = key)).or
    (names.find? fun name => (Bytes.ofText name).map lowerCase = key.map lowerCase)

/-- The values of known fields. The first entry for a field counts; entries for numbers and unknown
names are passed over. -/
def matchFields : List String → List (Item × Item) → Except Fault (List (String × Item))
  | _, [] => .ok []
  | names, (key, value) :: rest =>
    match key with
    | .text chunks =>
      if !chunks.all (·.toText?.isSome) then .error .badText
      else match fieldFor? names chunks.flatten with
        | some name => do return (name, value) :: (← matchFields (names.erase name) rest)
        | none => matchFields names rest
    | .uint _ => matchFields names rest
    | .negative n => if n < 1 <<< 63 then matchFields names rest else .error .badKey
    | _ => .error .badKey

def readFields (names : List String) (item : Item) : Except Fault (List (String × Item)) := do
  match ← untag item with
  | .map entries => matchFields names entries
  | item => if item.isNull then return [] else throw .wrongKind

/-- The value of a field, or `default` if it was not given. -/
def field {α : Type} (fields : List (String × Item)) (name : String)
    (read : Item → Except Fault α) (default : α) : Except Fault α :=
  match fields.lookup name with
  | some item => read item
  | none => .ok default

def readPos (item : Item) : Except Fault Pos := do
  let fields ← readFields ["line", "col"] item
  return { line := ← field fields "line" readInt64 0, column := ← field fields "col" readInt64 0 }

def binderOf (fields : List (String × Item)) : Except Fault Binder := do
  return {
    pos := ← field fields "pos" readPos {}
    name := ← field fields "name" readText ""
    type := ← field fields "type" readText "" }

def readBinder (item : Item) : Except Fault Binder := do
  binderOf (← readFields ["pos", "name", "type"] item)

def readBinding (key : String) (readExpr : Item → Except Fault Expr) (item : Item) :
    Except Fault (Binder × Expr) := do
  let fields ← readFields ["pos", "name", "type", key] item
  return (← binderOf fields, ← field fields key readExpr .null)

def exprFields : List String :=
  ["kind", "type", "pos", "int", "str", "bool", "name", "scope", "op", "class", "recv", "kids",
    "bindings"]

/-- An expression that nests at most `fuel` levels; null without tags is the null expression. -/
def readExpr : Nat → Item → Except Fault Expr
  | 0, _ => .error .tooDeep
  | fuel + 1, item =>
    if item.isNull then .ok .null
    else do
      let fields ← readFields exprFields item
      let scalars : Fields := {
        kind := ← field fields "kind" readText ""
        type := ← field fields "type" readText ""
        pos := ← field fields "pos" readPos {}
        int := ← field fields "int" readInt32 0
        str := ← field fields "str" readBytes []
        bool := ← field fields "bool" readBool false
        name := ← field fields "name" readText ""
        scope := ← field fields "scope" readText ""
        op := ← field fields "op" readText ""
        className := ← field fields "class" readText "" }
      let receiver ← field fields "recv" (readExpr fuel) .null
      let kids ← field fields "kids" (readList (readExpr fuel)) []
      let bindings ← field fields "bindings"
        (readList (readEntry (readBinding "expr" (readExpr fuel)))) []
      return .node scalars receiver kids bindings

def readWholeExpr (item : Item) : Except Fault Expr := readExpr (maxNesting + 1) item

def readMethod (item : Item) : Except Fault Method := do
  let fields ← readFields ["pos", "name", "formals", "ret", "body"] item
  return {
    pos := ← field fields "pos" readPos {}
    name := ← field fields "name" readText ""
    formals := ← field fields "formals" (readList (readEntry readBinder)) []
    returnType := ← field fields "ret" readText ""
    body := ← field fields "body" readWholeExpr .null }

def readClass (item : Item) : Except Fault Class := do
  let fields ← readFields ["pos", "file", "name", "parent", "attrs", "methods"] item
  return {
    pos := ← field fields "pos" readPos {}
    file := ← field fields "file" readBytes []
    name := ← field fields "name" readText ""
    parent := ← field fields "parent" readText ""
    attributes := ←
      field fields "attrs" (readList (readEntry (readBinding "init" readWholeExpr))) []
    methods := ← field fields "methods" (readList (readEntry readMethod)) [] }

def readProgram (item : Item) : Except Fault Program := do
  let fields ← readFields ["classes"] item
  return { classes := ← field fields "classes" (readList (readEntry readClass)) [] }

end CoolBackend.Wire
