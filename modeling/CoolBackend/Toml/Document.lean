/-!
A document is a list of statements: headers, which open a table, and assignments, which define keys
below the open table. Values are kept as they are written; `Toml.Draft` gives statements their
meaning.
-/
namespace CoolBackend.Toml

abbrev Key := List String

/-- Values without parts. Floating-point numbers and moments in time are kept as text. -/
inductive Scalar where
  | string (value : String)
  | integer (value : Int)
  | float (text : String)
  | boolean (value : Bool)
  | datetime (text : String)
  deriving DecidableEq, Repr

inductive Written where
  | scalar (value : Scalar)
  | array (items : List Written)
  | inline (entries : List (Key × Written))
  deriving Repr

inductive Statement where
  | table (key : Key)
  | arrayTable (key : Key)
  | assign (key : Key) (value : Written)
  deriving Repr

inductive Fault where
  | notText
  | controlCharacter
  | unexpected (found : Option Char)
  | unclosedString
  | badEscape
  | badNumber (text : String)
  | badDatetime (text : String)
  | redefined (key : Key)
  | wrongType (key : Key)
  deriving DecidableEq, Repr

def Key.text (key : Key) : String := ".".intercalate key

def Fault.message : Fault → String
  | notText => "toml: not valid UTF-8"
  | controlCharacter => "toml: control characters are not allowed"
  | unexpected none => "toml: unexpected end"
  | unexpected (some c) => s!"toml: unexpected character {c}"
  | unclosedString => "toml: string is not closed"
  | badEscape => "toml: invalid escape in a string"
  | badNumber text => s!"toml: invalid number {text}"
  | badDatetime text => s!"toml: invalid datetime {text}"
  | redefined key => s!"toml: key {key.text} has already been defined"
  | wrongType key => s!"toml: incompatible type of {key.text}"

abbrev Reading (α : Type) := Except Fault (α × List Char)

end CoolBackend.Toml
