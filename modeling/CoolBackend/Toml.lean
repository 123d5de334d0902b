import CoolBackend.Toml.Draft
import CoolBackend.Toml.Parse

/-!
Reading a document, and taking typed fields out of its tables. Names of fields are matched without
regard to case. A field that is not there has its default, and keys that name no field are passed
over.
-/
namespace CoolBackend.Toml

def read (bytes : Bytes) : Except Fault Entries := do entries (← parse bytes)

/-- One character for all that differ only in case, of those that have an ASCII letter among
them. -/
def foldCase (c : Char) : Char :=
  match c with
  | '\u017f' => 's'
  | '\u212a' => 'k'
  | _ => c.toLower

/-- Whether a key names a field, given in lower case. -/
def names (field : String) (key : String) : Bool := key.toList.map foldCase = field.toList

def field? (entries : Entries) (field : String) : Option Value :=
  (entries.find? fun entry => names field entry.1).map (·.2)

def tableField (entries : Entries) (field : String) : Except Fault Entries :=
  match field? entries field with
  | none => .ok []
  | some (.table inner) => .ok inner
  | some _ => .error (.wrongType [field])

def stringField (entries : Entries) (field : String) : Except Fault String :=
  match field? entries field with
  | none => .ok ""
  | some (.scalar (.string value)) => .ok value
  | some _ => .error (.wrongType [field])

def booleanField (entries : Entries) (field : String) : Except Fault Bool :=
  match field? entries field with
  | none => .ok false
  | some (.scalar (.boolean value)) => .ok value
  | some _ => .error (.wrongType [field])

def stringsField (entries : Entries) (field : String) : Except Fault (List String) :=
  match field? entries field with
  | none => .ok []
  | some (.array items) => items.mapM fun item =>
    match item with
    | .scalar (.string value) => .ok value
    | _ => .error (.wrongType [field])
  | some _ => .error (.wrongType [field])

end CoolBackend.Toml
