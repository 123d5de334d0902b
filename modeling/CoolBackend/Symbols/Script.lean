import CoolBackend.Symbols

/-!
The statements that build a symbol table in a database.
-/
namespace CoolBackend

/-- A text constant: quotes inside it are written twice. -/
def sqlText (s : String) : String :=
  let quote := '\x27'
  String.ofList ([quote] ++
    s.toList.flatMap (fun c => if c = quote then [quote, quote] else [c]) ++ [quote])

def sqlRow (table : String) (values : List String) : String :=
  "INSERT INTO " ++ table ++ " VALUES (" ++ ", ".intercalate values ++ ");\n"

def ClassRow.script (r : ClassRow) : String :=
  sqlRow "classes" [toString r.tag, sqlText r.name, r.parent.elim "NULL" sqlText, toString r.size]

def AttributeRow.script (r : AttributeRow) : String :=
  sqlRow "attributes" [sqlText r.className, toString r.index, sqlText r.name, sqlText r.type,
    sqlText r.declaredBy, toString r.offset]

def MethodRow.script (r : MethodRow) : String :=
  sqlRow "methods" [sqlText r.className, toString r.slot, sqlText r.name, sqlText r.definedBy]

namespace SymbolTable

def schema : String :=
  String.join [
    "CREATE TABLE session (id TEXT NOT NULL);\n",
    "CREATE TABLE classes (tag INTEGER PRIMARY KEY, name TEXT NOT NULL UNIQUE, ",
    "parent TEXT, size INTEGER NOT NULL);\n",
    "CREATE TABLE attributes (class TEXT NOT NULL, idx INTEGER NOT NULL, name TEXT NOT NULL, ",
    "type TEXT NOT NULL, declared_by TEXT NOT NULL, byte_offset INTEGER NOT NULL, ",
    "PRIMARY KEY (class, idx));\n",
    "CREATE TABLE methods (class TEXT NOT NULL, slot INTEGER NOT NULL, name TEXT NOT NULL, ",
    "defined_by TEXT NOT NULL, PRIMARY KEY (class, slot));\n"]

def script (t : SymbolTable) : String :=
  schema ++ String.join (t.sessions.map fun id => sqlRow "session" [sqlText id]) ++
    String.join (t.classes.map (·.script)) ++ String.join (t.attributes.map (·.script)) ++
    String.join (t.methods.map (·.script))

end SymbolTable

end CoolBackend
