import CoolBackend.ClassTable.Layout

/-!
The class layouts of a program as rows, from which a debugger maps tags, offsets and dispatch slots
back to names. Each kind of row has keys, and a row whose key is taken is refused.
-/
namespace CoolBackend

structure ClassRow where
  tag : Nat
  name : String
  parent : Option String
  size : Nat
  deriving DecidableEq, Repr

structure AttributeRow where
  className : String
  index : Nat
  name : String
  type : String
  declaredBy : String
  offset : Nat
  deriving DecidableEq, Repr

structure MethodRow where
  className : String
  slot : Nat
  name : String
  definedBy : String
  deriving DecidableEq, Repr

structure SymbolTable where
  sessions : List String := []
  classes : List ClassRow := []
  attributes : List AttributeRow := []
  methods : List MethodRow := []
  deriving DecidableEq, Repr

inductive KeyConflict where
  | ofClass (name : String)
  | ofAttribute (className name : String)
  | ofMethod (className name : String)
  deriving DecidableEq, Repr

namespace SymbolTable

def addSession (t : SymbolTable) (id : String) : SymbolTable :=
  { t with sessions := t.sessions ++ [id] }

def addClass (t : SymbolTable) (row : ClassRow) : Except KeyConflict SymbolTable :=
  if t.classes.any fun r => r.tag = row.tag ∨ r.name = row.name then .error (.ofClass row.name)
  else .ok { t with classes := t.classes ++ [row] }

def addAttribute (t : SymbolTable) (row : AttributeRow) : Except KeyConflict SymbolTable :=
  if t.attributes.any fun r => r.index = row.index ∧ r.className = row.className then
    .error (.ofAttribute row.className row.name)
  else .ok { t with attributes := t.attributes ++ [row] }

def addMethod (t : SymbolTable) (row : MethodRow) : Except KeyConflict SymbolTable :=
  if t.methods.any fun r => r.slot = row.slot ∧ r.className = row.className then
    .error (.ofMethod row.className row.name)
  else .ok { t with methods := t.methods ++ [row] }

end SymbolTable

namespace ClassTable

def classRow (table : ClassTable) (c : ClassEntry) : ClassRow :=
  { tag := c.tag, name := c.name, parent := table.parentNameOf? c
    size := (table.slots c).length + headerWords }

def attributeRows (table : ClassTable) (c : ClassEntry) : List AttributeRow :=
  (table.slots c).mapIdx fun index s =>
    { className := c.name, index, name := s.name, type := s.type, declaredBy := s.className
      offset := s.offset }

def methodRows (table : ClassTable) (c : ClassEntry) : List MethodRow :=
  (table.entries c).map fun e =>
    { className := c.name, slot := e.slot, name := e.method, definedBy := e.className }

def addSymbols (table : ClassTable) (t : SymbolTable) (c : ClassEntry) :
    Except KeyConflict SymbolTable := do
  let t ← t.addClass (table.classRow c)
  let t ← (table.attributeRows c).foldlM (·.addAttribute ·) t
  (table.methodRows c).foldlM (·.addMethod ·) t

/-- Adds the symbols of all classes in tag order to the rows that are held already, under the id of
the session that laid them out. -/
def symbols (table : ClassTable) (session : String) (held : SymbolTable) :
    Except KeyConflict SymbolTable :=
  table.toList.foldlM table.addSymbols (held.addSession session)

end ClassTable

namespace SymbolTable

def session? (t : SymbolTable) : Option String := t.sessions.head?

def classRows (t : SymbolTable) : List ClassRow := t.classes.mergeSort (·.tag ≤ ·.tag)

def classByTag? (t : SymbolTable) (tag : Int) : Option ClassRow :=
  t.classes.find? fun r => (r.tag : Int) = tag

def attributesOf (t : SymbolTable) (className : String) : List AttributeRow :=
  (t.attributes.filter (·.className = className)).mergeSort (·.index ≤ ·.index)

def methodsOf (t : SymbolTable) (className : String) : List MethodRow :=
  (t.methods.filter (·.className = className)).mergeSort (·.slot ≤ ·.slot)

end SymbolTable

end CoolBackend
