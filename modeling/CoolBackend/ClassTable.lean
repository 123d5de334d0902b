import CoolBackend.Builtin
import CoolBackend.InternalError
import CoolBackend.Literal

/-!
The classes of one compilation unit in the order of their definition. A class's tag is its position.
Parents are names until the table is linked, so classes may be defined in any order. A class keeps
its flattened layouts once they have been asked for.
-/
namespace CoolBackend

/-- One attribute of a flattened layout; the offset is in bytes from the start of the object. -/
structure AttributeSlot where
  name : String
  className : String
  type : String
  offset : Nat
  deriving DecidableEq

structure DispatchEntry where
  method : String
  className : String
  slot : Nat
  deriving DecidableEq

def DispatchEntry.label (e : DispatchEntry) : String := e.className ++ "." ++ e.method

/-- A class of the table. `parent` is the tag of the linked parent; `attributeLayout` and
`dispatchLayout` are kept from the first query on. -/
structure ClassEntry where
  name : String
  tag : Nat
  parentName : String
  parent : Option Nat := none
  builtin : Bool := false
  decl : Option ClassDecl := none
  attributes : List AttributeDecl := []
  methods : List String := []
  attributeLayout : Option (List AttributeSlot) := none
  dispatchLayout : Option (List DispatchEntry) := none

namespace ClassEntry

def ofDecl (decl : ClassDecl) (tag : Nat) : ClassEntry :=
  { name := decl.name
    tag
    parentName := decl.parentName
    decl := some decl
    attributes := decl.attributes.map fun (b, init) => { name := b.name, type := b.type, init }
    methods := decl.methods.map (·.name) }

def ofBuiltin (b : Builtin) (tag : Nat) : ClassEntry :=
  { name := b.name
    tag
    parentName := b.parent
    builtin := true
    attributes := b.attributes
    methods := b.methods }

end ClassEntry

structure ClassTable where
  classes : Array ClassEntry
  byName : List (String × Nat)
  byName_eq : byName = (classes.toList.map (·.name)).zipIdx

/-- Work on a class table. A failure keeps what was done before it. -/
abbrev TableM := EStateM InternalError ClassTable

namespace ClassTable

def empty : ClassTable := { classes := #[], byName := [], byName_eq := rfl }

def size (table : ClassTable) : Nat := table.classes.size

def toList (table : ClassTable) : List ClassEntry := table.classes.toList

def find? (table : ClassTable) (name : String) : Option ClassEntry :=
  (table.byName.lookup name).bind (table.classes[·]?)

def byTag? (table : ClassTable) (tag : Int) : Option ClassEntry :=
  if tag < 0 then none else table.classes[tag.toNat]?

def require (table : ClassTable) (name : String) : Except InternalError ClassEntry :=
  match table.find? name with
  | some c => .ok c
  | none => .error (.noLayout name)

def parentNameOf? (table : ClassTable) (c : ClassEntry) : Option String :=
  (c.parent.bind (table.classes[·]?)).map (·.name)

/-- Changes the class with a tag, if there is one. -/
def update (table : ClassTable) (tag : Nat) (f : ClassEntry → ClassEntry)
    (keeps : ∀ c, (f c).name = c.name := by exact fun _ => rfl) : ClassTable where
  classes := table.classes.modify tag f
  byName := table.byName
  byName_eq := by
    rw [table.byName_eq]
    congr 1
    apply List.ext_getElem?
    intro i
    simp only [List.getElem?_map, Array.getElem?_toList, Array.getElem?_modify]
    split <;> simp [Function.comp_def, keeps]

def insert (table : ClassTable) (entry : ClassEntry) : ClassTable where
  classes := table.classes.push entry
  byName := table.byName ++ [(entry.name, table.size)]
  byName_eq := by
    rw [table.byName_eq, Array.toList_push, List.map_append, List.zipIdx_append]
    simp [size]

def addEntry (entry : Nat → ClassEntry) : TableM ClassEntry := do
  let table ← get
  let c := entry table.size
  if (table.find? c.name).isSome then throw (.definedTwice c.name)
  set (table.insert c)
  return c

def define (name parentName : String) : TableM ClassEntry :=
  addEntry fun tag => { name, tag, parentName }

def defineClass (decl : ClassDecl) : TableM ClassEntry := addEntry (.ofDecl decl)

def defineBuiltin (b : Builtin) : TableM ClassEntry := addEntry (.ofBuiltin b)

end ClassTable

end CoolBackend
