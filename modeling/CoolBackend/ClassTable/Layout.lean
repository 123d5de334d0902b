import CoolBackend.ClassTable

/-!
A class's objects hold the attributes of its ancestors, then its own. Its dispatch table has the
slots of its parent, in which its own methods replace inherited ones, then its new methods. Each
layout is computed on the first query and kept with the class; so are the layouts of the ancestors
that the query had to compute.
-/
namespace CoolBackend

namespace ClassEntry

/-- Appends the attributes of a class to a layout. A name that has a slot already keeps it. -/
def extendAttributes (c : ClassEntry) (inherited : List AttributeSlot) : List AttributeSlot :=
  c.attributes.foldl (fun slots a =>
    if slots.any (·.name = a.name) then slots
    else slots ++ [{ name := a.name, className := c.name, type := a.type,
                     offset := (headerWords + slots.length) * wordSize }]) inherited

/-- Puts the methods of a class into an inherited dispatch table. An inherited slot keeps its index
and gets the class as its implementation; methods that are not inherited get new slots in the order
of their declaration. -/
def extendDispatch (c : ClassEntry) (inherited : List DispatchEntry) : List DispatchEntry :=
  let overridden := inherited.map fun e =>
    if c.methods.contains e.method then { e with className := c.name } else e
  let introduced := c.methods.filter fun m => !inherited.any (·.method = m)
  overridden ++ introduced.mapIdx fun i m =>
    { method := m, className := c.name, slot := inherited.length + i }

end ClassEntry

/-- A kind of layout: what a class adds to the layout of its parent, and where it keeps the result. -/
structure LayoutKind (α : Type) where
  extend : ClassEntry → List α → List α
  kept : ClassEntry → Option (List α)
  keep : List α → ClassEntry → ClassEntry
  keep_name : ∀ slots c, (keep slots c).name = c.name

namespace LayoutKind

def attributes : LayoutKind AttributeSlot where
  extend := ClassEntry.extendAttributes
  kept := (·.attributeLayout)
  keep slots c := { c with attributeLayout := some slots }
  keep_name _ _ := rfl

def dispatch : LayoutKind DispatchEntry where
  extend := ClassEntry.extendDispatch
  kept := (·.dispatchLayout)
  keep entries c := { c with dispatchLayout := some entries }
  keep_name _ _ := rfl

end LayoutKind

namespace ClassTable

def keepLayout {α : Type} (table : ClassTable) (kind : LayoutKind α) (tag : Nat) (slots : List α) :
    ClassTable :=
  table.update tag (kind.keep slots) (kind.keep_name slots)

/-- The layout of the class with a tag, looking at no more than `fuel` classes, and the table that
keeps it. -/
def layoutFrom {α : Type} (kind : LayoutKind α) : Nat → Nat → ClassTable → List α × ClassTable
  | 0, _, table => ([], table)
  | fuel + 1, tag, table =>
    match table.classes[tag]? with
    | none => ([], table)
    | some c =>
      match kind.kept c with
      | some slots => (slots, table)
      | none =>
        let (inherited, table) := match c.parent with
          | none => ([], table)
          | some p => layoutFrom kind fuel p table
        let slots := kind.extend c inherited
        (slots, table.keepLayout kind tag slots)

def attributes (table : ClassTable) (tag : Nat) : List AttributeSlot × ClassTable :=
  layoutFrom .attributes table.size tag table

def dispatch (table : ClassTable) (tag : Nat) : List DispatchEntry × ClassTable :=
  layoutFrom .dispatch table.size tag table

def slotIn? (entries : List DispatchEntry) (method : String) : Option Nat :=
  (entries.find? (·.method = method)).map (·.slot)

def objectSize (table : ClassTable) (tag : Nat) : Nat × ClassTable :=
  let (slots, table) := table.attributes tag
  (slots.length + headerWords, table)

def attributeIndex? (table : ClassTable) (tag : Nat) (name : String) : Option Nat × ClassTable :=
  let (slots, table) := table.attributes tag
  (slots.findIdx? (·.name = name), table)

def methodSlot? (table : ClassTable) (tag : Nat) (method : String) : Option Nat × ClassTable :=
  let (entries, table) := table.dispatch tag
  (slotIn? entries method, table)

def buildTags : List Nat → ClassTable → ClassTable
  | [], table => table
  | tag :: rest, table => buildTags rest ((table.attributes tag).2.dispatch tag).2

def build (table : ClassTable) : ClassTable := buildTags (List.range table.size) table

def slots (table : ClassTable) (c : ClassEntry) : List AttributeSlot :=
  (table.attributes c.tag).1

def entries (table : ClassTable) (c : ClassEntry) : List DispatchEntry :=
  (table.dispatch c.tag).1

end ClassTable

end CoolBackend
