import CoolBackend.Cbor.Item
import CoolBackend.Wire.Record

/-!
A record is a map from field names to values, shorter names first and names of one length in
alphabetical order. Most fields are left out when they hold nothing; a position never is.
-/
namespace CoolBackend.Wire

open Cbor

abbrev Entry := Item × Item

def entry (name : String) (value : Item) : Entry := (Item.ofText name, value)

/-- An entry that is left out when its value holds nothing. -/
def entryUnless (empty : Bool) (name : String) (value : Item) : List Entry :=
  if empty then [] else [entry name value]

def textEntry (name : String) (value : String) : List Entry :=
  entryUnless (value = "") name (Item.ofText value)

def bytesEntry (name : String) (value : Bytes) : List Entry :=
  entryUnless value.isEmpty name (Item.ofBytes value)

def listEntry (name : String) (items : List Item) : List Entry :=
  entryUnless items.isEmpty name (.array items)

def Pos.toItem (p : Pos) : Item :=
  .map (entryUnless (p.column = 0) "col" (Item.ofInt p.column.toInt) ++
    entryUnless (p.line = 0) "line" (Item.ofInt p.line.toInt))

def Binder.entries (b : Binder) (expr : List Entry) : List Entry :=
  entry "pos" b.pos.toItem :: expr ++
    [entry "name" (Item.ofText b.name), entry "type" (Item.ofText b.type)]

def Binder.toItem (b : Binder) : Item := .map (b.entries [])

mutual

def Expr.toItem : Expr → Item
  | .null => Item.null
  | .node f receiver kids bindings =>
    .map (
      textEntry "op" f.op ++
      entryUnless (f.int = 0) "int" (Item.ofInt f.int.toInt) ++
      [entry "pos" f.pos.toItem] ++
      bytesEntry "str" f.str ++
      entryUnless (!f.bool) "bool" (Item.ofBool f.bool) ++
      listEntry "kids" (itemsOf kids) ++
      [entry "kind" (Item.ofText f.kind)] ++
      textEntry "name" f.name ++
      entryUnless receiver.isNull "recv" receiver.toItem ++
      textEntry "type" f.type ++
      textEntry "class" f.className ++
      textEntry "scope" f.scope ++
      listEntry "bindings" (bindingsOf bindings))

def itemsOf : List Expr → List Item
  | [] => []
  | e :: rest => e.toItem :: itemsOf rest

def bindingsOf : List (Option (Binder × Expr)) → List Item
  | [] => []
  | none :: rest => Item.null :: bindingsOf rest
  | some (b, e) :: rest =>
    .map (b.entries (entryUnless e.isNull "expr" e.toItem)) :: bindingsOf rest

end

def orNull {α : Type} (toItem : α → Item) : Option α → Item
  | none => Item.null
  | some a => toItem a

def attributeItem (a : Binder × Expr) : Item :=
  .map (a.1.entries (entryUnless a.2.isNull "init" a.2.toItem))

def Method.toItem (m : Method) : Item :=
  .map ([entry "pos" m.pos.toItem, entry "ret" (Item.ofText m.returnType),
    entry "body" m.body.toItem, entry "name" (Item.ofText m.name)] ++
    listEntry "formals" (m.formals.map (orNull Binder.toItem)))

def Class.toItem (c : Class) : Item :=
  .map ([entry "pos" c.pos.toItem] ++ bytesEntry "file" c.file ++
    [entry "name" (Item.ofText c.name)] ++
    listEntry "attrs" (c.attributes.map (orNull attributeItem)) ++
    textEntry "parent" c.parent ++
    listEntry "methods" (c.methods.map (orNull Method.toItem)))

/-- The list of classes is null, not left out, when it is empty. -/
def Program.toItem (p : Program) : Item :=
  .map [entry "classes"
    (if p.classes.isEmpty then Item.null else .array (p.classes.map (orNull Class.toItem)))]

end CoolBackend.Wire
