import CoolBackend.Toml.Document

/-!
A document defines one table. A key is defined once. A table that has only been passed on the way to
a longer key is implied; it may still be defined itself, once. It keeps what it has, unless the key
was last known as an array: then the new value takes its place. So a dotted key passes an array by
putting an empty table there.
-/
namespace CoolBackend.Toml

inductive Value where
  | scalar (value : Scalar)
  | array (items : List Value)
  | table (entries : List (String × Value))
  | tables (tables : List (List (String × Value)))
  deriving Repr

abbrev Entries := List (String × Value)

/-- A table in the making: `implied` has the keys of tables that were passed but not defined,
`arrays` those that were last noted to hold an array. Both go by key alone, so the tables of an
array share them. -/
structure Draft where
  root : Entries := []
  implied : List Key := []
  arrays : List Key := []

def Entries.set (name : String) (value : Value) : Entries → Entries
  | [] => [(name, value)]
  | entry :: rest =>
    if entry.1 = name then (name, value) :: rest else entry :: Entries.set name value rest

/-- Changes the entries of the table at a key. Of an array of tables the last one is meant. -/
def Entries.change (f : Entries → Except Fault Entries) : Key → Entries → Except Fault Entries
  | [], entries => f entries
  | name :: rest, entries =>
    match entries.lookup name with
    | some (.table inner) => do
      return Entries.set name (.table (← Entries.change f rest inner)) entries
    | some (.tables inners) => do
      return Entries.set name
        (.tables (inners.dropLast ++ [← Entries.change f rest (inners.getLast?.getD [])])) entries
    | _ => .error (.redefined (name :: rest))

/-- The entries of the table at a key; none where no table is. -/
def Entries.below : Key → Entries → Entries
  | [], entries => entries
  | name :: rest, entries =>
    match entries.lookup name with
    | some (.table inner) => Entries.below rest inner
    | some (.tables inners) => Entries.below rest (inners.getLast?.getD [])
    | _ => []

def Entries.put (value : Value) : Key → Entries → Except Fault Entries
  | [], entries => .ok entries
  | [name], entries => .ok (Entries.set name value entries)
  | name :: rest, entries => do
    let inner ← match entries.lookup name with
      | none => pure []
      | some (.table inner) => pure inner
      | some _ => throw (.redefined (name :: rest))
    return Entries.set name (.table (← Entries.put value rest inner)) entries

namespace Draft

def imply (d : Draft) (key : Key) : Draft :=
  if d.implied.contains key then d else { d with implied := key :: d.implied }

def note (d : Draft) (key : Key) (isArray : Bool) : Draft :=
  let others := d.arrays.filter (· ≠ key)
  { d with arrays := if isArray then key :: others else others }

/-- Notes whether an entry of a table holds an array. What has the empty name below the root is
noted for its table. -/
def noteEntry (d : Draft) (table : Key) (name : String) (isArray : Bool) : Draft :=
  d.note (if name = "" && !table.isEmpty then table else table ++ [name]) isArray

/-- Defines a name in the table at a key. An implied table that is there already stays, or gives way
if it was noted as an array. -/
def define (d : Draft) (table : Key) (name : String) (value : Value) : Except Fault Draft := do
  let key := table ++ [name]
  let replaced ← Entries.change (fun entries => .ok (Entries.set name value entries)) table d.root
  if ((Entries.below table d.root).lookup name).isNone then return { d with root := replaced }
  else if d.implied.contains key then
    return { d with
      root := if d.arrays.contains key then replaced else d.root
      implied := d.implied.erase key }
  else throw (.redefined key)

/-- Sees to it that a key leads through tables; those that are missing are implied. -/
def pass (d : Draft) (table : Key) : Key → Except Fault Draft
  | [] => .ok d
  | name :: rest => do
    let key := table ++ [name]
    let d ← match (Entries.below table d.root).lookup name with
      | none => do
        let root ← Entries.change
          (fun entries => .ok (Entries.set name (.table []) entries)) table d.root
        pure { (d.imply key) with root }
      | some (.table _) | some (.tables _) => pure d
      | some _ => throw (.redefined key)
    pass d key rest

def enter (d : Draft) (key : Key) (inArray : Bool) : Except Fault Draft := do
  match key.getLast? with
  | none => return d
  | some name =>
    let above := key.dropLast
    let d ← d.pass [] above
    if inArray then
      let grown ← match (Entries.below above d.root).lookup name with
        | none => pure [[]]
        | some (.tables inners) => pure (inners ++ [[]])
        | some _ => throw (.redefined key)
      return { d with
        root := ← Entries.change
          (fun entries => .ok (Entries.set name (.tables grown) entries)) above d.root }
    else d.define above name (.table [])

/-- Enters the tables that a dotted key passes; gives the table of its last part. -/
def enterParts (d : Draft) (table : Key) : Key → Except Fault (Draft × Key)
  | [] => .ok (d, table)
  | part :: rest => do
    let table := table ++ [part]
    enterParts (← (d.imply table).enter table false) table rest

end Draft

def Written.isArray : Written → Bool
  | .array _ => true
  | _ => false

mutual

/-- The value of what is written for a name of a table. Tables in it are entered in the draft. -/
def Written.evaluate (table : Key) (name : String) (inArray : Bool) :
    Written → Draft → Except Fault (Value × Draft)
  | .scalar value, d => .ok (.scalar value, d)
  | .array items, d => do
    let (values, d) ← evaluateItems table name items (d.noteEntry table name true)
    return (.array values, d)
  | .inline entries, d => do
    let key := table ++ [name]
    let (entries, d) ← defineEntries key entries [] (← (d.imply key).enter key inArray)
    return (.table entries, d)

def evaluateItems (table : Key) (name : String) :
    List Written → Draft → Except Fault (List Value × Draft)
  | [], d => .ok ([], d)
  | item :: rest, d => do
    let (value, d) ← item.evaluate table name true d
    let (values, d) ← evaluateItems table name rest d
    return (value :: values, d)

/-- Defines entries of a table. Gives them on their own as well, after those in `done`; there the
last value of a key counts. -/
def defineEntries (table : Key) :
    List (Key × Written) → Entries → Draft → Except Fault (Entries × Draft)
  | [], done, d => .ok (done, d)
  | (key, written) :: rest, done, d => do
    let (d, inner) ← d.enterParts table key.dropLast
    let name := key.getLast?.getD ""
    let (value, d) ← written.evaluate inner name false d
    let d ← d.define inner name value
    defineEntries table rest (← Entries.put value key done)
      (d.noteEntry inner name written.isArray)

end

def Draft.beginTable (d : Draft) (key : Key) (inArray : Bool) : Except Fault Draft :=
  (d.enter key inArray).map (·.note key false)

def run (table : Key) : List Statement → Draft → Except Fault Draft
  | [], d => .ok d
  | .table key :: rest, d => do run key rest (← d.beginTable key false)
  | .arrayTable key :: rest, d => do run key rest (← d.beginTable key true)
  | .assign key value :: rest, d => do
    run table rest (← defineEntries table [(key, value)] [] d).2

def entries (statements : List Statement) : Except Fault Entries := do
  return (← run [] statements {}).root

end CoolBackend.Toml
