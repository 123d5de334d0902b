import CoolBackend.ClassTable

/-!
Linking resolves every parent name. It succeeds if each name is defined, one class is the root and
every class reaches it. Parents that were resolved before a failure stay.
-/
namespace CoolBackend.ClassTable

def chainFrom (table : ClassTable) : Nat → Nat → List ClassEntry
  | 0, _ => []
  | fuel + 1, tag =>
    match table.classes[tag]? with
    | none => []
    | some c =>
      c :: match c.parent with
        | none => []
        | some p => table.chainFrom fuel p

/-- A class and its ancestors, nearest first. A chain that ends has no class twice, so the size of
the table bounds its length. -/
def chain (table : ClassTable) (c : ClassEntry) : List ClassEntry :=
  table.chainFrom table.size c.tag

def isSubclassOf (table : ClassTable) (c other : ClassEntry) : Bool :=
  (table.chain c).any (·.tag = other.tag)

def depth (table : ClassTable) (c : ClassEntry) : Nat := (table.chain c).length - 1

def conformingTags (table : ClassTable) (c : ClassEntry) : List Nat :=
  (table.toList.filter (table.isSubclassOf · c)).map (·.tag)

def linkParents : List ClassEntry → TableM Unit
  | [] => pure ()
  | c :: rest => do
    if c.parentName ≠ "" then
      match (← get).find? c.parentName with
      | none => throw (.undefinedParent c.name c.parentName)
      | some p => modify (·.update c.tag fun c => { c with parent := some p.tag })
    linkParents rest

/-- Whether parents lead from a link back to the class with a tag, or on after the steps that are
left. -/
def circles (table : ClassTable) (tag : Nat) : Nat → Option Nat → Bool
  | _, none => false
  | 0, some _ => true
  | left + 1, some p => p = tag || table.circles tag left (table.classes[p]?.bind (·.parent))

def link : TableM Unit := do
  linkParents (← get).toList
  let table ← get
  let roots := table.toList.countP (·.parentName = "")
  if roots ≠ 1 then throw (.rootCount roots)
  match table.toList.find? fun c => table.circles c.tag (table.size + 1) c.parent with
  | some c => throw (.inheritanceCycle c.name)
  | none => pure ()

end CoolBackend.ClassTable
