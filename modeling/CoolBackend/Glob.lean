import CoolBackend.FileTree

/-!
`*` stands for any bytes of a name, `?` for one character, `[a-z]` for one character of a set and
`[^a-z]` for one outside of it; a backslash takes the character behind it as it is. Wherever a
pattern is malformed, all of it is.
-/
namespace CoolBackend.Glob

/-- A part of a pattern that matches a fixed number of characters. -/
inductive Atom where
  | byte (b : UInt8)
  | any
  | oneOf (negated : Bool) (ranges : List (Char × Char))
  deriving DecidableEq, Repr

inductive Piece where
  | star
  | atom (a : Atom)
  deriving DecidableEq, Repr

def literal (c : Char) (rest : List Piece) : List Piece :=
  (Bytes.ofText c.toString).map (.atom ∘ .byte) ++ rest

mutual

def pieces : List Char → Option (List Piece)
  | [] => some []
  | '*' :: rest => (pieces rest).map (.star :: ·)
  | '?' :: rest => (pieces rest).map (.atom .any :: ·)
  | '\\' :: c :: rest => (pieces rest).map (literal c)
  | ['\\'] => none
  | '[' :: '^' :: rest => setNext true [] rest
  | '[' :: rest => setNext false [] rest
  | c :: rest => (pieces rest).map (literal c)

def setNext (negated : Bool) (ranges : List (Char × Char)) : List Char → Option (List Piece)
  | [] => none
  | '-' :: _ => none
  | ']' :: rest =>
    if ranges.isEmpty then none else (pieces rest).map (.atom (.oneOf negated ranges) :: ·)
  | '\\' :: c :: rest => setAfter negated ranges c rest
  | ['\\'] => none
  | c :: rest => setAfter negated ranges c rest

def setAfter (negated : Bool) (ranges : List (Char × Char)) (low : Char) :
    List Char → Option (List Piece)
  | [] => none
  | '-' :: rest => setHigh negated ranges low rest
  | ']' :: rest => (pieces rest).map (.atom (.oneOf negated (ranges ++ [(low, low)])) :: ·)
  | '\\' :: c :: rest => setAfter negated (ranges ++ [(low, low)]) c rest
  | ['\\'] => none
  | c :: rest => setAfter negated (ranges ++ [(low, low)]) c rest

def setHigh (negated : Bool) (ranges : List (Char × Char)) (low : Char) :
    List Char → Option (List Piece)
  | [] => none
  | '-' :: _ => none
  | ']' :: _ => none
  | '\\' :: c :: rest => setNext negated (ranges ++ [(low, c)]) rest
  | ['\\'] => none
  | c :: rest => setNext negated (ranges ++ [(low, c)]) rest

end

/-- Atoms that follow each other, and whether a star stands in front of them. -/
structure Run where
  starred : Bool
  atoms : List Atom
  deriving DecidableEq, Repr

/-- Cuts a pattern at its stars. `starred` and `atoms` are what has been seen of the current run. -/
def runs (starred : Bool) (atoms : List Atom) : List Piece → List Run
  | [] => if starred || !atoms.isEmpty then [⟨starred, atoms⟩] else []
  | .atom a :: rest => runs starred (atoms ++ [a]) rest
  | .star :: rest =>
    if atoms.isEmpty then runs true [] rest else ⟨starred, atoms⟩ :: runs true [] rest

def parse? (pattern : String) : Option (List Run) := (pieces pattern.toList).map (runs false [])

/-- The first character of a name. A byte that starts no character counts as the replacement
character. -/
def firstChar? (name : Bytes) : Option (Char × Bytes) :=
  match name with
  | [] => none
  | _ :: rest =>
    let found := [1, 2, 3, 4].findSome? fun width =>
      match (Bytes.toText? (name.take width)).map String.toList with
      | some [c] => some (c, name.drop width)
      | _ => none
    some (found.getD ('�', rest))

def Atom.rest? : Atom → Bytes → Option Bytes
  | byte _, [] => none
  | byte b, c :: rest => if c = b then some rest else none
  | any, name => (firstChar? name).map (·.2)
  | oneOf negated ranges, name =>
    (firstChar? name).bind fun (c, rest) =>
      if ranges.any (fun (low, high) => low ≤ c ∧ c ≤ high) != negated then some rest else none

def Run.rest? (run : Run) (name : Bytes) : Option Bytes :=
  run.atoms.foldlM (fun name atom => atom.rest? name) name

/-- The first place where a run matches; the last run has to match up to the end of the name. -/
def Run.first? (run : Run) (last : Bool) (name : Bytes) : Option Bytes :=
  (if run.starred then Text.suffixes name else [name]).findSome? fun name =>
    (run.rest? name).filter fun rest => rest.isEmpty || !last

/-- Whether runs match a name, each taking the first place where it matches. -/
def matchRuns : List Run → Bytes → Bool
  | [], name => name.isEmpty
  | run :: rest, name =>
    if run.starred ∧ run.atoms.isEmpty then true
    else match run.first? rest.isEmpty name with
      | some left => matchRuns rest left
      | none => false

/-- The pattern breaks off inside a set or behind a backslash, or has a set without members. -/
structure Malformed where
  deriving DecidableEq, Repr

def Malformed.message (_ : Malformed) : String := "syntax error in pattern"

def hasMeta (text : String) : Bool := text.toList.any fun c => ['*', '?', '[', '\\'].contains c

def matchEntries (w : Workspace) (directory pattern : String) : Except Malformed (List String) :=
  match parse? pattern with
  | none => .error ⟨⟩
  | some runs => .ok (((w.entryNames directory).filter fun name =>
      matchRuns runs (Bytes.ofText name)).map fun name => Path.join [directory, name])

def directoryOf (reversed : List String) : String :=
  match reversed with
  | [] => "."
  | _ =>
    match "/".intercalate reversed.reverse with
    | "" => "/"
    | text => text

def expandElements (w : Workspace) : List String → Except Malformed (List String)
  | [] => .ok []
  | last :: above => do
    let pattern := "/".intercalate (last :: above).reverse
    if (parse? pattern).isNone then throw ⟨⟩
    if !hasMeta pattern then return if w.contains pattern then [pattern] else []
    if hasMeta (directoryOf above) then
      let found ← (← expandElements w above).mapM (matchEntries w · last)
      return found.flatten
    else matchEntries w (directoryOf above) last

/-- The paths that match a pattern. Its directories may hold pattern characters as well. -/
def expand (w : Workspace) (pattern : String) : Except Malformed (List String) :=
  expandElements w (Path.elements pattern).reverse

end CoolBackend.Glob
