import CoolBackend.Path
import CoolBackend.Symbols

/-!
Files and directories as a value, and the operations of a file system on it. A path is followed name
by name, so a step up from a missing directory fails where the text of the path alone would not.
-/
namespace CoolBackend

inductive FileContent where
  | bytes (data : Bytes)
  | symbols (table : SymbolTable)
  deriving DecidableEq

/-- The bytes that a file is read as. Those of a symbol table have no meaning to any reader here. -/
def FileContent.toBytes : FileContent → Bytes
  | bytes data => data
  | symbols _ => []

inductive FileTree where
  | file (content : FileContent)
  | directory (entries : List (String × FileTree))

namespace FileTree

def find? : FileTree → List String → Option FileTree
  | tree, [] => some tree
  | file _, _ :: _ => none
  | directory entries, name :: rest => (entries.lookup name).bind (find? · rest)

def setEntry (name : String) (tree : FileTree) :
    List (String × FileTree) → List (String × FileTree)
  | [] => [(name, tree)]
  | entry :: rest =>
    if entry.1 = name then (name, tree) :: rest else entry :: setEntry name tree rest

/-- Puts a tree at the end of a chain of names, with those directories on the way that are missing.
Nothing is put below a file. -/
def insert : FileTree → List String → FileTree → FileTree
  | _, [], tree => tree
  | file content, _ :: _, _ => file content
  | directory entries, name :: rest, tree =>
    directory (setEntry name (((entries.lookup name).getD (directory [])).insert rest tree) entries)

def erase : FileTree → List String → FileTree
  | tree, [] => tree
  | file content, _ :: _ => file content
  | directory entries, [name] => directory (entries.filter (·.1 ≠ name))
  | directory entries, name :: rest =>
    directory (entries.map fun entry =>
      if entry.1 = name then (name, entry.2.erase rest) else entry)

end FileTree

inductive FileFault where
  | missing
  | notDirectory
  | isDirectory
  | notEmpty
  | invalid
  | nameTooLong
  | busy
  deriving DecidableEq, Repr

def FileFault.message : FileFault → String
  | missing => "no such file or directory"
  | notDirectory => "not a directory"
  | isDirectory => "is a directory"
  | notEmpty => "directory not empty"
  | invalid => "invalid argument"
  | nameTooLong => "file name too long"
  | busy => "device or resource busy"

structure FileError where
  action : String
  path : String
  fault : FileFault
  deriving DecidableEq, Repr

def FileError.message (e : FileError) : String := s!"{e.action} {e.path}: {e.fault.message}"

/-- A file tree and the names that lead from its root to the working directory. -/
structure Workspace where
  root : FileTree
  current : List String

namespace Workspace

def maxNameBytes : Nat := 255

def maxPathBytes : Nat := 4095

/-- Follows elements from a place. Everything that has an element below it must be a directory; the
last name need not exist. -/
def follow (root : FileTree) : List String → List String → Except FileFault (List String)
  | place, [] => .ok place
  | place, element :: rest =>
    match root.find? place with
    | none => .error .missing
    | some (.file _) => .error .notDirectory
    | some (.directory _) =>
      if element = "" ∨ element = "." then follow root place rest
      else if element = ".." then follow root place.dropLast rest
      else if element.utf8ByteSize > maxNameBytes then .error .nameTooLong
      else follow root (place ++ [element]) rest

def checkPath (path : String) : Except FileFault Unit :=
  if path.toList.contains '\x00' then .error .invalid
  else if path = "" then .error .missing
  else if path.utf8ByteSize > maxPathBytes then .error .nameTooLong
  else .ok ()

def origin (w : Workspace) (path : String) : List String :=
  if Path.isAbsolute path then [] else w.current

def locate (w : Workspace) (path : String) : Except FileFault (List String) := do
  checkPath path
  follow w.root (w.origin path) (Path.elements path)

def lookup (w : Workspace) (path : String) : Except FileFault FileTree := do
  match w.root.find? (← w.locate path) with
  | some tree => return tree
  | none => throw .missing

def contains (w : Workspace) (path : String) : Bool := (w.lookup path).isOk

def entryNames (w : Workspace) (path : String) : List String :=
  match w.lookup path with
  | .ok (.directory entries) => (entries.map (·.1)).mergeSort
  | _ => []

def absolute (w : Workspace) (path : String) : String :=
  if Path.isAbsolute path then Path.clean path else Path.join [Path.ofNames w.current, path]

def read (w : Workspace) (path : String) : Except FileError FileContent :=
  match w.lookup path with
  | .error fault => .error ⟨"open", path, fault⟩
  | .ok (.directory _) => .error ⟨"read", path, .isDirectory⟩
  | .ok (.file content) => .ok content

/-- Where a file of this path would be written. A slash at the end asks for a directory. -/
def writePlace (w : Workspace) (path : String) : Except FileFault (List String) := do
  let named := (path.toList.reverse.dropWhile (· = '/')).reverse
  let place ← if named.isEmpty then w.locate path else w.locate (String.ofList named)
  if path.toList.getLast? = some '/' then throw .isDirectory
  match w.root.find? place with
  | some (.directory _) => throw .isDirectory
  | _ => return place

def write (w : Workspace) (path : String) (content : FileContent) : Except FileError Workspace :=
  match w.writePlace path with
  | .error fault => .error ⟨"open", path, fault⟩
  | .ok place => .ok { w with root := w.root.insert place (.file content) }

def removePlace (w : Workspace) (path : String) : Except FileFault (List String) := do
  checkPath path
  let elements := (Path.elements path).filter (· ≠ "")
  match elements.getLast? with
  | none => throw .busy
  | some last =>
    let above ← follow w.root (w.origin path) (elements.dropLast ++ ["."])
    if last = "." then throw .invalid
    if last = ".." then throw .notEmpty
    let place ← follow w.root above [last]
    match w.root.find? place with
    | none => throw .missing
    | some (.directory []) => return place
    | some (.directory _) => throw .notEmpty
    | some (.file _) =>
      if path.toList.getLast? = some '/' then throw .notDirectory else return place

def remove (w : Workspace) (path : String) : Except FileError Workspace :=
  match w.removePlace path with
  | .error fault => .error ⟨"remove", path, fault⟩
  | .ok place => .ok { w with root := w.root.erase place }

end Workspace

end CoolBackend
