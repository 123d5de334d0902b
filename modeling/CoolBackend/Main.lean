import CoolBackend.CommandLine
import CoolBackend.Symbols.Script

/-!
Takes what a run looks at from the disk, lets it run on that, and brings what it changed back to the
disk. A symbol database is written as the statements that build it.
-/
namespace CoolBackend.Disk

/-- What stands at a path of the disk; directories below the given depth are left empty. -/
partial def load (depth : Nat) (path : String) : IO (Option FileTree) := do
  let here := (← IO.currentDir) / path
  if ← here.isDir then
    let mut entries := []
    if depth > 0 then
      for entry in ← here.readDir do
        if let some tree ← load (depth - 1) entry.path.toString then
          entries := (entry.fileName, tree) :: entries
    return some (.directory entries)
  else if ← here.pathExists then
    return some (.file (.bytes (← IO.FS.readBinFile here).data.toList))
  else return none

/-- Puts a tree at a place, keeping what is there already. -/
partial def graft (root : FileTree) (place : List String) : FileTree → FileTree
  | .file content => root.insert place (.file content)
  | .directory entries =>
    let root := if (root.find? place).isSome then root else root.insert place (.directory [])
    entries.foldl (fun root (name, tree) => graft root (place ++ [name]) tree) root

/-- Puts what stands at a path of the disk into a workspace. -/
def take (depth : Nat) (w : Workspace) (path : String) : IO Workspace := do
  match ← load depth (w.absolute path) with
  | some tree => return { w with root := graft w.root (Path.names (w.absolute path)) tree }
  | none => return w

def takeOutput (w : Workspace) (path : String) : IO Workspace := do
  if path = "" then return w
  let above := (Path.withParents (w.absolute path)).drop 1 |>.headD "/"
  let w ← if w.contains above then pure w else take 0 w above
  take 1 w path

def patternRoot (pattern : String) : String × Nat :=
  let fixed := (Path.names pattern).takeWhile (!Glob.hasMeta ·)
  (Path.ofNames fixed, (Path.names pattern).length - fixed.length + 1)

def gather (flags : CommandLine.Flags) (files : List String) (w : Workspace) : IO Workspace := do
  let manifests := (Path.withParents (w.absolute flags.directory)).map
    fun directory => Path.join [directory, Manifest.fileName]
  let w ← manifests.foldlM (take 0) w
  let w ← files.foldlM (take 0) w
  let w ← [flags.output, flags.database].foldlM takeOutput w
  match Manifest.find w flags.directory with
  | .ok (some m) =>
    let w ← m.dirs.foldlM (fun w directory =>
      let (root, depth) := patternRoot (m.resolve directory)
      take depth w root) w
    let w ← (m.files.map m.resolve).foldlM (take 0) w
    [m.assemblyPath, m.symbolsPath].foldlM takeOutput w
  | _ => return w

def store (path : String) : FileContent → IO Unit
  | .bytes data => IO.FS.writeBinFile path ⟨data.toArray⟩
  | .symbols table => IO.FS.writeFile path table.script

/-- Every file of a tree, by the names that lead to it. -/
partial def filesOf (above : List String) : FileTree → List (List String × FileContent)
  | .file content => [(above, content)]
  | .directory entries => entries.flatMap fun (name, tree) => filesOf (above ++ [name]) tree

/-- Brings the changes of a run to the disk. -/
def bringBack (before after : FileTree) : IO Unit := do
  for (place, content) in filesOf [] after do
    match before.find? place with
    | some (.file old) => if old ≠ content then store (Path.ofNames place) content
    | _ => store (Path.ofNames place) content
  for (place, _) in filesOf [] before do
    if (after.find? place).isNone then IO.FS.removeFile (Path.ofNames place)

end CoolBackend.Disk

open CoolBackend in
def main (arguments : List String) : IO UInt32 := do
  let current := Path.names (← IO.currentDir).toString
  let empty : Workspace :=
    { root := FileTree.insert (.directory []) current (.directory []), current }
  let w ← match CommandLine.parse {} arguments with
    | .run flags files => Disk.gather flags files empty
    | _ => pure empty
  let session := toString (← IO.monoNanosNow)
  let (ending, result) := CommandLine.run session arguments w
  Disk.bringBack w.root result.files.root
  (← IO.getStdout).putStr result.out
  (← IO.getStderr).putStr result.err
  match ending with
  | .exit code => return code.toUInt32
  | .cutShort => return 2
