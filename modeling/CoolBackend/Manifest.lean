import CoolBackend.Glob
import CoolBackend.Toml

/-!
A manifest says what a project is called, where its sources are and where its outputs go. Relative
paths in it start at its own directory.
-/
namespace CoolBackend

structure Manifest where
  name : String := ""
  version : String := ""
  files : List String := []
  dirs : List String := []
  assembly : String := ""
  symbols : String := ""
  gc : String := ""
  gcTest : Bool := false
  directory : String := ""
  deriving DecidableEq, Repr

inductive ManifestError where
  | unreadable (path : String) (error : FileError)
  | malformed (path : String) (fault : Toml.Fault)
  deriving DecidableEq

def ManifestError.message : ManifestError → String
  | unreadable path error => s!"cannot read {path}: {error.message}"
  | malformed path fault => s!"parse error in {path}: {fault.message}"

structure ScanError where
  directory : String
  error : Glob.Malformed
  deriving DecidableEq

def ScanError.message (e : ScanError) : String := s!"scanning {e.directory}: {e.error.message}"

namespace Manifest

def fileName : String := "coolgen.toml"

def ofEntries (entries : Toml.Entries) : Except Toml.Fault Manifest := do
  let project ← Toml.tableField entries "project"
  let source ← Toml.tableField entries "source"
  let output ← Toml.tableField entries "output"
  let codegen ← Toml.tableField entries "codegen"
  return {
    name := ← Toml.stringField project "name"
    version := ← Toml.stringField project "version"
    files := ← Toml.stringsField source "files"
    dirs := ← Toml.stringsField source "dirs"
    assembly := ← Toml.stringField output "assembly"
    symbols := ← Toml.stringField output "symbols"
    gc := ← Toml.stringField codegen "gc"
    gcTest := ← Toml.booleanField codegen "gc-test" }

def ofBytes (bytes : Bytes) : Except Toml.Fault Manifest := do ofEntries (← Toml.read bytes)

/-- A project is named for its directory, its assembly for the project. -/
def withDefaults (m : Manifest) : Manifest :=
  let name := if m.name = "" then Path.base m.directory else m.name
  { m with
    name
    assembly := if m.assembly = "" then name ++ ".s" else m.assembly
    gc := if m.gc = "" then "none" else m.gc }

def load (w : Workspace) (directory : String) : Except ManifestError Manifest := do
  let path := Path.join [directory, fileName]
  let content ← (w.read path).mapError (.unreadable path)
  let m ← (ofBytes content.toBytes).mapError (.malformed path)
  return { m with directory := w.absolute directory }.withDefaults

def find (w : Workspace) (start : String) : Except ManifestError (Option Manifest) :=
  match (Path.withParents (w.absolute start)).find? fun directory =>
    w.contains (Path.join [directory, fileName]) with
  | none => .ok none
  | some directory => (load w directory).map some

def resolve (m : Manifest) (path : String) : String :=
  if Path.isAbsolute path then path else Path.join [m.directory, path]

def sourcesIn (w : Workspace) (m : Manifest) (directory : String) :
    Except ScanError (List String) := do
  let found ← (Glob.expand w (Path.join [m.resolve directory, "*.ast"])).mapError (⟨directory, ·⟩)
  return found.mergeSort

def sourcePaths (w : Workspace) (m : Manifest) : Except ScanError (List String) := do
  let found ← m.dirs.mapM (sourcesIn w m)
  return m.files.map m.resolve ++ found.flatten

def assemblyPath (m : Manifest) : String := m.resolve m.assembly

def symbolsPath (m : Manifest) : String := if m.symbols = "" then "" else m.resolve m.symbols

end Manifest

end CoolBackend
