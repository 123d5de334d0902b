import CoolBackend.CommandLine.Flags
import CoolBackend.CommandLine.Report
import CoolBackend.Manifest
import CoolBackend.Session
import CoolBackend.Sources
import CoolBackend.SymbolStore
import CoolBackend.Verify

/-!
A run takes the arguments and the files it finds, and gives what it prints, the files it leaves and
its exit code. Outputs that a manifest names are written only if the sources came from the manifest
too.
-/
namespace CoolBackend.CommandLine

/-- How a run ended. It is cut short, without any message, when a source has a null entry in a list
that holds none. -/
inductive Ending where
  | exit (code : Nat)
  | cutShort
  deriving DecidableEq, Repr

structure Run where
  files : Workspace
  out : String := ""
  err : String := ""

abbrev RunM := EStateM Ending Run

namespace RunM

def print (text : String) : RunM Unit := modify fun r => { r with out := r.out ++ text }

def complain (text : String) : RunM Unit := modify fun r => { r with err := r.err ++ text }

def exit {α : Type} (code : Nat) : RunM α := throw (.exit code)

def fail {α : Type} (message : String) : RunM α := do
  complain (message ++ "\n")
  exit 1

def require {ε α : Type} (message : ε → String) : Except ε α → RunM α
  | .ok a => return a
  | .error e => fail (message e)

end RunM

open RunM

def sourcePaths (manifest : Option Manifest) (files : List String) : RunM (List String) := do
  if !files.isEmpty then return files
  match manifest with
  | none =>
    complain usage
    exit 1
  | some m =>
    let paths ← require (fun e => s!"Error: {e.message}") (m.sourcePaths (← get).files)
    if paths.isEmpty then fail s!"Error: {Manifest.fileName} lists no sources"
    return paths

/-- The options of the manifest, where the flags do not say otherwise. -/
def options (manifest : Option Manifest) (flags : Flags) : Except UnknownCollector Options := do
  let gc := if flags.gc = "" then manifest.elim "" (·.gc) else flags.gc
  return { gc := ← GcMode.parse gc, gcTest := flags.gcTest || manifest.any (·.gcTest) }

def readProgram (paths : List String) : RunM Program := do
  match Program.read (← get).files paths with
  | .ok program => return program
  | .error (.undecodable _ .nullEntry) => throw .cutShort
  | .error e => fail s!"Error: {e.message}"

/-- Prints what the verifier has to say; anything but a warning ends the run. -/
def verify (program : Program) : RunM Unit := do
  let found := Verify.diagnose program
  complain (String.join (found.map fun d => d.message ++ "\n"))
  if found.any (!·.isWarning) then exit 1

/-- Where assembly and symbols go; empty for standard output and for no symbols. -/
def outputPaths (manifest : Option Manifest) (fromManifest : Bool) (flags : Flags) :
    String × String :=
  match manifest with
  | some m =>
    if fromManifest then
      (if flags.output = "" then m.assemblyPath else flags.output,
        if flags.database = "" then m.symbolsPath else flags.database)
    else (flags.output, flags.database)
  | none => (flags.output, flags.database)

def writeAssembly (path text : String) : RunM Unit := do
  if path = "" then print text
  else
    let files ← require (fun e : FileError => s!"Error writing {path}: {e.message}")
      ((← get).files.write path (.bytes (Bytes.ofText text)))
    modify fun r => { r with files }

def writeSymbols (path session : String) (classes : ClassTable) : RunM Unit := fun r =>
  if path = "" then .ok () r
  else match Workspace.writeSymbols path session classes false r.files with
    | .ok () files => .ok () { r with files }
    | .error e files => fail s!"Error writing symbols: {e.message}" { r with files }

def build (session : String) (options : Options) (program : Program)
    (outputs : String × String) : RunM Unit := do
  match Session.compile program { options } with
  | .error e _ => fail s!"Compile error: {e.message}"
  | .ok text compiled =>
    writeAssembly outputs.1 text
    writeSymbols outputs.2 session compiled.classes

def showLayouts (options : Options) (program : Program) : RunM Unit := do
  match Session.layout program { options } with
  | .error e _ => fail s!"Error: {e.message}"
  | .ok () laidOut => print laidOut.classes.report

def perform (session : String) (flags : Flags) (files : List String) : RunM Unit := do
  let manifest ← require (fun e => s!"Error loading manifest: {e.message}")
    (Manifest.find (← get).files flags.directory)
  let paths ← sourcePaths manifest files
  let options ← require (fun e => s!"Error: {e.message}") (options manifest flags)
  let program ← readProgram paths
  if flags.verify then verify program
  if flags.layout then showLayouts options program
  else build session options program (outputPaths manifest files.isEmpty flags)

def start (session : String) (arguments : List String) : RunM Unit := do
  match parse {} arguments with
  | .run flags files => perform session flags files
  | .help =>
    complain usage
    exit 0
  | .reject error =>
    complain (error.message ++ "\n" ++ usage)
    exit 2

def run (session : String) (arguments : List String) (files : Workspace) : Ending × Run :=
  match start session arguments { files } with
  | .ok () r => (.exit 0, r)
  | .error ending r => (ending, r)

end CoolBackend.CommandLine
