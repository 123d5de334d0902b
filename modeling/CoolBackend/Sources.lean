import CoolBackend.FileTree
import CoolBackend.Wire

/-!
A program may be spread over several files, each with some of its classes.
-/
namespace CoolBackend

inductive SourceError where
  | unreadable (path : String) (error : FileError)
  | undecodable (path : String) (error : DecodeError)
  deriving DecidableEq

def SourceError.message : SourceError → String
  | unreadable path error => s!"reading {path}: {error.message}"
  | undecodable path error => s!"{path}: {error.message}"

def Program.readFile (w : Workspace) (path : String) : Except SourceError Program := do
  let content ← (w.read path).mapError (.unreadable path)
  (Program.decode content.toBytes).mapError (.undecodable path)

def Program.read (w : Workspace) (paths : List String) : Except SourceError Program := do
  let parts ← paths.mapM (Program.readFile w)
  return { classes := parts.flatMap (·.classes) }

end CoolBackend
