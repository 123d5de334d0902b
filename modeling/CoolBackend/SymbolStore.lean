import CoolBackend.DatabaseHome
import CoolBackend.FileTree

/-!
Symbol tables kept in files. Writing one removes what was at its path. Reading goes through a
connection, which attaches to the file on the first query; from then on it reads that file, even
when another one has taken its path.
-/
namespace CoolBackend

inductive SymbolStage where
  | removing
  | opening
  | creating
  | writingClass (name : String)
  | writingAttribute (className name : String)
  | writingMethod (className name : String)
  | readingSession
  | queryingClasses
  | queryingClass (tag : Int)
  | queryingAttributes (className : String)
  | queryingMethods (className : String)
  deriving DecidableEq, Repr

def SymbolStage.message : SymbolStage → String
  | removing => "removing old database"
  | opening => "opening database"
  | creating => "creating tables"
  | writingClass name => s!"writing class {name}"
  | writingAttribute className name => s!"writing attribute {className}.{name}"
  | writingMethod className name => s!"writing method {className}.{name}"
  | readingSession => "reading session"
  | queryingClasses => "querying classes"
  | queryingClass tag => s!"querying class {tag}"
  | queryingAttributes className => s!"querying attributes of {className}"
  | queryingMethods className => s!"querying methods of {className}"

def KeyConflict.stage : KeyConflict → SymbolStage
  | ofClass name => .writingClass name
  | ofAttribute className name => .writingAttribute className name
  | ofMethod className name => .writingMethod className name

inductive SymbolCause where
  | file (error : FileError)
  | canceled
  | closed
  | unusable
  | noTables
  | noRows
  | keyConflict
  deriving DecidableEq, Repr

def SymbolCause.message : SymbolCause → String
  | file error => error.message
  | canceled => "canceled"
  | closed => "database is closed"
  | unusable => "unable to open database file"
  | noTables => "no such table"
  | noRows => "no rows"
  | keyConflict => "constraint failed"

structure SymbolError where
  stage : SymbolStage
  cause : SymbolCause
  deriving DecidableEq, Repr

def SymbolError.message (e : SymbolError) : String := s!"{e.stage.message}: {e.cause.message}"

namespace Workspace

def clear (w : Workspace) (path : String) : Except SymbolError Workspace :=
  match w.remove path with
  | .ok w => .ok w
  | .error error => if error.fault = .missing then .ok w else .error ⟨.removing, .file error⟩

/-- The rows that a database has when it is opened. A file that is there is not emptied, and one
without bytes is a database without rows. -/
def heldTable (w : Workspace) (path : String) : Except SymbolError SymbolTable :=
  match DatabaseHome.ofName path with
  | .memory => .ok {}
  | .refused => .error ⟨.creating, .unusable⟩
  | .file file =>
    match w.lookup file with
    | .ok (.file (.symbols table)) => .ok table
    | .ok (.file (.bytes (_ :: _))) => .error ⟨.creating, .unusable⟩
    | _ => .ok {}

def storeTable (w : Workspace) (path : String) (table : SymbolTable) :
    Except SymbolError Workspace :=
  match DatabaseHome.ofName path with
  | .memory => .ok w
  | .refused => .error ⟨.creating, .unusable⟩
  | .file file => (w.write file (.symbols table)).mapError fun _ => ⟨.creating, .unusable⟩

/-- Removes what is at a path and fills the database of that name with the symbols of a class table.
A database that could not be filled keeps the rows that it was opened with. -/
def writeSymbols (path session : String) (classes : ClassTable) (canceled : Bool) :
    EStateM SymbolError Workspace Unit := do
  set (← ofExcept ((← get).clear path))
  if canceled then throw ⟨.creating, .canceled⟩
  let held ← ofExcept ((← get).heldTable path)
  set (← ofExcept ((← get).storeTable path held))
  match classes.symbols session held with
  | .ok table => set (← ofExcept ((← get).storeTable path table))
  | .error conflict => throw ⟨conflict.stage, .keyConflict⟩

end Workspace

/-- A selected database. `attached` has what the connection reads, and whether that file still
stands at its place. -/
inductive Connection where
  | idle (path : String)
  | attached (place : List String) (content : FileContent) (linked : Bool)
  | closed

structure SymbolStore where
  files : Workspace
  connection : Option Connection := none

namespace SymbolStore

/-- A connection whose file is taken from its place keeps the file. -/
def unlink (store : SymbolStore) (place : List String) : SymbolStore :=
  match store.connection with
  | some (.attached held content true) =>
    if held = place then { store with connection := some (.attached held content false) } else store
  | _ => store

/-- Other files. A connection sees what was written over its own. -/
def withFiles (store : SymbolStore) (files : Workspace) : SymbolStore :=
  match store.connection with
  | some (.attached place content true) =>
    let content := match files.root.find? place with
      | some (.file content) => content
      | _ => content
    { files, connection := some (.attached place content true) }
  | _ => { store with files }

def write (path session : String) (classes : ClassTable) (canceled : Bool) :
    EStateM SymbolError SymbolStore Unit := fun store =>
  let unlinked := match store.files.removePlace path with
    | .ok place => store.unlink place
    | .error _ => store
  match Workspace.writeSymbols path session classes canceled store.files with
  | .ok () files => .ok () (unlinked.withFiles files)
  | .error e files => .error e (unlinked.withFiles files)

def put (store : SymbolStore) (names : List String) (content : FileContent) : SymbolStore :=
  store.withFiles { store.files with root := store.files.root.insert names (.file content) }

def select (path : String) : EStateM SymbolError SymbolStore Unit := do
  let store ← get
  match store.files.lookup path with
  | .ok _ => set { store with connection := some (.idle path) }
  | .error fault =>
    set { store with connection := none }
    throw ⟨.opening, .file ⟨"stat", path, fault⟩⟩

def close (store : SymbolStore) : SymbolStore :=
  { store with connection := store.connection.map fun _ => .closed }

/-- Attaches an idle connection to its file. A file that is missing is made, without tables, and so
is a database that is kept in memory. -/
def attach (path : String) : EStateM SymbolCause SymbolStore FileContent := do
  let store ← get
  match DatabaseHome.ofName path with
  | .refused => throw .unusable
  | .memory =>
    let content := FileContent.bytes []
    set { store with connection := some (.attached [] content false) }
    return content
  | .file file =>
    match store.files.locate file with
    | .error _ => throw .unusable
    | .ok place =>
      match store.files.root.find? place with
      | some (.directory _) => throw .unusable
      | some (.file content) =>
        set { store with connection := some (.attached place content true) }
        return content
      | none =>
        let content := FileContent.bytes []
        set { store.put place content with connection := some (.attached place content true) }
        return content

def table (connection : Connection) (canceled : Bool) :
    EStateM SymbolCause SymbolStore SymbolTable := do
  let content ← match connection with
    | .closed => throw .closed
    | .idle path => if canceled then throw .canceled else attach path
    | .attached _ content _ => if canceled then throw .canceled else pure content
  match content with
  | .symbols table => return table
  | .bytes _ => throw .noTables

inductive QueryError where
  | notOpen
  | classNotFound
  | failed (error : SymbolError)
  deriving DecidableEq, Repr

def QueryError.message : QueryError → String
  | notOpen => "no database is open"
  | classNotFound => "class not found"
  | failed error => error.message

abbrev QueryM := EStateM QueryError SymbolStore

def query (stage : SymbolStage) (canceled : Bool) : QueryM SymbolTable := fun store =>
  match store.connection with
  | none => .error .notOpen store
  | some connection =>
    match table connection canceled store with
    | .ok table store => .ok table store
    | .error cause store => .error (.failed ⟨stage, cause⟩) store

def session (canceled : Bool) : QueryM String := do
  match (← query .readingSession canceled).session? with
  | some id => return id
  | none => throw (.failed ⟨.readingSession, .noRows⟩)

def classes (canceled : Bool) : QueryM (List ClassRow) := do
  return (← query .queryingClasses canceled).classRows

def classByTag (tag : Int) (canceled : Bool) : QueryM ClassRow := do
  match (← query (.queryingClass tag) canceled).classByTag? tag with
  | some row => return row
  | none => throw .classNotFound

def attributes (className : String) (canceled : Bool) : QueryM (List AttributeRow) := do
  return (← query (.queryingAttributes className) canceled).attributesOf className

def methods (className : String) (canceled : Bool) : QueryM (List MethodRow) := do
  return (← query (.queryingMethods className) canceled).methodsOf className

end SymbolStore

end CoolBackend
