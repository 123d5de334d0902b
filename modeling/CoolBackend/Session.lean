import CoolBackend.Assemble

/-!
The state of one compilation: the class table, the literals and the labels. A session compiles one
program. What a step did before it failed stays done.
-/
namespace CoolBackend

structure Session where
  options : Options := {}
  classes : ClassTable := .empty
  supply : Supply := {}

inductive CompileError where
  | sessionUsed
  | internal (error : InternalError)
  | render (error : Assembly.RenderError)
  deriving DecidableEq

def CompileError.message : CompileError → String
  | sessionUsed => "session already used"
  | internal error => error.message
  | render error => error.message

namespace Session

def onClasses {α : Type} (work : TableM α) : EStateM InternalError Session α := fun s =>
  match work s.classes with
  | .ok a classes => .ok a { s with classes }
  | .error e classes => .error e { s with classes }

def onSupply {α : Type} (work : LowerM α) : EStateM InternalError Session α := fun s =>
  match work s.supply with
  | .ok a supply => .ok a { s with supply }
  | .error e supply => .error e { s with supply }

def internal {α : Type} (work : EStateM InternalError Session α) : EStateM CompileError Session α :=
  fun s =>
    match work s with
    | .ok a s => .ok a s
    | .error e s => .error (.internal e) s

def defineAll : List ClassDecl → TableM Unit
  | [] => return
  | c :: rest => do
    if c.name = selfType then throw .namedSelfType
    discard (ClassTable.defineClass c)
    defineAll rest

def defineBuiltins : List Builtin → TableM Unit
  | [] => return
  | b :: rest => do
    discard (ClassTable.defineBuiltin b)
    defineBuiltins rest

def nameClasses : List ClassEntry → LowerM Unit
  | [] => return
  | c :: rest => do
    discard (LowerM.string (Bytes.ofText c.name))
    nameClasses rest

def layout (program : Program) : EStateM InternalError Session Unit := do
  discard (onSupply (LowerM.int 0))
  discard (onSupply (LowerM.string []))
  onClasses do
    defineBuiltins Builtin.all
    defineAll program.classes
    ClassTable.link
    modify ClassTable.build
  onSupply (nameClasses (← get).classes.toList)

def compileIn (nodes : NodeNames) (program : Program) : EStateM CompileError Session String := do
  if (← get).classes.size > 0 then throw .sessionUsed
  internal (layout program)
  let s ← get
  let image ← internal (onSupply (assembleIn nodes s.options s.classes))
  match image.toFragment.render Assembly.Spim.group with
  | .ok text => return text
  | .error e => throw (.render e)

def compile (program : Program) : EStateM CompileError Session String := compileIn .tree program

end Session

end CoolBackend
