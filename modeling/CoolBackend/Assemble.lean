import CoolBackend.Image
import CoolBackend.Lowering

/-!
From a class table whose layouts are final to the image of the program. The constants come last, so
that they include those that lowering asked for.
-/
namespace CoolBackend

/-- The first word of an attribute's slot: the zero constant of a basic type, else void. A built-in
value slot has its own. -/
def prototypeWord (classes : ClassTable) (slot : AttributeSlot) : LowerM String := do
  let owner ← ofExcept (classes.require slot.className)
  let raw := (owner.attributes.find? (·.name = slot.name)).bind (·.raw)
  match raw with
  | some word => return word
  | none =>
    if slot.type = Builtin.intName then LowerM.int 0
    else if slot.type = Builtin.boolName then return Literal.boolLabel false
    else if slot.type = Builtin.stringName then LowerM.string []
    else return "0"

def prototypeOf (classes : ClassTable) (c : ClassEntry) : LowerM Prototype := do
  let slots ←
    if c.name = Builtin.stringName then
      LowerM.int 0 <&> fun length => [PrototypeSlot.emptyString length]
    else (classes.slots c).mapM fun slot => .word <$> prototypeWord classes slot
  return { className := c.name, tag := c.tag, words := (classes.objectSize c.tag).1, slots }

def dispatchTableOf (classes : ClassTable) (c : ClassEntry) : DispatchTable :=
  { className := c.name, labels := (classes.entries c).map (·.label) }

def contextOf (options : Options) (classes : ClassTable) (c : ClassEntry) (formals : List Binder)
    (planned : BindingSite → Option Nat) : Context :=
  { classes
    current := c
    file := (c.decl.map (·.file)).getD []
    formals
    planned
    barrier := options.gc = .generational }

def attributeStore (ctx : Context) (a : AttributeDecl) : LowerM AttributeStore := do
  let target ← ofExcept
    (Location.ofAttribute ctx.current.name (ctx.classes.slots ctx.current) a.name)
  return { value := ← a.init.lower ctx, offset := target.offset, barrier := ctx.barrier }

def ClassEntry.initialized (c : ClassEntry) : List AttributeDecl :=
  c.attributes.filter (!·.init.isAbsent)

section Routines

variable {Node : Type} [DecidableEq Node] (node : BindingSite → Node) (options : Options)
  (classes : ClassTable) (c : ClassEntry)

/-- The initializers of one class share a frame. -/
def initPlan : FramePlan := planAll 0 (c.initialized.map (·.init))

def initContext : Context := contextOf options classes c [] ((initPlan c).depth? node)

def initRoutineIn : LowerM InitRoutine := do
  let ctx := initContext node options classes c
  let stores ← c.initialized.zipIdx.mapM fun x => attributeStore (ctx.part x.2) x.1
  return {
    className := c.name
    parent := classes.parentNameOf? c
    frameWords := (initPlan c).words
    stores }

def methodPlan (m : MethodDecl) : FramePlan := planAll 0 [m.body]

def methodContext (m : MethodDecl) : Context :=
  (contextOf options classes c m.formals ((methodPlan m).depth? node)).part 0

def methodRoutineIn (m : MethodDecl) : LowerM MethodRoutine := do
  return {
    className := c.name
    method := m.name
    formals := m.formals.length
    frameWords := (methodPlan m).words
    body := ← m.body.lower (methodContext node options classes c m) }

end Routines

def initRoutine (options : Options) (classes : ClassTable) (c : ClassEntry) : LowerM InitRoutine :=
  initRoutineIn id options classes c

def methodRoutine (options : Options) (classes : ClassTable) (c : ClassEntry) (m : MethodDecl) :
    LowerM MethodRoutine :=
  methodRoutineIn id options classes c m

def ClassEntry.methodDecls (c : ClassEntry) : List (ClassEntry × MethodDecl) :=
  ((c.decl.map (·.methods)).getD []).map (c, ·)

def assembleWith (options : Options) (classes : ClassTable) (inits : LowerM (List InitRoutine))
    (methods : LowerM (List MethodRoutine)) : LowerM Image := do
  let tables ← classes.toList.mapM fun c => do
    let name ← LowerM.string (Bytes.ofText c.name)
    return (name, ← prototypeOf classes c, dispatchTableOf classes c)
  let inits ← inits
  let methods ← methods
  return {
    options
    literals := (← get).literals.entries
    classNames := tables.map (·.1)
    prototypes := tables.map (·.2.1)
    dispatchTables := tables.map (·.2.2)
    inits
    methods }

def assembleIn (nodes : NodeNames) (options : Options) (classes : ClassTable) : LowerM Image :=
  assembleWith options classes
    (classes.toList.mapM fun c =>
      initRoutineIn (nodes.binderAt (.initializers c.name)) options classes c)
    ((classes.toList.flatMap (·.methodDecls.zipIdx)).mapM fun ((c, m), i) =>
      methodRoutineIn (nodes.binderAt (.method c.name i)) options classes c m)

def assemble (options : Options) (classes : ClassTable) : LowerM Image :=
  assembleIn .tree options classes

end CoolBackend
