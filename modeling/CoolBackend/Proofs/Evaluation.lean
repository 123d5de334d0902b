import CoolBackend.Assemble

/-!
What expressions mean, up to the things that a body shares with the rest of the program. Those are
left to an interpretation: operations on values and on a shared state, which does not hold the
current frame. The variables of `let` and `case` are left to a storage, of which there are two: one
gives every variable a cell of its own and looks names up by scope; the other has the words of one
frame, and the locations that lowering resolves names to.
-/
namespace CoolBackend

abbrev Effect (S α : Type) := EStateM Unit S α

/-- The operations that an evaluation leaves open. A call knows all that its dispatch says but for
the receiver and the arguments themselves, of which it gets the values. -/
structure Interpretation (V S : Type) where
  self : Effect S V
  literal : Constant → Effect S V
  initial : String → Effect S V
  getAttribute : String → Effect S V
  setAttribute : String → V → Effect S Unit
  getFormal : String → Effect S V
  setFormal : String → V → Effect S Unit
  unary : UnaryOp → V → Effect S V
  binary : BinaryOp → V → V → Effect S V
  truth : V → Effect S Bool
  loopEnd : Effect S V
  emptyBlock : Effect S V
  /-- Stops at a void scrutinee. -/
  inspect : Info → V → Effect S Unit
  conforms : V → String → Effect S Bool
  unmatched : Info → V → Effect S V
  new : String → Effect S V
  call : Info → Option String → String → String → V → List V → Effect S V

/-- Where local variables live: `Env` is what an expression sees, `Store` what changes as it is
evaluated. Part `k` of an expression sees `part env k`; a variable is bound as variable `i` of its
`let` or `case`. -/
structure Storage (V Env Store : Type) where
  part : Env → Nat → Env
  bind : Env → Nat → String → V → Store → Option (Env × Store)
  read : Env → String → Store → Option V
  write : Env → String → V → Store → Option Store

/-- Every variable has a cell of its own, and a name means its innermost binding. -/
def lexical (V : Type) : Storage V (List (String × Nat)) (List V) where
  part scope _ := scope
  bind scope _ name value cells := some ((name,cells.length) :: scope,cells ++ [value])
  read scope name cells := (scope.lookup name).bind (cells[·]?)
  write scope name value cells := (scope.lookup name).map (cells.set · value)

/-- The word of the frame at a location: word `i` is `i + 1` words below the frame pointer. -/
def Location.word? (location : Location) : Option Nat :=
  if location.base = .frame ∧ location.offset < 0 ∧ location.offset % wordSize = 0 then
    some (location.offset.natAbs / wordSize - 1)
  else none

def readWord {V : Type} (frame : List V) (location : Location) : Option V :=
  location.word?.bind (frame[·]?)

def writeWord {V : Type} (frame : List V) (location : Location) (value : V) : Option (List V) :=
  location.word?.bind fun i => if i < frame.length then some (frame.set i value) else none

/-- The words of a frame. Variables are put at the planned depths, and names are resolved in the
contexts that lowering builds. -/
def framed (V : Type) : Storage V Context (List V) where
  part := Context.part
  bind ctx i name value frame := (ctx.planned ⟨[],i⟩).bind fun depth =>
    (writeWord frame (Location.ofDepth depth) value).map (ctx.bind name depth,·)
  read ctx name frame := (ctx.resolve name .localVar).toOption.bind (readWord frame)
  write ctx name value frame :=
    (ctx.resolve name .localVar).toOption.bind (writeWord frame · value)

/-- Why an evaluation has no value: an operation aborted, the fuel ran out, or there is nothing to
evaluate or no variable of that name. -/
inductive Halt where
  | aborted
  | outOfFuel
  | stuck
  deriving DecidableEq

abbrev EvalM (S Store α : Type) := EStateM Halt (S × Store) α

section Evaluation

variable {V S Env Store : Type}

def EvalM.shared {α : Type} (effect : Effect S α) : EvalM S Store α := fun (s,store) =>
  match effect s with
  | .ok a s => .ok a (s,store)
  | .error _ s => .error .aborted (s,store)

def EvalM.onStore {α : Type} (work : Store → Option (α × Store)) : EvalM S Store α :=
  fun (s,store) =>
    match work store with
    | some (a,store) => .ok a (s,store)
    | none => .error .stuck (s,store)

open EvalM

variable (I : Interpretation V S) (M : Storage V Env Store)

def readVariable (env : Env) (name : String) : Scope → EvalM S Store V
  | .attr => shared (I.getAttribute name)
  | .formal => shared (I.getFormal name)
  | .localVar => onStore fun store => (M.read env name store).map (·,store)
  | .unknown | .other _ => throw .stuck

def writeVariable (env : Env) (name : String) (value : V) : Scope → EvalM S Store Unit
  | .attr => shared (I.setAttribute name value)
  | .formal => shared (I.setFormal name value)
  | .localVar => onStore fun store => (M.write env name value store).map ((),·)
  | .unknown | .other _ => throw .stuck

def bindVariable (env : Env) (i : Nat) (name : String) (value : V) : EvalM S Store Env :=
  onStore (M.bind env i name value)

section Sequences

variable (eval : Env → Expr → EvalM S Store V)

def evalBlock (env : Env) : Nat → List Expr → EvalM S Store V
  | _, [] => shared I.emptyBlock
  | k, [e] => eval (M.part env k) e
  | k, e :: next :: rest => do
    let _ ← eval (M.part env k) e
    evalBlock env (k + 1) (next :: rest)

def evalArgs (env : Env) : Nat → List Expr → EvalM S Store (List V)
  | _, [] => pure []
  | k, e :: rest => do
    let values ← evalArgs env (k + 1) rest
    return (← eval (M.part env k) e) :: values

/-- Binds the variables of a `let` from variable `i` on, each seeing those before it, and evaluates
the body, which is the last part. -/
def evalLet (body : Expr) : Nat → List (Binder × Expr) → Env → EvalM S Store V
  | k, [], env => eval (M.part env k) body
  | i, (b,init) :: rest, env => do
    let value ← (if init.isAbsent then shared (I.initial b.type) else eval (M.part env i) init :
      EvalM S Store V)
    let inner ← bindVariable M env i b.name value
    evalLet body (i + 1) rest inner

def evalBranches (info : Info) (value : V) (env : Env) :
    Nat → List (Binder × Expr) → EvalM S Store V
  | _, [] => shared (I.unmatched info value)
  | i, (b,body) :: rest => do
    if ← shared (I.conforms value b.type) then
      let inner ← bindVariable M env i b.name value
      eval (M.part inner (i + 1)) body
    else evalBranches info value env (i + 1) rest

end Sequences

/-- The value of an expression. Fuel bounds how deep evaluations nest; every round of a loop is one
inside the other. -/
def evaluate : Nat → Env → Expr → EvalM S Store V
  | 0, _, _ => throw .outOfFuel
  | fuel + 1, env, e =>
    match e with
    | .absent => throw .stuck
    | .constant _ value => shared (I.literal value)
    | .ident _ name kind =>
      if name = selfName then shared I.self else readVariable I M env name kind
    | .assign _ name kind value => do
      let value ← evaluate fuel (M.part env 0) value
      writeVariable I M env name value kind
      return value
    | .unary _ op operand => do
      let value ← evaluate fuel (M.part env 0) operand
      shared (I.unary op value)
    | .binary _ op left right => do
      let left ← evaluate fuel (M.part env 0) left
      let right ← evaluate fuel (M.part env 1) right
      shared (I.binary op left right)
    | .cond _ test yes no => do
      let value ← evaluate fuel (M.part env 0) test
      if ← shared (I.truth value) then evaluate fuel (M.part env 1) yes
      else evaluate fuel (M.part env 2) no
    | .loop info test body => do
      let value ← evaluate fuel (M.part env 0) test
      if ← shared (I.truth value) then
        let _ ← evaluate fuel (M.part env 1) body
        evaluate fuel env (.loop info test body)
      else shared I.loopEnd
    | .block _ exprs => evalBlock I M (evaluate fuel) env 0 exprs
    | .letIn _ bindings body => evalLet I M (evaluate fuel) body 0 bindings env
    | .caseOf info scrutinee branches => do
      let value ← evaluate fuel (M.part env 0) scrutinee
      shared (I.inspect info value)
      evalBranches I M (evaluate fuel) info value env 0 branches
    | .new _ className => shared (I.new className)
    | .dispatch info receiver staticClass method args => do
      let values ← evalArgs M (evaluate fuel) env 1 args
      let value ← (if receiver.isAbsent then shared I.self
        else evaluate fuel (M.part env 0) receiver : EvalM S Store V)
      let type := if receiver.isAbsent then none else some receiver.staticType
      shared (I.call info type staticClass method value values)

def runInitializers (fuel : Nat) (env : Env) : Nat → List AttributeDecl → EvalM S Store Unit
  | _, [] => pure ()
  | k, a :: rest => do
    let value ← evaluate I M fuel (M.part env k) a.init
    shared (I.setAttribute a.name value)
    runInitializers fuel env (k + 1) rest

end Evaluation

/-- What an evaluation leaves to the rest of the program: the local store is given up. -/
def outcome {S Store α : Type} : EStateM.Result Halt (S × Store) α → EStateM.Result Halt S α
  | .ok a (s,_) => .ok a s
  | .error h (s,_) => .error h s

end CoolBackend
