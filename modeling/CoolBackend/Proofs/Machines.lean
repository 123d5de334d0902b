import CoolBackend.Proofs.Listing

/-!
A machine with registers and words of memory, and what the instructions that move data around do to
it. Code with parts that are evaluated elsewhere runs in pieces: its own lines, and the parts, of
which only their outcome is known.
-/
namespace CoolBackend.Assembly

structure Machine where
  reg : Register → Int
  word : Int → Int

namespace Machine

def set (m : Machine) (target : Register) (value : Int) : Machine :=
  { m with reg := fun r => if r = target then value else m.reg r }

def store (m : Machine) (address value : Int) : Machine :=
  { m with word := fun a => if a = address then value else m.word a }

@[simp] theorem set_reg (m : Machine) (target r : Register) (value : Int) :
    (m.set target value).reg r = if r = target then value else m.reg r := rfl

@[simp] theorem set_word (m : Machine) (target : Register) (value : Int) :
    (m.set target value).word = m.word := rfl

@[simp] theorem store_reg (m : Machine) (address value : Int) :
    (m.store address value).reg = m.reg := rfl

@[simp] theorem store_word (m : Machine) (address value a : Int) :
    (m.store address value).word a = if a = address then value else m.word a := rfl

end Machine

/-- The instructions that move data between registers and memory. -/
def Instruction.exec (symbols : String → Int) : Instruction → Machine → Option Machine
  | la target label, m => some (m.set target (symbols label))
  | li target value, m => some (m.set target value)
  | move target source, m => some (m.set target (m.reg source))
  | lw target offset base, m => some (m.set target (m.word (m.reg base + offset)))
  | sw source offset base, m => some (m.store (m.reg base + offset) (m.reg source))
  | addiu target source amount, m => some (m.set target (m.reg source + amount))
  | _, _ => none

/-- Runs lines until control leaves them behind. While a label is awaited, lines are passed over.
Nothing comes out if control does not get to the end: a routine that is called here does not
return. -/
def exec (symbols : String → Int) : List Line → Option String → Machine → Option Machine
  | [], none, m => some m
  | [], some _, _ => none
  | .label name :: rest, some awaited, m =>
    exec symbols rest (if name = awaited then none else some awaited) m
  | _ :: rest, some awaited, m => exec symbols rest (some awaited) m
  | .instruction (.jr _) :: _, none, m => some m
  | .instruction (.bnez source label) :: rest, none, m =>
    exec symbols rest (if m.reg source = 0 then none else some label) m
  | .instruction i :: rest, none, m => (i.exec symbols m).bind (exec symbols rest none)
  | _ :: rest, none, m => exec symbols rest none m

inductive Piece where
  | own (lines : List Line)
  | part (code : Code)

def Piece.lines : Piece → List Line
  | own lines => lines
  | part code => block code.lines

/-- A part is evaluated: its value is in `$a0`, and the registers of the surroundings and the words
that lie above the stack pointer, up to `base`, are as they were. -/
structure Evaluates (base value : Int) (m m' : Machine) : Prop where
  value : m'.reg .a0 = value
  sp : m'.reg .sp = m.reg .sp
  fp : m'.reg .fp = m.reg .fp
  s0 : m'.reg .s0 = m.reg .s0
  words : ∀ a, m.reg .sp < a → a ≤ base → m'.word a = m.word a

/-- Control passes through pieces of code, whose parts evaluate to the values in turn. -/
inductive Passes (symbols : String → Int) (base : Int) :
    List Piece → Machine → List Int → Machine → Prop where
  | nil (m : Machine) : Passes symbols base [] m [] m
  | own {lines : List Line} {rest : List Piece} {m m' m'' : Machine} {values : List Int}
      (run : exec symbols lines none m = some m') (later : Passes symbols base rest m' values m'') :
      Passes symbols base (.own lines :: rest) m values m''
  | part {code : Code} {rest : List Piece} {m m' m'' : Machine} {value : Int} {values : List Int}
      (run : Evaluates base value m m') (later : Passes symbols base rest m' values m'') :
      Passes symbols base (.part code :: rest) m (value :: values) m''

/-- Passing through pieces one after the other. -/
theorem Passes.split {symbols : String → Int} {base : Int} {pieces rest : List Piece}
    {m m'' : Machine} {values : List Int}
    (passes : Passes symbols base (pieces ++ rest) m values m'') :
    ∃ first others m', values = first ++ others ∧ Passes symbols base pieces m first m' ∧
      Passes symbols base rest m' others m'' := by
  induction pieces generalizing m values with
  | nil => exact ⟨[],values,m,rfl,.nil m,passes⟩
  | cons piece pieces ih =>
    cases passes with
    | own run later =>
      obtain ⟨first,others,m',rfl,here,there⟩ := ih later
      exact ⟨first,others,m',rfl,.own run here,there⟩
    | part run later =>
      obtain ⟨first,others,m',rfl,here,there⟩ := ih later
      exact ⟨_ :: first,others,m',rfl,.part run here,there⟩

end CoolBackend.Assembly
