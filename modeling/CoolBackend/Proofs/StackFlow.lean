import CoolBackend.Proofs.FreshLabels

/-!
Control moves through a listing from line to line, or from a branch to its label. The stack is
followed as one fragment of code sees it: its height against that at entry, and the words that the
fragment has stored and that nothing has given up since. If reading a listing from top to bottom
finds the same stack at every branch and at its label, then every path finds what that reading
finds.
-/
namespace CoolBackend.Assembly

/-- What an instruction adds to the height of the stack. The routine that a `jalr` calls takes its
arguments off; all others leave the height as it was. -/
def Instruction.raise : Instruction → Int
  | addiu .sp .sp amount => amount
  | jalr _ arguments => wordSize * arguments
  | _ => 0

def Instruction.releases : Instruction → Bool
  | addiu .sp .sp _ | jal _ | jalr _ _ => true
  | _ => false

/-- The height of the stack, and the addresses of the words that were stored and are still held.
Both count from the height at entry. -/
structure StackState where
  height : Int
  stored : List Int
  deriving DecidableEq

namespace StackState

def entry : StackState := ⟨0,[]⟩

/-- The stack after an instruction. Whoever moves the stack pointer or calls a routine gives up the
words that do not lie above the stack pointer then. -/
def after (σ : StackState) (i : Instruction) : StackState where
  height := σ.height + i.raise
  stored := match i with
    | .sw _ offset .sp => (σ.height + offset) :: σ.stored
    | _ => if i.releases then σ.stored.filter (σ.height + i.raise < ·) else σ.stored

def afterLine (σ : StackState) : Line → StackState
  | .instruction i => σ.after i
  | _ => σ

def scan (σ : StackState) (lines : List Line) : StackState := lines.foldl afterLine σ

end StackState

def Line.stops : Line → Bool
  | instruction (.b _) | instruction (.jr _) => true
  | _ => false

inductive Step (lines : List Line) : Nat → StackState → Nat → StackState → Prop where
  | next {n : Nat} {σ : StackState} {line : Line} (here : lines[n]? = some line)
      (falls : line.stops = false) : Step lines n σ (n + 1) (σ.afterLine line)
  | jump {n m : Nat} {σ : StackState} {i : Instruction} {target : String}
      (here : lines[n]? = some (.instruction i)) (names : i.target? = some target)
      (there : lines[m]? = some (.label target)) : Step lines n σ m (σ.after i)

/-- The lines that control can come to, and the stack that it can find there, when it enters a
listing at its first line. -/
inductive Reaches (lines : List Line) : Nat → StackState → Prop where
  | entry : Reaches lines 0 .entry
  | step {n m : Nat} {σ τ : StackState} (before : Reaches lines n σ) (move : Step lines n σ m τ) :
      Reaches lines m τ

structure Disciplined (lines : List Line) : Prop where
  /-- Control goes on until it comes to the end. -/
  progress : ∀ n σ, Reaches lines n σ → n < lines.length → ∃ m τ, Step lines n σ m τ
  /-- At the end the stack is as high as it was at entry. -/
  restored : ∀ σ, Reaches lines lines.length σ → σ.height = 0
  /-- It never gets higher. -/
  bounded : ∀ n σ, Reaches lines n σ → σ.height ≤ 0
  /-- It has one height at every label, from wherever control comes. -/
  agreed : ∀ name n m σ τ, lines[n]? = some (.label name) → lines[m]? = some (.label name) →
    Reaches lines n σ → Reaches lines m τ → σ.height = τ.height
  /-- What is read through the stack pointer is a word that the fragment itself stored there. -/
  held : ∀ n σ target offset, lines[n]? = some (.instruction (.lw target offset .sp)) →
    Reaches lines n σ → σ.height + offset ∈ σ.stored

open StackState

@[simp] theorem scan_nil (σ : StackState) : σ.scan [] = σ := rfl

@[simp] theorem scan_append (σ : StackState) (lines rest : List Line) :
    σ.scan (lines ++ rest) = (σ.scan lines).scan rest := List.foldl_append

@[simp] theorem scan_cons (σ : StackState) (l : Line) (rest : List Line) :
    σ.scan (l :: rest) = (σ.afterLine l).scan rest := rfl

def annotated (σ : StackState) : List Line → List (Line × StackState)
  | [] => []
  | l :: rest => (l,σ) :: annotated (σ.afterLine l) rest

@[simp] theorem annotated_nil (σ : StackState) : annotated σ [] = [] := rfl

@[simp] theorem annotated_cons (σ : StackState) (l : Line) (rest : List Line) :
    annotated σ (l :: rest) = (l,σ) :: annotated (σ.afterLine l) rest := rfl

@[simp] theorem annotated_append (σ : StackState) (lines rest : List Line) :
    annotated σ (lines ++ rest) = annotated σ lines ++ annotated (σ.scan lines) rest := by
  induction lines generalizing σ with
  | nil => rfl
  | cons l lines ih => simp [ih]

theorem annotated_at {σ : StackState} {lines : List Line} {n : Nat} {l : Line}
    (here : lines[n]? = some l) : (l,σ.scan (lines.take n)) ∈ annotated σ lines := by
  induction lines generalizing σ n with
  | nil => cases here
  | cons first rest ih =>
    cases n with
    | zero =>
      cases here
      exact List.mem_cons_self
    | succ n => exact List.mem_cons_of_mem _ (ih (by simpa using here))

theorem of_mem_annotated {σ ρ : StackState} {lines : List Line} {l : Line}
    (member : (l,ρ) ∈ annotated σ lines) :
    ∃ n, lines[n]? = some l ∧ ρ = σ.scan (lines.take n) := by
  induction lines generalizing σ with
  | nil => cases member
  | cons first rest ih =>
    rcases List.mem_cons.mp member with same | later
    · cases same
      exact ⟨0,rfl,rfl⟩
    · obtain ⟨n,here,state⟩ := ih later
      exact ⟨n + 1,by simpa using here,state⟩

/-- A label that is defined once stands on one line. -/
theorem label_position {lines : List Line} (unique : (labelsIn lines).Nodup) {name : String}
    {n m : Nat} (first : lines[n]? = some (.label name)) (second : lines[m]? = some (.label name)) :
    n = m := by
  have defines {rest : List Line} {k : Nat} (here : rest[k]? = some (.label name)) :
      name ∈ labelsIn rest := List.mem_filterMap.mpr ⟨_,List.mem_of_getElem? here,rfl⟩
  induction lines generalizing n m with
  | nil => cases first
  | cons l rest ih =>
    have split : labelsIn (l :: rest) = labelsIn [l] ++ labelsIn rest := labelsIn_append [l] rest
    rw [split] at unique
    obtain ⟨-,others,apart⟩ := List.nodup_append.mp unique
    have once {k : Nat} (here : l = .label name) (later : rest[k]? = some (.label name)) : False :=
      apart name (by simp [here]) name (defines later) rfl
    cases n with
    | zero =>
      cases m with
      | zero => rfl
      | succ m => exact (once (by simpa using first) (by simpa using second)).elim
    | succ n =>
      cases m with
      | zero => exact (once (by simpa using second) (by simpa using first)).elim
      | succ m => exact congrArg (· + 1) (ih others (by simpa using first) (by simpa using second))

theorem after_target {i : Instruction} {target : String} (names : i.target? = some target)
    (σ : StackState) : σ.after i = σ := by
  cases i <;> simp_all [Instruction.target?,after,Instruction.raise,Instruction.releases]

/-- What a reading from top to bottom has to find: the height is never above `top`, every word that
is read is held, and the stack at a branch is that at a label, here or, for those in `outs`, further
on. The labels in `ins` stand here. -/
structure Spans (top : Int) (σ τ : StackState) (outs ins : List (String × StackState))
    (lines : List Line) : Prop where
  scan : σ.scan lines = τ
  bounded : ∀ p ∈ annotated σ lines, p.2.height ≤ top
  held : ∀ target offset ρ, (.instruction (.lw target offset .sp),ρ) ∈ annotated σ lines →
    ρ.height + offset ∈ ρ.stored
  jumps : ∀ i target ρ, (.instruction i,ρ) ∈ annotated σ lines → i.target? = some target →
    (.label target,ρ) ∈ annotated σ lines ∨ (target,ρ) ∈ outs
  labels : ∀ p ∈ ins, (.label p.1,p.2) ∈ annotated σ lines
  stays : ∀ target, .instruction (.jr target) ∉ lines

/-- Every path finds what the reading from top to bottom finds. -/
theorem Spans.reaches {lines : List Line} {τ : StackState} (spans : Spans 0 .entry τ [] [] lines)
    (unique : (labelsIn lines).Nodup) {n : Nat} {σ : StackState} (path : Reaches lines n σ) :
    n ≤ lines.length ∧ σ = StackState.entry.scan (lines.take n) := by
  induction path with
  | entry => exact ⟨Nat.zero_le _,rfl⟩
  | step before move ih =>
    obtain ⟨-,state⟩ := ih
    cases move with
    | next here falls =>
      obtain ⟨inside,-⟩ := List.getElem?_eq_some_iff.mp here
      refine ⟨inside,?_⟩
      rw [List.take_add_one,here,state]
      simp
    | jump here names there =>
      obtain ⟨inside,-⟩ := List.getElem?_eq_some_iff.mp there
      refine ⟨Nat.le_of_lt inside,?_⟩
      rcases spans.jumps _ _ _ (annotated_at here) names with found | outside
      · obtain ⟨k,at_k,same⟩ := of_mem_annotated found
        rw [label_position unique there at_k,after_target names,state,same]
      · cases outside

theorem Spans.disciplined {lines : List Line} (spans : Spans 0 .entry .entry [] [] lines)
    (unique : (labelsIn lines).Nodup) : Disciplined lines where
  progress n σ path inside := by
    obtain ⟨l,here⟩ : ∃ l, lines[n]? = some l := ⟨_,List.getElem?_eq_getElem inside⟩
    by_cases stops : l.stops = true
    · cases l with
      | instruction i =>
        cases i with
        | b target =>
          rcases spans.jumps _ target _ (annotated_at here) rfl with found | outside
          · obtain ⟨k,at_k,-⟩ := of_mem_annotated found
            exact ⟨_,_,.jump here rfl at_k⟩
          · cases outside
        | jr target => exact absurd (List.mem_of_getElem? here) (spans.stays target)
        | _ => cases stops
      | _ => cases stops
    · exact ⟨_,_,.next here (by simpa using stops)⟩
  restored σ path := by
    obtain ⟨-,rfl⟩ := spans.reaches unique path
    rw [List.take_length,spans.scan]
    rfl
  bounded n σ path := by
    obtain ⟨inside,rfl⟩ := spans.reaches unique path
    rcases Nat.lt_or_eq_of_le inside with before | rfl
    · exact spans.bounded _ (annotated_at (List.getElem?_eq_getElem before))
    · rw [List.take_length,spans.scan]
      exact Int.le_refl 0
  agreed name n m σ τ here there first second := by
    obtain ⟨-,rfl⟩ := spans.reaches unique first
    obtain ⟨-,rfl⟩ := spans.reaches unique second
    rw [label_position unique here there]
  held n σ target offset here path := by
    obtain ⟨-,rfl⟩ := spans.reaches unique path
    exact spans.held _ _ _ (annotated_at here)

end CoolBackend.Assembly
