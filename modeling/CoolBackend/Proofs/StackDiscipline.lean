import CoolBackend.Proofs.StackFlow

/-!
Lowered code pushes what it needs later, and takes it off again: between a push and its pop only
code runs that keeps the stack itself, and a call takes off what was pushed for it. So every piece
of code keeps its discipline on every path through it, loops and branches included.
-/
namespace CoolBackend.Assembly

namespace StackState

/-- The height is at most `top`, and all words that are held lie above the stack pointer. -/
structure Held (top : Int) (σ : StackState) : Prop where
  height : σ.height ≤ top
  above : ∀ a ∈ σ.stored, σ.height < a

variable {top : Int} {σ : StackState}

theorem held_entry : Held 0 entry := ⟨Int.le_refl 0,List.forall_mem_nil _⟩

def push (σ : StackState) : StackState := ⟨σ.height - 4,σ.height :: σ.stored⟩

@[simp] theorem height_push (σ : StackState) : σ.push.height = σ.height - 4 := rfl

def pushed (σ : StackState) : Nat → StackState
  | 0 => σ
  | n + 1 => σ.push.pushed n

theorem Held.push (held : Held top σ) : Held top σ.push := by
  have bound := held.height
  refine ⟨by rw [height_push]; omega,List.forall_mem_cons.mpr ⟨by rw [height_push]; omega,?_⟩⟩
  intro a member
  have above := held.above a member
  rw [height_push]
  omega

theorem Held.pushed (held : Held top σ) (n : Nat) : Held top (σ.pushed n) := by
  induction n generalizing σ with
  | zero => exact held
  | succ n ih => exact ih held.push

theorem height_pushed (n : Nat) : (σ.pushed n).height = σ.height - 4 * n := by
  induction n generalizing σ with
  | zero => simp [StackState.pushed]
  | succ n ih =>
    rw [StackState.pushed,ih,height_push]
    omega

/-- Words that lie above the stack pointer are kept. -/
theorem Held.filter (held : Held top σ) : σ.stored.filter (σ.height < ·) = σ.stored :=
  List.filter_eq_self.mpr (by simpa using held.above)

theorem filter_pushed (held : Held top σ) (n : Nat) {level : Int} (low : σ.height ≤ level) :
    (σ.pushed n).stored.filter (level < ·) = σ.stored.filter (level < ·) := by
  induction n generalizing σ with
  | zero => rfl
  | succ n ih =>
    have lower : σ.push.height ≤ level := by
      rw [height_push]
      omega
    rw [StackState.pushed,ih held.push lower,StackState.push,List.filter_cons_of_neg]
    simpa using low

end StackState

open StackState

/-- An instruction that leaves the stack alone: it neither moves the stack pointer nor reads or
writes through it. -/
def Instruction.plain : Instruction → Bool
  | lw target _ base => target ≠ .sp && base ≠ .sp
  | sw _ _ base => base ≠ .sp
  | addiu target _ _ => target ≠ .sp
  | jalr _ _ | jr _ => false
  | _ => true

theorem after_releases {σ : StackState} {i : Instruction} (releases : i.releases) {height : Int}
    (next : σ.height + i.raise = height) :
    σ.after i = ⟨height,σ.stored.filter (height < ·)⟩ := by
  subst next
  cases i <;> simp_all [after,Instruction.releases]

theorem after_plain {top : Int} {σ : StackState} (held : σ.Held top) {i : Instruction}
    (plain : i.plain) : σ.after i = σ := by
  cases i with
  | jal label => rw [after_releases rfl (Int.add_zero _),held.filter]
  | sw source offset base =>
    cases base <;> simp_all [after,Instruction.raise,Instruction.releases,Instruction.plain]
  | addiu target source amount =>
    cases target <;> simp_all [after,Instruction.raise,Instruction.releases,Instruction.plain]
  | _ => simp_all [after,Instruction.raise,Instruction.releases,Instruction.plain]

namespace Spans

variable {top : Int} {σ τ υ : StackState} {outs ins outs' ins' : List (String × StackState)}
  {lines rest : List Line}

theorem nil : Spans top σ σ [] [] [] where
  scan := rfl
  bounded := List.forall_mem_nil _
  held _ _ _ member := by cases member
  jumps _ _ _ member := by cases member
  labels := List.forall_mem_nil _
  stays _ member := by cases member

theorem append (first : Spans top σ τ outs ins lines) (second : Spans top τ υ outs' ins' rest) :
    Spans top σ υ (outs ++ outs') (ins ++ ins') (lines ++ rest) where
  scan := by rw [scan_append,first.scan,second.scan]
  bounded := by
    rw [annotated_append,first.scan]
    exact List.forall_mem_append.mpr ⟨first.bounded,second.bounded⟩
  held target offset ρ member := by
    rw [annotated_append,first.scan] at member
    rcases List.mem_append.mp member with here | there
    · exact first.held target offset ρ here
    · exact second.held target offset ρ there
  jumps i target ρ member names := by
    rw [annotated_append,first.scan] at member ⊢
    rcases List.mem_append.mp member with here | there
    · rcases first.jumps i target ρ here names with found | out
      · exact .inl (List.mem_append_left _ found)
      · exact .inr (List.mem_append_left _ out)
    · rcases second.jumps i target ρ there names with found | out
      · exact .inl (List.mem_append_right _ found)
      · exact .inr (List.mem_append_right _ out)
  labels := by
    rw [annotated_append,first.scan]
    exact List.forall_mem_append.mpr
      ⟨fun p member => List.mem_append_left _ (first.labels p member),
        fun p member => List.mem_append_right _ (second.labels p member)⟩
  stays target member := by
    rcases List.mem_append.mp member with here | there
    · exact first.stays target here
    · exact second.stays target there

/-- Jumps may be left open. -/
theorem weaken (spans : Spans top σ τ outs ins lines) (wider : ∀ p ∈ outs, p ∈ outs') :
    Spans top σ τ outs' ins lines where
  scan := spans.scan
  bounded := spans.bounded
  held := spans.held
  jumps i target ρ member names := (spans.jumps i target ρ member names).imp_right (wider _)
  labels := spans.labels
  stays := spans.stays

/-- All jumps lead to labels that stand here. -/
theorem close (spans : Spans top σ τ outs ins lines) (defined : ∀ p ∈ outs, p ∈ ins) :
    Spans top σ τ [] [] lines where
  scan := spans.scan
  bounded := spans.bounded
  held := spans.held
  jumps i target ρ member names := by
    rcases spans.jumps i target ρ member names with found | out
    · exact .inl found
    · exact .inl (spans.labels _ (defined _ out))
  labels := List.forall_mem_nil _
  stays := spans.stays

theorem label (held : σ.Held top) (name : String) :
    Spans top σ σ [] [(name,σ)] [.label name] where
  scan := rfl
  bounded := List.forall_mem_singleton.mpr held.height
  held _ _ _ member := by simp at member
  jumps _ _ _ member := by simp at member
  labels := List.forall_mem_singleton.mpr List.mem_cons_self
  stays _ member := by simp at member

theorem blank (held : σ.Held top) : Spans top σ σ [] [] [.blank] where
  scan := rfl
  bounded := List.forall_mem_singleton.mpr held.height
  held _ _ _ member := by simp at member
  jumps _ _ _ member := by simp at member
  labels := List.forall_mem_nil _
  stays _ member := by simp at member

/-- One instruction, which may read through the stack pointer what is held there. -/
theorem single {i : Instruction} (next : σ.after i = τ) (bound : σ.height ≤ top)
    (reads : ∀ target offset, i = .lw target offset .sp → σ.height + offset ∈ σ.stored)
    (stays : ∀ target, i ≠ .jr target) :
    Spans top σ τ (i.target?.map (·,σ)).toList [] (code [i]) where
  scan := next
  bounded := List.forall_mem_singleton.mpr bound
  held target offset ρ member := by
    cases List.mem_singleton.mp member
    exact reads target offset rfl
  jumps j target ρ member names := by
    cases List.mem_singleton.mp member
    exact .inr (by simp [names])
  labels := List.forall_mem_nil _
  stays target member := by
    have same := List.mem_singleton.mp member
    simp only [Line.instruction.injEq] at same
    exact stays target same.symm

theorem plain (instructions : List Instruction) (held : σ.Held top)
    (each : ∀ i ∈ instructions, i.plain) :
    Spans top σ σ (instructions.flatMap fun i => (i.target?.map (·,σ)).toList) []
      (code instructions) := by
  induction instructions with
  | nil => exact .nil
  | cons i instructions ih =>
    obtain ⟨here,each⟩ := List.forall_mem_cons.mp each
    refine (single (after_plain held here) held.height ?_ ?_).append (ih each)
    · rintro target offset rfl
      simp [Instruction.plain] at here
    · rintro target rfl
      simp [Instruction.plain] at here

/-- Puts a register on the stack. -/
theorem push (held : σ.Held top) (source : Register) :
    Spans top σ σ.push [] [] (code [.sw source 0 .sp,.addiu .sp .sp (-4)]) := by
  have stored : σ.after (.sw source 0 .sp) = ⟨σ.height,σ.height :: σ.stored⟩ := by
    simp [after,Instruction.raise]
  have moved : StackState.after ⟨σ.height,σ.height :: σ.stored⟩ (.addiu .sp .sp (-4)) = σ.push := by
    rw [after_releases rfl rfl]
    exact congrArg (StackState.mk _) held.push.filter
  exact (single stored held.height (by simp) (by simp)).append
    (single moved held.height (by simp) (by simp))

/-- Takes the last word off the stack. -/
theorem pop (held : σ.Held top) : Spans top σ.push σ [] [] (code Code.pop) := by
  have bound := held.push.height
  have read : σ.push.after (.lw .t1 4 .sp) = σ.push := by
    simp [after,Instruction.raise,Instruction.releases,StackState.push]
  have moved : σ.push.after (.addiu .sp .sp 4) = σ := by
    rw [after_releases rfl (Int.sub_add_cancel σ.height 4)]
    exact congrArg (StackState.mk _) ((filter_pushed held 1 (Int.le_refl _)).trans held.filter)
  exact (single read bound (by simp [StackState.push]) (by simp)).append
    (single moved bound (by simp) (by simp))

/-- A call takes its arguments off. -/
theorem call (held : σ.Held top) (target : Register) (n : Nat) :
    Spans top (σ.pushed n) σ [] [] (code [.jalr target n]) := by
  have height : (σ.pushed n).height + (Instruction.jalr target n).raise = σ.height := by
    rw [height_pushed,Instruction.raise,wordSize]
    omega
  have next : (σ.pushed n).after (.jalr target n) = σ := by
    rw [after_releases rfl height]
    exact congrArg (StackState.mk _) ((filter_pushed held n (Int.le_refl _)).trans held.filter)
  exact single next (held.pushed n).height (by simp) (by simp)

end Spans

/-- Lines that leave every stack as they found it. -/
def Level (lines : List Line) : Prop := ∀ top σ, σ.Held top → Spans top σ σ [] [] lines

namespace Level

variable {lines rest : List Line}

theorem append (first : Level lines) (second : Level rest) : Level (lines ++ rest) :=
  fun top σ held => (first top σ held).append (second top σ held)

theorem block (level : Level lines) : Level (block lines) := by
  by_cases empty : lines = []
  · subst empty
    exact fun _ _ held => .blank held
  · rwa [block_eq empty]

end Level

end CoolBackend.Assembly

namespace CoolBackend

open Assembly StackState

def LevelCode (_ : Supply) (code : Code) (_ : Supply) : Prop := Level code.lines

namespace LevelCode

variable {s t : Supply} {codes : List Code}

theorem linesOf (chain : Chain LevelCode s codes t) : Level (Code.linesOf codes) := by
  induction chain with
  | nil => exact fun _ _ _ => .nil
  | cons first _ ih => exact first.append ih

/-- Arguments are pushed one after the other. -/
theorem pushLines (chain : Chain LevelCode s codes t) {top : Int} {σ : StackState}
    (held : σ.Held top) :
    Spans top σ (σ.pushed codes.length) [] [] (Code.pushLines codes) := by
  induction chain generalizing σ with
  | nil => exact .nil
  | cons first _ ih =>
    exact ((first.block top σ held).append (.push held .a0)).append (ih held.push)

theorem branchLines {tests : List (Nat × String)} {branches : List (BranchHead × Code)}
    (chain : BranchChain LevelCode s tests branches t) {top : Int} {σ : StackState}
    (held : σ.Held top) (endLabel : String) :
    Spans top σ σ (branches.map fun _ => (endLabel,σ)) (branches.map fun b => (b.1.label,σ))
      (Code.branchLines endLabel branches) := by
  induction chain with
  | nil => exact .nil
  | cons tags slot first _ ih =>
    have store := Spans.plain [.sw .a0 slot.offset .fp] held (by simp [Instruction.plain])
    have leave := Spans.plain [.b endLabel] held (by simp [Instruction.plain])
    have body := first.block top σ held
    exact ((((Spans.label held _).append store).append body).append leave).append ih

end LevelCode

theorem checkVoid_level (site : Site) (handler : String) : Level (Code.checkVoid site handler) :=
  fun _ _ held => Spans.close
    (.append (.plain _ held (by simp [Instruction.plain])) (.label held site.label))
    (by simp [Instruction.target?])

/-- Tests lead to branches. -/
theorem BranchChain.tests_mem {P : Supply → Code → Supply → Prop} {s t : Supply}
    {tests : List (Nat × String)} {branches : List (BranchHead × Code)}
    (chain : BranchChain P s tests branches t) :
    ∀ test ∈ tests, ∃ b ∈ branches, b.1.label = test.2 := by
  induction chain with
  | nil => exact List.forall_mem_nil _
  | cons tags slot _ _ ih =>
    refine List.forall_mem_append.mpr ⟨?_,fun test member => ?_⟩
    · exact List.forall_mem_map.mpr fun _ _ => ⟨_,List.mem_cons_self,rfl⟩
    · obtain ⟨b,among,same⟩ := ih test member
      exact ⟨b,List.mem_cons_of_mem _ among,same⟩

theorem Base.toRegister_ne_sp (base : Base) : base.toRegister ≠ .sp := by
  cases base <;> simp [toRegister]

theorem testLines_spans {top : Int} {σ : StackState} (held : σ.Held top)
    (tests : List (Nat × String)) :
    Spans top σ σ (tests.map fun test => (test.2,σ)) [] (Code.testLines tests) := by
  induction tests with
  | nil => exact .nil
  | cons test rest ih =>
    have first := Spans.plain [.beqTag .t2 test.1 test.2] held (by simp [Instruction.plain])
    exact first.append ih

/-- Tests stand only where there are branches. -/
theorem tests_spans {top : Int} {σ : StackState} (held : σ.Held top) (none : Prop) [Decidable none]
    (tests : List (Nat × String)) :
    Spans top σ σ (tests.map fun test => (test.2,σ)) []
      (if none then [] else block (Code.testLines tests)) := by
  split
  · exact Spans.nil.weaken (List.forall_mem_nil _)
  · by_cases empty : Code.testLines tests = []
    · rw [empty]
      exact (Spans.blank held).weaken (List.forall_mem_nil _)
    · rw [block_eq empty]
      exact testLines_spans held tests

theorem callThrough_spans {top : Int} {σ : StackState} (held : σ.Held top)
    (staticClass : Option String) (offset n : Nat) :
    Spans top (σ.pushed n) σ [] [] (code (Code.callThrough staticClass offset n)) := by
  have lower := held.pushed n
  cases staticClass with
  | none =>
    have fetch := Spans.plain [.lw .t1 8 .a0,.lw .t1 offset .t1] lower (by simp [Instruction.plain])
    exact fetch.append (.call held .t1 n)
  | some c =>
    have fetch := Spans.plain [.la .t1 (c ++ "_dispTab"),.lw .t1 offset .t1] lower
      (by simp [Instruction.plain])
    exact fetch.append (.call held .t1 n)

-- Which instructions leave the stack alone, and where they lead.
attribute [local simp] Instruction.plain Instruction.target? Code.storeTo Code.callThrough
  Base.toRegister_ne_sp

theorem levelCode (classes : ClassTable) : LoweringInvariant classes LevelCode where
  literal _ _ _ _ held := .close (.plain _ held (by simp)) (by simp)
  void _ _ _ held := .close (.plain _ held (by simp)) (by simp)
  self _ _ _ held := .close (.plain _ held (by simp)) (by simp)
  var _ source _ _ held := .close (.plain _ held (by simp)) (by simp)
  store target barrier inner := inner.block.append fun _ _ held =>
    .close (.plain _ held (by cases barrier <;> simp)) (by cases barrier <;> simp)
  arithmetic _ first second top σ held :=
    .close (.append (.append (.append (.append (.append (first.block top σ held) (.push held .a0))
      (second.block top _ held.push)) (.plain _ held.push (by simp))) (.pop held))
      (.plain _ held (by simp))) (by simp)
  negate inner := inner.block.append fun _ _ held => .close (.plain _ held (by simp)) (by simp)
  compare op first second top σ held :=
    .close (.append (.append (.append (.append (.append (first.block top σ held) (.push held .a0))
      (second.block top _ held.push)) (.pop held)) (.plain _ held (by simp))) (.label held _))
      (by simp)
  equality first second top σ held :=
    .close (.append (.append (.append (.append (.append (first.block top σ held) (.push held .a0))
      (second.block top _ held.push)) (.pop held)) (.plain _ held (by simp))) (.label held _))
      (by simp)
  predicate kind inner top σ held := by
    cases kind <;> exact .close (.append (.append (inner.block top σ held)
      (.plain _ held (by simp))) (.label held _)) (by simp)
  cond first second third top σ held :=
    .close (.append (.append (.append (.append (.append (.append (first.block top σ held)
      (.plain _ held (by simp))) (second.block top σ held)) (.plain _ held (by simp)))
      (.label held _)) (third.block top σ held)) (.label held _)) (by simp)
  loop first second top σ held :=
    .close (.append (.append (.append (.append (.append (.append (.label held _)
      (first.block top σ held)) (.plain _ held (by simp))) (second.block top σ held))
      (.plain _ held (by simp))) (.label held _)) (.plain _ held (by simp))) (by simp)
  sequence inner := LevelCode.linesOf inner
  letIn first second := (LevelCode.linesOf first).block.append second.block
  newObject _ _ _ _ _ held := .close (.plain _ held (by simp)) (by simp)
  newSelf _ top σ held := by
    have whole : Spans top σ σ [] [] (code [.la .t1 "class_objTab",.lw .t2 0 .s0,.sll .t2 .t2 3,
        .compute "addu" .t1 .t1 .t2] ++ code [.sw .t1 0 .sp,.addiu .sp .sp (-4)] ++
        code [.lw .a0 0 .t1,.jal "Object.copy"] ++ code Code.pop ++ code [.lw .t1 4 .t1] ++
        code [.jalr .t1 0]) :=
      .close (.append (.append (.append (.append (.append (.plain _ held (by simp))
        (.push held .t1)) (.plain _ held.push (by simp))) (.pop held)) (.plain _ held (by simp)))
        (.call held .t1 0)) (by simp)
    exact whole
  dispatch offset source line first second drawn known top σ held :=
    .close (.append (.append (.append (LevelCode.pushLines first held)
      (second.block top _ (held.pushed _))) (checkVoid_level _ _ top _ (held.pushed _)))
      (callThrough_spans held _ _ _)) (by simp)
  caseOf source line first drawn second top σ held := by
    refine .close (.append (.append (.append (.append (.append (.append (first.block top σ held)
      (checkVoid_level _ _ top σ held)) (.plain _ held (by simp))) (tests_spans held _ _))
      (.plain _ held (by simp))) (LevelCode.branchLines second held _)) (.label held _)) ?_
    intro p member
    simp only [List.flatMap_cons,List.flatMap_nil,Instruction.target?,Option.map_none,
      Option.toList_none,List.append_nil,List.nil_append,List.mem_append,List.mem_map] at member
    rcases member with ⟨test,among,rfl⟩ | ⟨_,-,rfl⟩
    · obtain ⟨b,inside,same⟩ := second.tests_mem test among
      refine List.mem_append_left _ (List.mem_append_right _ (List.mem_map.mpr ⟨b,inside,?_⟩))
      rw [same]
    · exact List.mem_append_right _ List.mem_cons_self

/-- However control takes the branches of lowered code, its stack is as high at the end as at entry
and never higher in between, has one height at every label, and gives back only words that the code
itself pushed. -/
theorem stack_kept_on_every_path {e : Expr} {ctx : Context} {s t : Supply} {code : Code}
    (lowered : e.lower ctx s = .ok code t) :
    code.toValue.render Spim.group = .ok (joined code.lines) ∧ Disciplined code.lines := by
  have level := (levelCode ctx.classes).lowered e lowered rfl
  have fresh := (ownLabels ctx.classes).lowered e lowered rfl
  exact ⟨code.render_toValue,(level 0 .entry held_entry).disciplined fresh.nodup⟩

/-- A call with two arguments inside a loop, one of them a call in a sum:
`while a < 3 loop a <- 1 + f(a,f(new SELF_TYPE,2)) pool`. -/
def pushing : Expr :=
  let int (n : Int32) : Expr := .constant {} (.int n)
  let a : Expr := .ident {} "a" .attr
  let f (args : List Expr) : Expr := .dispatch {} .absent "" "f" args
  .loop {} (.binary {} (.compare .less) a (int 3))
    (.assign {} "a" .attr (.binary {} (.arith .add) (int 1)
      (f [a,f [.new {} selfType,int 2]])))

def pusher : ClassEntry where
  name := "Pusher"
  tag := 0
  parentName := ""
  attributes := [{ name := "a", type := "Int", init := .absent }]
  methods := ["f"]

theorem pushing_stack_kept : ∃ code supply,
    pushing.lower { classes := (.ofList [pusher]), current := pusher } {} = .ok code supply ∧
      supply.labels = 5 ∧ code.toValue.render Spim.group = .ok (joined code.lines) ∧
      Disciplined code.lines := by
  obtain ⟨code,supply,run⟩ := exists_of_succeeded (by decide +kernel : succeeded
    (pushing.lower { classes := (.ofList [pusher]), current := pusher } {}))
  have labels :
      (stateAfter (pushing.lower { classes := (.ofList [pusher]), current := pusher } {})).labels = 5 := by
    decide +kernel
  rw [run] at labels
  exact ⟨code,supply,run,labels,stack_kept_on_every_path run⟩

end CoolBackend
