import CoolBackend.Proofs.AlikeRuns
import CoolBackend.Proofs.Assembling

/-!
With the generational collector every store into the receiver's object is followed by a call that
reports it. Lowering twice, with and without reports, draws the same labels and constants and fails
with the same error. The lines with reports are the lines without them in which each such store is
replaced by the store and its report.
-/
namespace CoolBackend

namespace Assembly

def Line.storeOffset? : Line → Option Int
  | instruction (.sw .a0 offset .s0) => some offset
  | _ => none

def Line.reported (l : Line) : List Line :=
  match l.storeOffset? with
  | some offset => code (Code.storeTo .s0 offset true)
  | none => [l]

@[simp] def Line.Ordinary : Line → Prop
  | instruction (.addiu target source _) => ¬(target = .a1 ∧ source = .s0)
  | instruction (.jal routine) => routine ≠ "_GenGC_Assign"
  | instruction (.compute mnemonic _ _ _) | instruction (.branch mnemonic _ _ _) =>
    mnemonic ∉ ["sw","addiu","jal"]
  | directive name _ => name = ".text" ∨ name = ".globl"
  | _ => True

def Ordinary (lines : List Line) : Prop := ∀ l ∈ lines, l.Ordinary

section Ordinary

variable {lines rest : List Line}

@[simp] theorem ordinary_nil : Ordinary [] := List.forall_mem_nil _

@[simp] theorem ordinary_cons {l : Line} : Ordinary (l :: rest) ↔ l.Ordinary ∧ Ordinary rest :=
  List.forall_mem_cons

@[simp] theorem ordinary_append : Ordinary (lines ++ rest) ↔ Ordinary lines ∧ Ordinary rest :=
  List.forall_mem_append

@[simp] theorem ordinary_block : Ordinary (block lines) ↔ Ordinary lines := by
  by_cases empty : lines = []
  · subst empty
    simp [block]
  · rw [block_eq empty]

end Ordinary

def reportedLines (lines : List Line) : List Line := lines.flatMap Line.reported

section Reported

variable (lines rest : List Line)

@[simp] theorem reportedLines_nil : reportedLines [] = [] := rfl

@[simp] theorem reportedLines_cons (l : Line) :
    reportedLines (l :: rest) = l.reported ++ reportedLines rest := rfl

@[simp] theorem reportedLines_append :
    reportedLines (lines ++ rest) = reportedLines lines ++ reportedLines rest :=
  List.flatMap_append

theorem Line.reported_ne_nil (l : Line) : l.reported ≠ [] := by
  rw [reported]
  split
  next => exact List.cons_ne_nil _ _
  next => exact List.cons_ne_nil _ _

@[simp] theorem reportedLines_block :
    reportedLines (block lines) = block (reportedLines lines) := by
  cases lines with
  | nil => rfl
  | cons l rest =>
    have some : reportedLines (l :: rest) ≠ [] := by simp [l.reported_ne_nil]
    rw [block_eq (List.cons_ne_nil _ _),block_eq some]

end Reported

/-- Lines without stores into the receiver's object have no reports. -/
theorem reportedLines_eq {lines : List Line} (none : ∀ l ∈ lines, l.storeOffset? = none) :
    reportedLines lines = lines := by
  induction lines with
  | nil => rfl
  | cons l rest ih =>
    obtain ⟨here,later⟩ := List.forall_mem_cons.mp none
    rw [reportedLines_cons,Line.reported,here,ih later]
    rfl

/-- A listing with reports, and the same listing without them. -/
structure Reporting (lines plain : List Line) : Prop where
  eq : lines = reportedLines plain
  ordinary : Ordinary plain

namespace Reporting

variable {lines plain rest plainRest : List Line}

/-- Lines that neither store nor report. -/
theorem same (none : ∀ l ∈ lines, l.storeOffset? = none) (ordinary : Ordinary lines) :
    Reporting lines lines := ⟨(reportedLines_eq none).symm,ordinary⟩

theorem append (first : Reporting lines plain) (second : Reporting rest plainRest) :
    Reporting (lines ++ rest) (plain ++ plainRest) :=
  ⟨by simp [first.eq,second.eq],by simp [first.ordinary,second.ordinary]⟩

theorem block (inner : Reporting lines plain) : Reporting (block lines) (block plain) :=
  ⟨by simp [inner.eq],by simp [inner.ordinary]⟩

section Lists

variable {α : Type} {listing : α → List Line} {xs plains : List α}
  (each : List.Forall₂ (fun x plain => Reporting (listing x) (listing plain)) xs plains)

include each

theorem flatMap : Reporting (xs.flatMap listing) (plains.flatMap listing) := by
  induction each with
  | nil => exact ⟨rfl,ordinary_nil⟩
  | cons first _ ih => exact first.append ih

theorem spaced : Reporting (spaced (xs.map listing)) (spaced (plains.map listing)) := by
  induction each with
  | nil => exact ⟨rfl,ordinary_nil⟩
  | cons first others ih =>
    cases others with
    | nil => simpa using first
    | cons =>
      have apart (x y : α) (rest : List α) : Assembly.spaced ((x :: y :: rest).map listing) =
          listing x ++ .blank :: Assembly.spaced ((y :: rest).map listing) :=
        spaced_cons (List.cons_ne_nil _ _)
      rw [apart,apart]
      have blank : Reporting [.blank] [.blank] := ⟨rfl,by simp⟩
      exact first.append (blank.append ih)

end Lists

end Reporting

end Assembly

open Assembly

/-- No initializer is called like the routine that takes the reports. -/
theorem init_ne_assign (className : String) : className ++ "_init" ≠ "_GenGC_Assign" := by
  intro same
  have last := congrArg (·.toList.getLast?) same
  simp at last

/-- Code with reports, and the same code without them. -/
def Code.Reports (c plain : Code) : Prop := Reporting c.lines plain.lines

namespace Code.Reports

attribute [local simp] Code.lines Line.reported Line.storeOffset? Code.push Code.pop Code.checkVoid

variable {c plain left left' right right' : Code} {codes plains : List Code}

theorem literal (label : String) : Reports (.loadLiteral label) (.loadLiteral label) :=
  ⟨by simp,by simp⟩

theorem var (source : Location) : Reports (.loadVar source) (.loadVar source) := ⟨by simp,by simp⟩

theorem void : Reports .loadVoid .loadVoid := ⟨by simp,by simp⟩

theorem self : Reports .loadSelf .loadSelf := ⟨by simp,by simp⟩

/-- A store is reported if it goes into an object. -/
theorem store (target : Location) (inner : Reports c plain) :
    Reports (.storeVar c target (target.base = .receiver)) (.storeVar plain target false) := by
  obtain ⟨base,offset⟩ := target
  cases base with
  | receiver => exact ⟨by simp [inner.eq,Base.toRegister,Code.storeTo],
      by simp [inner.ordinary,Base.toRegister,Code.storeTo]⟩
  | frame => exact ⟨by simp [inner.eq,Base.toRegister,Code.storeTo],
      by simp [inner.ordinary,Base.toRegister,Code.storeTo]⟩

theorem arithmetic {op : ArithOp} {mnemonic : String} (known : op.mnemonic = .ok mnemonic)
    (first : Reports left left') (second : Reports right right') :
    Reports (.arithmetic mnemonic left right) (.arithmetic mnemonic left' right') := by
  have other : mnemonic ∉ ["sw","addiu","jal"] := by
    cases op with
    | other => cases known
    | _ =>
      cases known
      decide
  exact ⟨by simp [first.eq,second.eq],
    by simpa [first.ordinary,second.ordinary] using other⟩

theorem negate (inner : Reports c plain) : Reports (.negate c) (.negate plain) :=
  ⟨by simp [inner.eq],by simp [inner.ordinary]⟩

theorem compare (op : RelOp) (label : String) (first : Reports left left')
    (second : Reports right right') :
    Reports (.compare op.mnemonic left right label) (.compare op.mnemonic left' right' label) := by
  have other : op.mnemonic ∉ ["sw","addiu","jal"] := by
    cases op with
    | lessEq => decide
    | less | other => exact (by decide : "blt" ∉ ["sw","addiu","jal"])
  exact ⟨by simp [first.eq,second.eq],
    by simpa [first.ordinary,second.ordinary] using other⟩

theorem equality (label : String) (first : Reports left left') (second : Reports right right') :
    Reports (.equality left right label) (.equality left' right' label) :=
  ⟨by simp [first.eq,second.eq],by simp [first.ordinary,second.ordinary]⟩

theorem predicate (kind : Test) (label : String) (inner : Reports c plain) :
    Reports (.predicate kind c label) (.predicate kind plain label) := by
  cases kind with
  | not => exact ⟨by simp [inner.eq],by simp [inner.ordinary]⟩
  | isVoid => exact ⟨by simp [inner.eq],by simp [inner.ordinary]⟩

theorem cond {test test' : Code} (elseLabel endLabel : String) (first : Reports test test')
    (second : Reports left left') (third : Reports right right') :
    Reports (.cond test left right elseLabel endLabel)
      (.cond test' left' right' elseLabel endLabel) :=
  ⟨by simp [first.eq,second.eq,third.eq],
    by simp [first.ordinary,second.ordinary,third.ordinary]⟩

theorem loop (loopLabel endLabel : String) (first : Reports left left')
    (second : Reports right right') :
    Reports (.loop left right loopLabel endLabel) (.loop left' right' loopLabel endLabel) :=
  ⟨by simp [first.eq,second.eq],by simp [first.ordinary,second.ordinary]⟩

theorem linesOf (each : List.Forall₂ Reports codes plains) :
    Reporting (Code.linesOf codes) (Code.linesOf plains) := by
  induction each with
  | nil => exact ⟨rfl,ordinary_nil⟩
  | cons here _ ih =>
    rw [Code.linesOf,Code.linesOf]
    exact Reporting.append here ih

theorem pushLines (each : List.Forall₂ Reports codes plains) :
    Reporting (Code.pushLines codes) (Code.pushLines plains) := by
  induction each with
  | nil => exact ⟨rfl,ordinary_nil⟩
  | cons here _ ih =>
    exact ⟨by simp [Code.pushLines,here.eq,ih.eq],
      by simp [Code.pushLines,here.ordinary,ih.ordinary]⟩

theorem sequence (each : List.Forall₂ Reports codes plains) :
    Reports (.sequence codes) (.sequence plains) := linesOf each

theorem letIn (stores : List.Forall₂ Reports codes plains) (inner : Reports c plain) :
    Reports (.letIn codes c) (.letIn plains plain) :=
  (linesOf stores).block.append inner.block

theorem newObject (className : String) : Reports (.newObject className) (.newObject className) :=
  ⟨by simp,by simp [init_ne_assign]⟩

theorem newSelf : Reports .newSelf .newSelf := ⟨by simp,by simp⟩

theorem dispatch (staticClass : Option String) (offset : Nat) (site : Site)
    (args : List.Forall₂ Reports codes plains) (receiver : Reports c plain) :
    Reports (.dispatch codes c staticClass offset site)
      (.dispatch plains plain staticClass offset site) := by
  have count := args.length_eq
  cases staticClass with
  | none => exact ⟨by simp [(pushLines args).eq,receiver.eq,callThrough,count],
      by simp [(pushLines args).ordinary,receiver.ordinary,callThrough]⟩
  | some name => exact ⟨by simp [(pushLines args).eq,receiver.eq,callThrough,count],
      by simp [(pushLines args).ordinary,receiver.ordinary,callThrough]⟩

/-- Branches of a `case` with and without reports. -/
def Branches (branch plain : BranchHead × Code) : Prop :=
  branch.1 = plain.1 ∧ Reports branch.2 plain.2

theorem branchLines (endLabel : String) {branches plains : List (BranchHead × Code)}
    (each : List.Forall₂ Branches branches plains) :
    Reporting (Code.branchLines endLabel branches) (Code.branchLines endLabel plains) := by
  induction each with
  | nil => exact ⟨rfl,ordinary_nil⟩
  | cons here _ ih =>
    obtain ⟨head,body⟩ := here
    exact ⟨by simp [Code.branchLines,head,body.eq,ih.eq],
      by simp [Code.branchLines,body.ordinary,ih.ordinary]⟩

theorem caseOf (site : Site) (tests : List (Nat × String)) (endLabel : String)
    {branches plains : List (BranchHead × Code)} (scrutinee : Reports c plain)
    (each : List.Forall₂ Branches branches plains) :
    Reports (.caseOf c site tests branches endLabel)
      (.caseOf plain site tests plains endLabel) := by
  have tested : Reporting (testLines tests) (testLines tests) := by
    apply Reporting.same
    · exact List.forall_mem_map.mpr (List.forall_mem_map.mpr fun _ _ => rfl)
    · exact List.forall_mem_map.mpr (List.forall_mem_map.mpr fun _ _ => trivial)
  have bodies := branchLines endLabel each
  cases each with
  | nil => exact ⟨by simp [scrutinee.eq,Code.branchLines],
      by simp [scrutinee.ordinary,Code.branchLines]⟩
  | cons => exact ⟨by simp [scrutinee.eq,← tested.eq,bodies.eq],
      by simp [scrutinee.ordinary,tested.ordinary,bodies.ordinary]⟩

end Code.Reports

def Context.withBarrier (ctx : Context) (barrier : Bool) : Context := { ctx with barrier }

@[simp] theorem Context.resolve_withBarrier (ctx : Context) (barrier : Bool) (name : String)
    (scope : Scope) : (ctx.withBarrier barrier).resolve name scope = ctx.resolve name scope := by
  cases scope <;> rfl

def LowersReported (e : Expr) : Prop :=
  ∀ ctx : Context, Tracks Eq Code.Reports (e.lower (ctx.withBarrier true))
    (e.lower (ctx.withBarrier false))

theorem lowerAll_reported {exprs : List Expr} (each : ∀ e ∈ exprs, LowersReported e)
    (k : Nat) (ctx : Context) : Tracks Eq (List.Forall₂ Code.Reports)
      (lowerAll exprs k (ctx.withBarrier true)) (lowerAll exprs k (ctx.withBarrier false)) := by
  induction exprs generalizing k with
  | nil => exact .pure .nil
  | cons e rest ih =>
    obtain ⟨here,later⟩ := List.forall_mem_cons.mp each
    rw [lowerAll,lowerAll]
    refine (here (ctx.part k)).bind fun _ _ first => ?_
    exact (ih later (k + 1)).bind fun _ _ others => .pure (.cons first others)

theorem lowerArgs_reported {args : List Expr} (each : ∀ e ∈ args, LowersReported e)
    (k : Nat) (ctx : Context) : Tracks Eq (List.Forall₂ Code.Reports)
      (lowerArgs args k (ctx.withBarrier true)) (lowerArgs args k (ctx.withBarrier false)) := by
  induction args generalizing k with
  | nil => exact .pure .nil
  | cons e rest ih =>
    obtain ⟨here,later⟩ := List.forall_mem_cons.mp each
    rw [lowerArgs,lowerArgs]
    refine (ih later (k + 1)).bind fun _ _ others => ?_
    refine (here (ctx.part k)).bind fun _ _ first => ?_
    exact .pure (List.rel_append others (.cons first .nil))

def ReportedBindings (made plain : List Code × Context) : Prop :=
  List.Forall₂ Code.Reports made.1 plain.1 ∧
    ∃ inner : Context, made.2 = inner.withBarrier true ∧ plain.2 = inner.withBarrier false

theorem defaultValue_reported (type : String) :
    Tracks Eq Code.Reports (defaultValue type) (defaultValue type) := by
  rw [defaultValue]
  split
  next => exact (Tracks.refl _).andThen fun label => .pure (.literal label)
  next =>
    split
    next => exact .pure (.literal _)
    next =>
      split
      next => exact (Tracks.refl _).andThen fun label => .pure (.literal label)
      next => exact .pure .void

theorem Context.store_reported (ctx : Context) {c plain : Code} (reports : c.Reports plain)
    (target : Location) :
    ((ctx.withBarrier true).store c target).Reports
      ((ctx.withBarrier false).store plain target) := by
  simpa [store,withBarrier] using Code.Reports.store target reports

theorem lowerBindings_reported {bindings : List (Binder × Expr)}
    (each : ∀ b ∈ bindings, LowersReported b.2) (i : Nat) (ctx : Context) :
    Tracks Eq ReportedBindings (lowerBindings bindings i (ctx.withBarrier true))
      (lowerBindings bindings i (ctx.withBarrier false)) := by
  induction bindings generalizing i ctx with
  | nil => exact .pure ⟨.nil,ctx,rfl,rfl⟩
  | cons b rest ih =>
    obtain ⟨here,later⟩ := List.forall_mem_cons.mp each
    have value : Tracks Eq Code.Reports
        (if b.2.isAbsent then defaultValue b.1.type
          else b.2.lower ((ctx.withBarrier true).part i))
        (if b.2.isAbsent then defaultValue b.1.type
          else b.2.lower ((ctx.withBarrier false).part i)) := by
      split
      next => exact defaultValue_reported b.1.type
      next => exact here (ctx.part i)
    rw [lowerBindings,lowerBindings]
    refine value.bind fun c plain reports => (Tracks.refl _).andThen fun depth => ?_
    refine (ih later (i + 1) (ctx.bind b.1.name depth)).bind ?_
    rintro ⟨stores,_⟩ ⟨plains,_⟩ ⟨others,inner,rfl,rfl⟩
    exact .pure ⟨.cons (ctx.store_reported reports _) others,inner,rfl,rfl⟩

def ReportedBranches (made plain : List (Nat × String) × List (BranchHead × Code)) : Prop :=
  made.1 = plain.1 ∧ List.Forall₂ Code.Reports.Branches made.2 plain.2

theorem lowerBranches_reported {branches : List (Binder × Expr)}
    (each : ∀ b ∈ branches, LowersReported b.2) (i : Nat) (ctx : Context) :
    Tracks Eq ReportedBranches (lowerBranches branches i (ctx.withBarrier true))
      (lowerBranches branches i (ctx.withBarrier false)) := by
  induction branches generalizing i with
  | nil => exact .pure ⟨rfl,.nil⟩
  | cons b rest ih =>
    obtain ⟨here,later⟩ := List.forall_mem_cons.mp each
    rw [lowerBranches,lowerBranches]
    refine (Tracks.refl _).andThen fun label => (Tracks.refl _).andThen fun c => ?_
    refine (Tracks.refl _).andThen fun depth => ?_
    refine (here ((ctx.bind b.1.name depth).part (i + 1))).bind fun _ _ body => ?_
    refine (ih later (i + 1)).bind ?_
    rintro ⟨tests,bodies⟩ ⟨_,plains⟩ ⟨rfl,others⟩
    exact .pure ⟨rfl,.cons ⟨rfl,body⟩ others⟩

/-- Every expression is lowered with reports as it is without them. -/
theorem lowersReported (e : Expr) : LowersReported e := by
  induction e using Expr.induct with
  | absent => exact fun _ => .throw rfl
  | constant info value =>
    intro ctx
    rw [Expr.lower,Expr.lower]
    exact (Tracks.refl _).andThen fun label => .pure (.literal label)
  | ident info name scope =>
    intro ctx
    rw [Expr.lower,Expr.lower,Context.resolve_withBarrier,Context.resolve_withBarrier]
    split
    next => exact .pure .self
    next => exact (Tracks.refl _).andThen fun source => .pure (.var source)
  | assign info name scope value ih =>
    intro ctx
    rw [Expr.lower,Expr.lower,Context.resolve_withBarrier,Context.resolve_withBarrier]
    refine (ih (ctx.part 0)).bind fun _ _ reports => ?_
    exact (Tracks.refl _).andThen fun target => .pure (ctx.store_reported reports target)
  | unary info op operand ih =>
    intro ctx
    cases op with
    | negate =>
      rw [Expr.lower,Expr.lower]
      exact (ih (ctx.part 0)).bind fun _ _ reports => .pure reports.negate
    | not =>
      rw [Expr.lower,Expr.lower]
      refine (ih (ctx.part 0)).bind fun _ _ reports => ?_
      exact (Tracks.refl _).andThen fun label => .pure (reports.predicate .not label)
    | isVoid =>
      rw [Expr.lower,Expr.lower]
      refine (ih (ctx.part 0)).bind fun _ _ reports => ?_
      exact (Tracks.refl _).andThen fun label => .pure (reports.predicate .isVoid label)
  | binary info op left right ihLeft ihRight =>
    intro ctx
    cases op with
    | arith op =>
      rw [Expr.lower,Expr.lower]
      refine (Tracks.except op.mnemonic fun _ _ => rfl).bind ?_
      rintro mnemonic _ ⟨known,rfl⟩
      refine (ihLeft (ctx.part 0)).bind fun _ _ first => ?_
      refine (ihRight (ctx.part 1)).bind fun _ _ second => ?_
      exact .pure (.arithmetic known first second)
    | compare op =>
      rw [Expr.lower,Expr.lower]
      refine (ihLeft (ctx.part 0)).bind fun _ _ first => ?_
      refine (ihRight (ctx.part 1)).bind fun _ _ second => ?_
      exact (Tracks.refl _).andThen fun label => .pure (first.compare op label second)
    | equal =>
      rw [Expr.lower,Expr.lower]
      refine (ihLeft (ctx.part 0)).bind fun _ _ first => ?_
      refine (ihRight (ctx.part 1)).bind fun _ _ second => ?_
      exact (Tracks.refl _).andThen fun label => .pure (first.equality label second)
  | cond info test yes no ihTest ihYes ihNo =>
    intro ctx
    rw [Expr.lower,Expr.lower]
    refine (ihTest (ctx.part 0)).bind fun _ _ first => ?_
    refine (ihYes (ctx.part 1)).bind fun _ _ second => ?_
    refine (ihNo (ctx.part 2)).bind fun _ _ third => (Tracks.refl _).andThen fun elseLabel => ?_
    exact (Tracks.refl _).andThen fun endLabel => .pure (first.cond elseLabel endLabel second third)
  | loop info test body ihTest ihBody =>
    intro ctx
    rw [Expr.lower,Expr.lower]
    refine (ihTest (ctx.part 0)).bind fun _ _ first => ?_
    refine (ihBody (ctx.part 1)).bind fun _ _ second => ?_
    refine (Tracks.refl _).andThen fun loopLabel => (Tracks.refl _).andThen fun endLabel => ?_
    exact .pure (first.loop loopLabel endLabel second)
  | block info exprs ih =>
    intro ctx
    rw [Expr.lower,Expr.lower]
    exact (lowerAll_reported ih 0 ctx).bind fun _ _ steps => .pure (.sequence steps)
  | letIn info bindings body ihBindings ihBody =>
    intro ctx
    rw [Expr.lower,Expr.lower]
    refine (lowerBindings_reported ihBindings 0 ctx).bind ?_
    rintro ⟨stores,_⟩ ⟨plains,_⟩ ⟨steps,inner,rfl,rfl⟩
    exact (ihBody (inner.part bindings.length)).bind fun _ _ reports => .pure (.letIn steps reports)
  | caseOf info scrutinee branches ihScrutinee ihBranches =>
    intro ctx
    rw [Expr.lower,Expr.lower]
    refine (ihScrutinee (ctx.part 0)).bind fun _ _ reports => (Tracks.refl _).andThen fun site => ?_
    refine (Tracks.refl _).andThen fun endLabel => ?_
    refine (lowerBranches_reported ihBranches 0 ctx).bind ?_
    rintro ⟨tests,bodies⟩ ⟨_,plains⟩ ⟨rfl,each⟩
    exact .pure (reports.caseOf site tests endLabel each)
  | new info className =>
    intro ctx
    rw [Expr.lower,Expr.lower]
    split
    next => exact .pure .newSelf
    next => exact (Tracks.refl _).andThen fun c => .pure (.newObject c.name)
  | dispatch info receiver staticClass method args ihReceiver ihArgs =>
    intro ctx
    have called : Tracks Eq Code.Reports
        (if receiver.isAbsent then pure .loadSelf
          else receiver.lower ((ctx.withBarrier true).part 0))
        (if receiver.isAbsent then pure .loadSelf
          else receiver.lower ((ctx.withBarrier false).part 0)) := by
      split
      next => exact .pure .self
      next => exact ihReceiver (ctx.part 0)
    rw [Expr.lower,Expr.lower]
    refine (lowerArgs_reported ihArgs 1 ctx).bind fun _ _ pushed => ?_
    refine called.bind fun _ _ reports => ?_
    refine (Tracks.refl _).andThen fun target => (Tracks.refl _).andThen fun slot => ?_
    refine (Tracks.refl _).andThen fun site => .pure ?_
    exact .dispatch _ _ site pushed reports

section Assembling

variable (gcTest : Bool) (classes : ClassTable)

theorem attributeStore_reported (ctx : Context) (a : AttributeDecl) :
    Tracks Eq (fun store plain => Reporting store.lines plain.lines)
      (attributeStore (ctx.withBarrier true) a) (attributeStore (ctx.withBarrier false) a) := by
  rw [attributeStore,attributeStore]
  refine (Tracks.refl _).andThen fun target => ?_
  refine (lowersReported a.init ctx).bind fun c plain made => ?_
  have store : Reporting (code (Code.storeTo .s0 target.offset true))
      (code (Code.storeTo .s0 target.offset false)) :=
    ⟨by simp [Code.storeTo,Line.reported,Line.storeOffset?],by simp [Code.storeTo]⟩
  exact .pure (made.block.append store)

theorem reporting_label (name : String) : Reporting [.label name] [.label name] := ⟨rfl,by simp⟩

theorem reporting_prologue (frameWords : Nat) :
    Reporting (code (prologueCode frameWords)) (code (prologueCode frameWords)) := by
  unfold prologueCode
  split
  next => exact .same (by simp [Line.storeOffset?]) (by simp)
  next => exact .same (by simp [Line.storeOffset?]) (by simp)

theorem reporting_epilogue (frameWords formals : Nat) :
    Reporting (code (epilogueCode frameWords formals))
      (code (epilogueCode frameWords formals)) := by
  unfold epilogueCode
  split
  next => exact .same (by simp [Line.storeOffset?]) (by simp)
  next => exact .same (by simp [Line.storeOffset?]) (by simp)

theorem initRoutine_reported (c : ClassEntry) :
    Tracks Eq (fun routine plain => Reporting routine.lines plain.lines)
      (initRoutine { gc := .generational, gcTest } classes c)
      (initRoutine { gc := .off, gcTest } classes c) := by
  let ctx := initContext id { gc := .off, gcTest } classes c
  rw [initRoutine,initRoutine,initRoutineIn,initRoutineIn]
  refine (Tracks.mapM fun x _ => attributeStore_reported (ctx.part x.2) x.1).bind ?_
  intro stores plains each
  refine .pure ?_
  have parent : Reporting
      (code ((classes.parentNameOf? c).map fun parent => .jal (parent ++ "_init")).toList)
      (code ((classes.parentNameOf? c).map fun parent => .jal (parent ++ "_init")).toList) := by
    cases classes.parentNameOf? c with
    | none => exact ⟨rfl,ordinary_nil⟩
    | some name => exact ⟨rfl,by simp [init_ne_assign]⟩
  have result : Reporting (code [.move .a0 .s0]) (code [.move .a0 .s0]) := ⟨rfl,by simp⟩
  have entry := (reporting_label (c.name ++ "_init")).append
    (reporting_prologue (initPlan c).words)
  exact (((entry.append parent).append (.flatMap each)).append result).append
    (reporting_epilogue _ 0)

theorem methodRoutine_reported (c : ClassEntry) (m : MethodDecl) :
    Tracks Eq (fun routine plain => Reporting routine.lines plain.lines)
      (methodRoutine { gc := .generational, gcTest } classes c m)
      (methodRoutine { gc := .off, gcTest } classes c m) := by
  let ctx := methodContext id { gc := .off, gcTest } classes c m
  rw [methodRoutine,methodRoutine,methodRoutineIn,methodRoutineIn]
  refine (lowersReported m.body ctx).bind fun _ _ body => ?_
  have entry := (reporting_label (c.name ++ "." ++ m.name)).append
    (reporting_prologue (methodPlan m).words)
  exact .pure ((entry.append body.block).append (reporting_epilogue _ _))

/-- The image of a program with reports of its stores, and the image without them. -/
structure Image.Reports (image plain : Image) : Prop where
  options : image.options = { gc := .generational, gcTest }
  plainOptions : plain.options = { gc := .off, gcTest }
  data : image.dataLines = plain.dataLines
  routines : Reporting image.textSection plain.textSection

/-- A table is assembled with reports as it is without them. -/
theorem assemble_reported : Tracks Eq (Image.Reports gcTest)
    (assemble { gc := .generational, gcTest } classes)
    (assemble { gc := .off, gcTest } classes) := by
  rw [assemble_eq,assemble_eq]
  refine (Tracks.refl _).andThen fun tables => ?_
  refine (Tracks.mapM fun c _ => initRoutine_reported gcTest classes c).bind ?_
  intro inits plainInits initialized
  refine (Tracks.mapM fun m _ => methodRoutine_reported gcTest classes m.1 m.2).bind ?_
  intro methods plainMethods implemented
  refine (Tracks.refl _).andThen fun supply => .pure ⟨rfl,rfl,rfl,?_⟩
  have start (names : List String) :
      Reporting (.directive ".text" [] :: Image.globals names)
        (.directive ".text" [] :: Image.globals names) := by
    apply Reporting.same
    · exact List.forall_mem_cons.mpr ⟨rfl,List.forall_mem_map.mpr fun _ _ => rfl⟩
    · exact List.forall_mem_cons.mpr ⟨.inl rfl,List.forall_mem_map.mpr fun _ _ => .inr rfl⟩
  have last : Reporting [.blank] [.blank] := ⟨rfl,by simp⟩
  exact (((start _).append (Reporting.spaced initialized).block).append
    (Reporting.spaced implemented).block).append last

end Assembling

end CoolBackend
