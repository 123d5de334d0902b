import CoolBackend.Proofs.Assembling
import CoolBackend.Proofs.LoweredParts

/-!
Lowered code addresses the frame only at the locations of formals and at the words that the frame
plan gives its variables. The routines of methods and initializers take as many words as their plan
has, so whatever they address below the frame pointer lies in these words.
-/
namespace CoolBackend

namespace Assembly

@[simp] def Instruction.frameOffset? : Instruction → Option Int
  | lw _ offset base | sw _ offset base | addiu _ base offset =>
    if base = .fp then some offset else none
  | _ => none

/-- An offset is not below the frame pointer, or is that of one of the frame's words. -/
def OnFrame (words : Nat) (offset : Int) : Prop :=
  offset < 0 → ∃ d : Nat, d < words ∧ offset = -4 * (d + 1)

@[simp] def Line.KeepsTo (words : Nat) : Line → Prop
  | instruction i => ∀ offset, i.frameOffset? = some offset → OnFrame words offset
  | _ => True

/-- Lines that address no other word below the frame pointer than those of the frame. -/
def KeepingTo (words : Nat) (lines : List Line) : Prop := ∀ l ∈ lines, l.KeepsTo words

section Lines

variable {words : Nat} {lines rest : List Line}

@[simp] theorem keepingTo_nil : KeepingTo words [] := List.forall_mem_nil _

@[simp] theorem keepingTo_append :
    KeepingTo words (lines ++ rest) ↔ KeepingTo words lines ∧ KeepingTo words rest :=
  List.forall_mem_append

@[simp] theorem keepingTo_cons {l : Line} :
    KeepingTo words (l :: rest) ↔ l.KeepsTo words ∧ KeepingTo words rest := List.forall_mem_cons

@[simp] theorem keepingTo_block : KeepingTo words (block lines) ↔ KeepingTo words lines :=
  forall_mem_block trivial

end Lines

end Assembly

open Assembly

def Location.OnFrame (words : Nat) (location : Location) : Prop :=
  location.base = .frame → Assembly.OnFrame words location.offset

theorem Location.onFrame_ofDepth {words depth : Nat} (inside : depth < words) :
    (Location.ofDepth depth).OnFrame words := by
  intro _ _
  refine ⟨depth,inside,?_⟩
  simp only [Location.ofDepth,wordSize]
  omega

def Context.Within (ctx : Context) (words : Nat) : Prop := ∀ word ∈ ctx.locals, word.2 < words

namespace Context.Within

variable {ctx : Context} {words : Nat}

theorem bind (within : ctx.Within words) (name : String) {depth : Nat} (inside : depth < words) :
    (ctx.bind name depth).Within words :=
  List.forall_mem_cons.mpr ⟨inside,within⟩

/-- The parts of an expression see the variables that it sees. -/
theorem part (within : ctx.Within words) (k : Nat) : (ctx.part k).Within words := within

theorem resolve (within : ctx.Within words) {name : String} {scope : Scope} {location : Location}
    (resolved : ctx.resolve name scope = .ok location) : location.OnFrame words := by
  cases scope with
  | attr =>
    simp only [Context.resolve,Location.ofAttribute] at resolved
    split at resolved
    · cases resolved
      exact nofun
    · cases resolved
  | formal =>
    simp only [Context.resolve,Location.ofFormal] at resolved
    split at resolved
    · cases resolved
      intro _ negative
      simp only [formalBase,wordSize] at negative
      omega
    · cases resolved
  | localVar =>
    simp only [Context.resolve] at resolved
    split at resolved
    next depth found =>
      cases resolved
      obtain ⟨before,behind,same,-⟩ := List.lookup_eq_some_iff.mp found
      exact Location.onFrame_ofDepth (within (name,depth) (by simp [same]))
    next => cases resolved
  | unknown | other => cases resolved

end Context.Within

section Keeping

variable {words : Nat} {codes : List Code}

theorem keepingTo_load {source : Location} (onFrame : source.OnFrame words) :
    KeepingTo words (Code.loadVar source).lines := by
  obtain ⟨base,offset⟩ := source
  cases base with
  | receiver => simp [Code.lines,code,Base.toRegister]
  | frame => simpa [Code.lines,code,Base.toRegister] using onFrame rfl

theorem keepingTo_store {ctx : Context} {value : Code} {target : Location}
    (inner : KeepingTo words value.lines) (onFrame : target.OnFrame words) :
    KeepingTo words (ctx.store value target).lines := by
  obtain ⟨base,offset⟩ := target
  cases base with
  | receiver =>
    cases reported : ctx.barrier <;>
      simp [Context.store,Code.lines,Code.storeTo,code,Base.toRegister,inner,reported]
  | frame =>
    simpa [Context.store,Code.lines,Code.storeTo,code,Base.toRegister,inner] using onFrame rfl

theorem keepingTo_pushLines (each : ∀ c ∈ codes, KeepingTo words c.lines) :
    KeepingTo words (Code.pushLines codes) := by
  have pushed : KeepingTo words (code Code.push) := by simp [Code.push]
  exact Code.forall_mem_pushLines trivial pushed each

theorem keepingTo_tests (none : Prop) [Decidable none] (tests : List (Nat × String)) :
    KeepingTo words (if none then [] else block (Code.testLines tests)) := by
  split
  · exact keepingTo_nil
  · have each (tag : Nat) (target : String) :
        (Line.instruction (.beqTag .t2 tag target)).KeepsTo words := by simp
    exact keepingTo_block.mpr (Code.forall_mem_testLines each tests)

theorem keepingTo_callThrough (staticClass : Option String) (offset arguments : Nat) :
    KeepingTo words ((Code.callThrough staticClass offset arguments).map .instruction) := by
  cases staticClass <;> simp [Code.callThrough]

theorem keepingTo_defaultValue {type : String} {s t : Supply} {code : Code}
    (run : defaultValue type s = .ok code t) : KeepingTo words code.lines := by
  have literal (label : String) : KeepingTo words (Code.loadLiteral label).lines := by
    simp [Code.lines,Assembly.code]
  unfold defaultValue at run
  split at run
  · obtain ⟨label,_,_,final⟩ := bind_eq_ok.mp run
    cases final
    exact literal label
  · split at run
    · cases run
      exact literal _
    · split at run
      · obtain ⟨label,_,_,final⟩ := bind_eq_ok.mp run
        cases final
        exact literal label
      · cases run
        simp [Code.lines,Assembly.code]

end Keeping

/-- What lowering an expression makes keeps to a frame that has room for it. -/
def Expr.KeepsTo (words : Nat) (e : Expr) : Prop :=
  ∀ {ctx : Context} {s t : Supply} {code : Code}, ctx.Within words → ctx.Sees e.plan →
    e.words ≤ words → e.lower ctx s = .ok code t → KeepingTo words code.lines

section Lowered

variable {words : Nat} {ctx : Context} {s t : Supply} {codes : List Code}

theorem keepingTo_lowerAll {exprs : List Expr} {k : Nat} (each : ∀ e ∈ exprs, e.KeepsTo words)
    (within : ctx.Within words) (seen : ctx.Sees (planAll k exprs)) (room : listWords exprs ≤ words)
    (run : lowerAll exprs k ctx s = .ok codes t) : ∀ c ∈ codes, KeepingTo words c.lines := by
  induction exprs generalizing k s codes with
  | nil =>
    rw [lowerAll] at run
    cases run
    exact List.forall_mem_nil _
  | cons e rest ih =>
    obtain ⟨here,each⟩ := List.forall_mem_cons.mp each
    obtain ⟨first,others,u,lowered,loweredRest,rfl⟩ := lowerAll_cons run
    obtain ⟨first,seen⟩ := Context.sees_all.mp seen
    rw [listWords] at room
    exact List.forall_mem_cons.mpr
      ⟨here (within.part k) first (by omega) lowered,ih each seen (by omega) loweredRest⟩

theorem keepingTo_lowerArgs {args : List Expr} {k : Nat} (each : ∀ e ∈ args, e.KeepsTo words)
    (within : ctx.Within words) (seen : ctx.Sees (planAll k args)) (room : listWords args ≤ words)
    (run : lowerArgs args k ctx s = .ok codes t) : ∀ c ∈ codes, KeepingTo words c.lines := by
  induction args generalizing k t codes with
  | nil =>
    rw [lowerArgs] at run
    cases run
    exact List.forall_mem_nil _
  | cons e rest ih =>
    obtain ⟨here,each⟩ := List.forall_mem_cons.mp each
    obtain ⟨pushed,last,u,loweredRest,lowered,rfl⟩ := lowerArgs_cons run
    obtain ⟨first,seen⟩ := Context.sees_all.mp seen
    rw [listWords] at room
    exact List.forall_mem_append.mpr
      ⟨ih each seen (by omega) loweredRest,
        List.forall_mem_singleton.mpr (here (within.part k) first (by omega) lowered)⟩

theorem keepingTo_lowerBindings {bindings : List (Binder × Expr)} {i : Nat} {inner : FramePlan}
    {ctx' : Context} (each : ∀ b ∈ bindings, b.2.KeepsTo words) (within : ctx.Within words)
    (seen : ctx.Sees (planBindings i bindings inner))
    (room : scopeWords bindings inner.words ≤ words)
    (run : lowerBindings bindings i ctx s = .ok (codes,ctx') t) :
    (∀ c ∈ codes, KeepingTo words c.lines) ∧ ctx'.Within words ∧ ctx'.Sees inner := by
  induction bindings generalizing i ctx s codes with
  | nil =>
    rw [lowerBindings] at run
    cases run
    exact ⟨List.forall_mem_nil _,within,seen⟩
  | cons b rest ih =>
    obtain ⟨b,init⟩ := b
    obtain ⟨here,each⟩ := List.forall_mem_cons.mp each
    obtain ⟨value,depth,others,u,initial,planned,bound,rfl⟩ := lowerBindings_cons run
    obtain ⟨own,first,seen⟩ := Context.sees_binding.mp seen
    cases own.symm.trans planned
    rw [scopeWords] at room
    have inside : scopeWords rest inner.words < words := by omega
    obtain ⟨stores,deeper⟩ := ih each (within.bind b.name inside) seen (by omega) bound
    refine ⟨List.forall_mem_cons.mpr ⟨keepingTo_store ?_ ?_,stores⟩,deeper⟩
    · split at initial
      next => exact keepingTo_defaultValue initial
      next => exact here (within.part i) first (show init.words ≤ words by omega) initial
    · exact Location.onFrame_ofDepth inside

theorem keepingTo_lowerBranches {branches : List (Binder × Expr)} {i : Nat}
    {tests : List (Nat × String)} {heads : List (BranchHead × Code)}
    (each : ∀ b ∈ branches, b.2.KeepsTo words) (within : ctx.Within words)
    (seen : ctx.Sees (planBranches i branches)) (room : branchWords branches ≤ words)
    (run : lowerBranches branches i ctx s = .ok (tests,heads) t) (endLabel : String) :
    KeepingTo words (Code.branchLines endLabel heads) := by
  induction branches generalizing i s tests heads with
  | nil =>
    rw [lowerBranches] at run
    cases run
    exact keepingTo_nil
  | cons b rest ih =>
    obtain ⟨b,body⟩ := b
    obtain ⟨here,each⟩ := List.forall_mem_cons.mp each
    obtain ⟨_,depth,bodyCode,_,others,u,_,planned,lowered,loweredRest,-,rfl⟩ :=
      lowerBranches_cons run
    obtain ⟨own,first,seen⟩ := Context.sees_branch.mp seen
    cases own.symm.trans planned
    rw [branchWords] at room
    have inside : body.words < words := by omega
    have slot := Location.onFrame_ofDepth inside rfl
    have inner :=
      here ((within.bind b.name inside).part (i + 1)) first (Nat.le_of_lt inside) lowered
    have others := ih each seen (by omega) loweredRest
    simpa [Code.branchLines,code,inner,others] using slot

theorem Expr.keepsTo (words : Nat) (e : Expr) : e.KeepsTo words := by
  induction e using Expr.induct with
  | absent => exact fun _ _ _ run => absurd run lower_absent
  | constant info value =>
    intro ctx s t code within seen room run
    rw [Expr.lower] at run
    obtain ⟨label,_,_,final⟩ := bind_eq_ok.mp run
    cases final
    simp [Code.lines,Assembly.code]
  | ident info name scope =>
    intro ctx s t code within seen room run
    obtain ⟨-,⟨-,rfl⟩ | ⟨-,source,resolved,rfl⟩⟩ := lower_ident run
    · simp [Code.lines,Assembly.code]
    · exact keepingTo_load (within.resolve resolved)
  | assign info name scope value ih =>
    intro ctx s t code within seen room run
    obtain ⟨valueCode,target,lowered,resolved,rfl⟩ := lower_assign run
    have inner := ih (within.part 0) (Context.sees_under.mp seen) room lowered
    exact keepingTo_store inner (within.resolve resolved)
  | unary info op operand ih =>
    intro ctx s t code within seen room run
    obtain ⟨operandCode,u,lowered,made⟩ := lower_unary run
    have inner := ih (within.part 0) (Context.sees_under.mp seen) room lowered
    cases op <;> obtain ⟨rfl,-⟩ := made <;> simp [Code.lines,Assembly.code,inner]
  | binary info op left right ihLeft ihRight =>
    intro ctx s t code within seen room run
    rw [Expr.words] at room
    simp only [Expr.plan,Context.sees_beside,Context.sees_under] at seen
    obtain ⟨leftCode,rightCode,u,v,loweredLeft,loweredRight,made⟩ := lower_binary run
    have first := ihLeft (within.part 0) seen.1 (by omega) loweredLeft
    have second := ihRight (within.part 1) seen.2 (by omega) loweredRight
    cases op with
    | arith op =>
      obtain ⟨mnemonic,-,rfl,-⟩ := made
      simp [Code.lines,Code.push,Code.pop,Assembly.code,first,second]
    | compare op =>
      obtain ⟨rfl,-⟩ := made
      simp [Code.lines,Code.push,Code.pop,Assembly.code,first,second]
    | equal =>
      obtain ⟨rfl,-⟩ := made
      simp [Code.lines,Code.push,Code.pop,Assembly.code,first,second]
  | cond info test yes no ihTest ihYes ihNo =>
    intro ctx s t code within seen room run
    rw [Expr.words] at room
    simp only [Expr.plan,Context.sees_beside,Context.sees_under] at seen
    obtain ⟨testCode,yesCode,noCode,u,v,w,loweredTest,loweredYes,loweredNo,rfl,-⟩ := lower_cond run
    have first := ihTest (within.part 0) seen.1 (by omega) loweredTest
    have second := ihYes (within.part 1) seen.2.1 (by omega) loweredYes
    have third := ihNo (within.part 2) seen.2.2 (by omega) loweredNo
    simp [Code.lines,Assembly.code,first,second,third]
  | loop info test body ihTest ihBody =>
    intro ctx s t code within seen room run
    rw [Expr.words] at room
    simp only [Expr.plan,Context.sees_beside,Context.sees_under] at seen
    obtain ⟨testCode,bodyCode,u,v,loweredTest,loweredBody,rfl,-⟩ := lower_loop run
    have first := ihTest (within.part 0) seen.1 (by omega) loweredTest
    have second := ihBody (within.part 1) seen.2 (by omega) loweredBody
    simp [Code.lines,Assembly.code,first,second]
  | block info exprs ih =>
    intro ctx s t code within seen room run
    obtain ⟨codes,lowered,rfl⟩ := lower_block run
    exact Code.forall_mem_linesOf (keepingTo_lowerAll ih within seen room lowered)
  | letIn info bindings body ihBindings ihBody =>
    intro ctx s t code within seen room run
    obtain ⟨stores,inner,bodyCode,u,bound,lowered,rfl⟩ := lower_let run
    have words : (body.plan.under bindings.length).words = body.words := body.plan_words
    obtain ⟨each,deeper,seenBody⟩ :=
      keepingTo_lowerBindings ihBindings within seen (words ▸ room) bound
    have small := Nat.le_trans (inner_le_scopeWords bindings body.words) room
    simp only [Code.lines,keepingTo_append,keepingTo_block]
    refine ⟨Code.forall_mem_linesOf each,?_⟩
    exact ihBody (deeper.part _) (Context.sees_under.mp seenBody) small lowered
  | caseOf info scrutinee branches ihScrutinee ihBranches =>
    intro ctx s t code within seen room run
    rw [Expr.words] at room
    simp only [Expr.plan,Context.sees_beside,Context.sees_under] at seen
    obtain ⟨scrutineeCode,site,tests,heads,u,v,lowered,-,loweredBranches,rfl⟩ := lower_case run
    have first := ihScrutinee (within.part 0) seen.1 (by omega) lowered
    have second := keepingTo_lowerBranches ihBranches within seen.2 (by omega) loweredBranches
    simp [Code.lines,Code.checkVoid,Assembly.code,first,second,keepingTo_tests]
  | new info className =>
    intro ctx s t code within seen room run
    rw [Expr.lower] at run
    split at run
    · cases run
      simp [Code.lines,Code.pop,Assembly.code]
    · obtain ⟨c,_,_,final⟩ := bind_eq_ok.mp run
      cases final
      simp [Code.lines,Assembly.code]
  | dispatch info receiver staticClass method args ihReceiver ihArgs =>
    intro ctx s t code within seen room run
    rw [Expr.words] at room
    simp only [Expr.plan,Context.sees_beside,Context.sees_under] at seen
    obtain ⟨argCodes,receiverCode,target,slot,site,u,v,loweredArgs,lowered,-,-,-,rfl⟩ :=
      lower_dispatch run
    have pushed :=
      keepingTo_pushLines (keepingTo_lowerArgs ihArgs within seen.2 (by omega) loweredArgs)
    have object : KeepingTo words receiverCode.lines := by
      split at lowered
      · cases lowered
        simp [Code.lines,Assembly.code]
      · exact ihReceiver (within.part 0) seen.1 (by omega) lowered
    simp [Code.lines,Code.checkVoid,Assembly.code,pushed,object,keepingTo_callThrough]

end Lowered

/-- The lines of a routine with a frame for some expressions. It has the words that their plan asks
for, stores every variable at its depth, and addresses nothing else below the frame pointer than the
words that its prologue reserves. -/
structure FrameFor (exprs : List Expr) (words : Nat) (lines : List Line) : Prop where
  size : words = (planAll 0 exprs).words
  entry : ∃ name, [.label name] ++ code (prologueCode words) <+: lines
  stores : ∀ (site : BindingSite) (d : Nat), (planAll 0 exprs).depth? id site = some d →
    ∃ e ctx s code t, exprAt? exprs site.place = some e ∧ e.lower ctx s = .ok code t ∧
      code.slots[site.index]? = some (Location.ofDepth d) ∧ Code.storeAt d ∈ code.lines ∧
      code.lines ⊆ lines
  bounds : ∀ i offset, .instruction i ∈ lines → i.frameOffset? = some offset → offset < 0 →
    -4 * (words : Int) ≤ offset ∧ offset ≤ -4
  reserved : ∀ i offset, .instruction i ∈ lines → i.frameOffset? = some offset → offset < 0 →
    ∀ (symbols : String → Int) (m : Machine), ∃ entered,
      exec symbols (code (prologueCode words)) none m = some entered ∧
        entered.reg .sp < entered.reg .fp + offset ∧
        entered.reg .fp + offset ≤ m.reg .sp - 12

section Routines

variable {words : Nat} {lines : List Line} {options : Options} {classes : ClassTable}
  {c : ClassEntry} {s t : Supply}

theorem keepingTo_prologue (words : Nat) : KeepingTo words (code (prologueCode words)) := by
  by_cases none : words = 0 <;> simp [prologueCode,code,none]

theorem keepingTo_epilogue (words formals : Nat) :
    KeepingTo words (code (epilogueCode words formals)) := by
  by_cases none : words = 0 <;> simp [epilogueCode,code,none]

theorem FrameFor.of_keeping {exprs : List Expr} (size : words = (planAll 0 exprs).words)
    (entry : ∃ name, [.label name] ++ code (prologueCode words) <+: lines)
    (each : ∀ e ∈ exprs, e.LowersInto lines) (keeping : KeepingTo words lines) :
    FrameFor exprs words lines where
  size := size
  entry := entry
  stores site d depth := by
    rw [depth?_planAll] at depth
    obtain ⟨e,found,depth⟩ := BindingSite.depth?_eq_some.mp depth
    have present : e.isAbsent = false := by cases e <;> first | rfl | cases depth
    obtain ⟨ctx,s,code,t,lowered,seen,inside⟩ := Expr.LowersInto.of_exprAt? each found present
    have slot := slots_lower lowered seen depth
    exact ⟨e,ctx,s,code,t,found,lowered,slot,Code.storeAt_mem_lines (List.mem_of_getElem? slot),
      inside⟩
  bounds i offset member addressed negative := by
    obtain ⟨d,inside,rfl⟩ := keeping _ member offset addressed negative
    omega
  reserved i offset member addressed negative symbols m := by
    obtain ⟨d,inside,rfl⟩ := keeping _ member offset addressed negative
    obtain ⟨entered,run,framed⟩ := exec_prologue symbols words m
    refine ⟨entered,run,?_⟩
    have sp := framed.sp
    have fp := framed.fp
    omega

theorem within_contextOf (formals : List Binder) (planned : BindingSite → Option Nat) :
    (contextOf options classes c formals planned).Within words := by
  intro word member
  cases member

theorem methodRoutine_frame {m : MethodDecl} {r : MethodRoutine}
    (run : methodRoutine options classes c m s = .ok r t) :
    FrameFor [m.body] r.frameWords r.lines := by
  rw [methodRoutine,methodRoutineIn] at run
  obtain ⟨body,_,lowered,final⟩ := bind_eq_ok.mp run
  cases final
  refine .of_keeping rfl ⟨c.name ++ "." ++ m.name,?_⟩ ?_ ?_
  · simp only [MethodRoutine.lines,List.append_assoc]
    exact (List.prefix_append_right_inj _).mpr (List.prefix_append ..)
  · refine List.forall_mem_singleton.mpr ⟨_,_,body,_,lowered,sees_methodPlan m,fun l here => ?_⟩
    simp [MethodRoutine.lines,subset_block _ here]
  · have room : m.body.words ≤ (methodPlan m).words := by
      rw [methodPlan,planAll_words_eq]
      exact Nat.le_max_left ..
    have inner := m.body.keepsTo _ ((within_contextOf _ _).part 0) (sees_methodPlan m) room lowered
    simp [MethodRoutine.lines,inner,keepingTo_prologue,keepingTo_epilogue]

/-- The stores of initializers that share a frame. -/
theorem attributeStores_frame {ctx : Context} {attributes : List (AttributeDecl × Nat)}
    {stores : List AttributeStore} (within : ctx.Within words)
    (made : attributes.mapM (fun x => attributeStore (ctx.part x.2) x.1) s = .ok stores t)
    (fits : ∀ x ∈ attributes, (ctx.part x.2).Sees x.1.init.plan ∧ x.1.init.words ≤ words) :
    (∀ x ∈ attributes, x.1.init.LowersInto (stores.flatMap AttributeStore.lines)) ∧
      KeepingTo words (stores.flatMap AttributeStore.lines) := by
  refine mapM_induction (R := fun _ attributes stores _ =>
    (∀ x ∈ attributes, (ctx.part x.2).Sees x.1.init.plan ∧ x.1.init.words ≤ words) →
      (∀ x ∈ attributes, x.1.init.LowersInto (stores.flatMap AttributeStore.lines)) ∧
        KeepingTo words (stores.flatMap AttributeStore.lines)) ?_ ?_ made fits
  · exact fun _ _ => ⟨List.forall_mem_nil _,keepingTo_nil⟩
  · intro x store attributes stores s u t first others fits
    obtain ⟨⟨seen,room⟩,fits⟩ := List.forall_mem_cons.mp fits
    rw [attributeStore] at first
    obtain ⟨target,_,placed,made⟩ := bind_eq_ok.mp first
    obtain ⟨-,rfl⟩ := ofExcept_eq_ok.mp placed
    obtain ⟨value,_,lowered,final⟩ := bind_eq_ok.mp made
    cases final
    obtain ⟨into,keeping⟩ := others fits
    refine ⟨List.forall_mem_cons.mpr ⟨⟨_,_,value,_,lowered,seen,fun l here => ?_⟩,
      fun x member => ?_⟩,?_⟩
    · simp [AttributeStore.lines,subset_block _ here]
    · exact (into x member).mono (List.subset_append_right ..)
    · have inner := x.1.init.keepsTo words (within.part x.2) seen room lowered
      cases reported : (ctx.part x.2).barrier <;>
        simp [AttributeStore.lines,Code.storeTo,code,inner,keeping]

theorem initRoutine_frame {r : InitRoutine} (run : initRoutine options classes c s = .ok r t) :
    FrameFor (c.initialized.map (·.init)) r.frameWords r.lines := by
  rw [initRoutine,initRoutineIn] at run
  obtain ⟨stores,_,made,final⟩ := bind_eq_ok.mp run
  cases final
  have fits : ∀ x ∈ c.initialized.zipIdx,
      ((initContext id options classes c).part x.2).Sees x.1.init.plan ∧
        x.1.init.words ≤ (initPlan c).words := by
    rintro ⟨a,k⟩ listed
    have here : (c.initialized.map (·.init))[k]? = some a.init := by
      rw [List.getElem?_map,List.mk_mem_zipIdx_iff_getElem?.mp listed]
      rfl
    refine ⟨?_,?_⟩
    · rw [← Nat.zero_add k]
      exact (sees_initPlan c).of_getElem? here
    · rw [initPlan,planAll_words_eq]
      exact words_le_listWords (List.mem_of_getElem? here)
  obtain ⟨into,keeping⟩ := attributeStores_frame (within_contextOf [] _) made fits
  refine .of_keeping rfl ⟨c.name ++ "_init",?_⟩ ?_ ?_
  · simp only [InitRoutine.lines,List.append_assoc]
    exact (List.prefix_append_right_inj _).mpr (List.prefix_append ..)
  · refine List.forall_mem_map.mpr fun a member => ?_
    obtain ⟨k,here⟩ := List.mem_iff_getElem?.mp member
    refine (into (a,k) (List.mk_mem_zipIdx_iff_getElem?.mpr here)).mono fun l inside => ?_
    simp only [InitRoutine.lines,List.mem_append]
    exact .inl (.inl (.inr inside))
  · have parent : KeepingTo (initPlan c).words
        (code (((classes.parentNameOf? c).map fun parent =>
          Instruction.jal (parent ++ "_init")).toList)) := by
      cases classes.parentNameOf? c <;> simp [code]
    simp only [InitRoutine.lines,keepingTo_append]
    exact ⟨⟨⟨⟨⟨by simp,keepingTo_prologue _⟩,parent⟩,keeping⟩,by simp [code]⟩,
      keepingTo_epilogue _ _⟩

end Routines

/-- The plan of a frame gives each variable a depth below the number of words, and below the depth
of every variable whose scope it is bound in; and the number of words is the length of the longest
chain of variables that are bound in the scopes of those before. The routines of methods and of
initializers store their variables at these depths, and stay inside the words that they reserve. -/
theorem frame_plans_exact :
    (∀ exprs : List Expr,
      (∀ site : BindingSite, site.Occurs exprs →
        ∃ d, (planAll 0 exprs).depth? id site = some d ∧ d < (planAll 0 exprs).words) ∧
      (∀ outer inner d d', InScope exprs outer inner →
        (planAll 0 exprs).depth? id outer = some d →
        (planAll 0 exprs).depth? id inner = some d' → d' < d) ∧
      (∀ chain, Nested exprs chain → chain.length ≤ (planAll 0 exprs).words) ∧
      ∃ chain, Nested exprs chain ∧ chain.length = (planAll 0 exprs).words) ∧
    ∀ (options : Options) (classes : ClassTable) (c : ClassEntry) (s t : Supply),
      (∀ m r, methodRoutine options classes c m s = .ok r t →
        r.toValue.render Spim.group = .ok (joined r.lines) ∧
        FrameFor [m.body] r.frameWords r.lines) ∧
      (∀ r, initRoutine options classes c s = .ok r t →
        r.toValue.render Spim.group = .ok (joined r.lines) ∧
        FrameFor (c.initialized.map (·.init)) r.frameWords r.lines) := by
  refine ⟨fun exprs => ?_,fun options classes c s t => ⟨?_,?_⟩⟩
  · simp only [depth?_planAll,planAll_words_eq]
    refine ⟨?_,?_,?_,exists_nested exprs⟩
    · exact fun site occurs => occurs.exists_depth
    · exact fun outer inner d d' scope depth depth' => scope.depth_lt depth depth'
    · exact fun chain nested => nested.length_le
  · exact fun m r run => ⟨r.render_toValue,methodRoutine_frame run⟩
  · exact fun r run => ⟨r.render_toValue,initRoutine_frame run⟩

/-- Two variables, a third in the initializer of the first, and branches of which one binds another:
`let x <- let z <- 1 in z, y in case x of n : Box => n; m : Box => let w <- m in w; esac`. -/
def branching : MethodDecl where
  name := "branch"
  formals := []
  returnType := "Object"
  body :=
    let var (name : String) : Expr := .ident {} name .localVar
    let binder (name : String) : Binder := { name, type := "Box" }
    .letIn {} [(binder "x",.letIn {} [(binder "z",.constant {} (.int 1))] (var "z")),
        (binder "y",.absent)]
      (.caseOf {} (var "x") [(binder "n",var "n"),
        (binder "m",.letIn {} [(binder "w",var "m")] (var "w"))])

def box : ClassEntry where
  name := "Box"
  tag := 0
  parentName := ""
  attributes := [{ name := "a", type := "Box", init := branching.body }]

theorem branching_planned :
    (∃ r t, methodRoutine {} (.ofList [box]) box branching {} = .ok r t ∧ r.frameWords = 4 ∧
      FrameFor [branching.body] r.frameWords r.lines) ∧
    (∃ r t, initRoutine {} (.ofList [box]) box {} = .ok r t ∧ r.frameWords = 4 ∧
      r.toValue.render Spim.group = .ok (joined r.lines)) ∧
    (∃ chain, Nested [branching.body] chain ∧ chain.length = 4) ∧
    (methodPlan branching).depth? id ⟨[0],0⟩ = some 3 ∧
    (methodPlan branching).depth? id ⟨[0,0],0⟩ = some 0 ∧
    (methodPlan branching).depth? id ⟨[0,2],1⟩ = some 1 := by
  obtain ⟨planned,routines⟩ := frame_plans_exact
  obtain ⟨method,t,run⟩ := exists_of_succeeded (by decide +kernel :
    succeeded (methodRoutine {} (.ofList [box]) box branching {}))
  obtain ⟨init,u,run'⟩ := exists_of_succeeded (by decide +kernel :
    succeeded (initRoutine {} (.ofList [box]) box {}))
  have words : (planAll 0 [branching.body]).words = 4 := by decide
  have frame := ((routines {} (.ofList [box]) box {} t).1 branching method run).2
  have frame' := (routines {} (.ofList [box]) box {} u).2 init run'
  refine ⟨⟨method,t,run,frame.size.trans words,frame⟩,
    ⟨init,u,run',frame'.2.size.trans words,frame'.1⟩,?_,?_⟩
  · exact words ▸ (planned [branching.body]).2.2.2
  · decide

end CoolBackend
