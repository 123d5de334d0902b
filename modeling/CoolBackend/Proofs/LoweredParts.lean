import CoolBackend.Proofs.CallingConvention
import CoolBackend.Proofs.PlannedDepths

/-!
The lines that lowering makes of an expression hold those that it makes of the expressions in it. The
code of a `let` or a `case` keeps its variables at the depths that the frame plan gives them.
-/
namespace CoolBackend

open Assembly

/-- Lines among which is what lowering an expression makes, in a context in which it is planned. -/
def Expr.LowersInto (e : Expr) (lines : List Line) : Prop :=
  ∃ ctx s code t, e.lower ctx s = .ok code t ∧ ctx.Sees e.plan ∧ code.lines ⊆ lines

theorem Expr.LowersInto.mono {e : Expr} {lines more : List Line} (into : e.LowersInto lines)
    (wider : lines ⊆ more) : e.LowersInto more := by
  obtain ⟨ctx,s,code,t,lowered,seen,inside⟩ := into
  exact ⟨ctx,s,code,t,lowered,seen,List.Subset.trans inside wider⟩

section Parts

variable {ctx : Context} {s t : Supply} {codes : List Code}

theorem lowersInto_lowerAll {exprs : List Expr} {k : Nat}
    (run : lowerAll exprs k ctx s = .ok codes t) (seen : ctx.Sees (planAll k exprs)) :
    ∀ e ∈ exprs, e.LowersInto (Code.linesOf codes) := by
  induction exprs generalizing k s codes with
  | nil => exact List.forall_mem_nil _
  | cons e rest ih =>
    obtain ⟨first,others,u,lowered,loweredRest,rfl⟩ := lowerAll_cons run
    obtain ⟨here,seen⟩ := Context.sees_all.mp seen
    refine List.forall_mem_cons.mpr ⟨⟨_,s,first,u,lowered,here,List.subset_append_left ..⟩,?_⟩
    exact fun e member => (ih loweredRest seen e member).mono (List.subset_append_right ..)

theorem lowersInto_lowerArgs {args : List Expr} {k : Nat}
    (run : lowerArgs args k ctx s = .ok codes t) (seen : ctx.Sees (planAll k args)) :
    ∀ e ∈ args, e.LowersInto (Code.pushLines codes) := by
  intro e member
  obtain ⟨i,at_i⟩ := List.mem_iff_getElem?.mp member
  obtain ⟨u,c,w,lowered,here⟩ := (lowerArgs_reverse run).2 i e at_i
  rw [Nat.add_comm] at lowered
  have member := List.mem_reverse.mp (List.mem_of_getElem? here)
  exact ⟨_,u,c,w,lowered,seen.of_getElem? at_i,Code.subset_pushLines member⟩

theorem subset_store (ctx : Context) (value : Code) (target : Location) :
    value.lines ⊆ (ctx.store value target).lines := by
  intro l here
  simp [Context.store,Code.lines,subset_block _ here]

theorem lowersInto_lowerBindings {bindings : List (Binder × Expr)} {i : Nat} {inner : FramePlan}
    {ctx' : Context} (run : lowerBindings bindings i ctx s = .ok (codes,ctx') t)
    (seen : ctx.Sees (planBindings i bindings inner)) : ctx'.Sees inner ∧
      ∀ b ∈ bindings, b.2.isAbsent = false → b.2.LowersInto (Code.linesOf codes) := by
  induction bindings generalizing i ctx s codes with
  | nil =>
    cases run
    exact ⟨seen,List.forall_mem_nil _⟩
  | cons b rest ih =>
    obtain ⟨b,init⟩ := b
    obtain ⟨value,depth,others,u,initial,-,bound,rfl⟩ := lowerBindings_cons run
    obtain ⟨-,here,seen⟩ := Context.sees_binding.mp seen
    obtain ⟨seenInner,each⟩ := ih bound seen
    refine ⟨seenInner,List.forall_mem_cons.mpr ⟨fun present => ?_,fun b member present => ?_⟩⟩
    · rw [if_neg (by simp [present])] at initial
      exact ⟨_,s,value,u,initial,here,
        List.Subset.trans (subset_store ..) (List.subset_append_left ..)⟩
    · exact (each b member present).mono (List.subset_append_right ..)

theorem lowersInto_lowerBranches {branches : List (Binder × Expr)} {i : Nat}
    {tests : List (Nat × String)} {heads : List (BranchHead × Code)}
    (run : lowerBranches branches i ctx s = .ok (tests,heads) t)
    (seen : ctx.Sees (planBranches i branches)) (endLabel : String) :
    ∀ b ∈ branches, b.2.LowersInto (Code.branchLines endLabel heads) := by
  induction branches generalizing i s tests heads with
  | nil => exact List.forall_mem_nil _
  | cons b rest ih =>
    obtain ⟨b,body⟩ := b
    obtain ⟨_,depth,bodyCode,_,others,u,_,-,lowered,loweredRest,-,rfl⟩ := lowerBranches_cons run
    obtain ⟨-,seenBody,seen⟩ := Context.sees_branch.mp seen
    refine List.forall_mem_cons.mpr
      ⟨⟨_,_,bodyCode,u,lowered,seenBody,fun l here => ?_⟩,fun b member => ?_⟩
    · simp [Code.branchLines,subset_block _ here]
    · exact (ih loweredRest seen b member).mono (List.subset_append_right ..)

end Parts

namespace Expr.LowersInto

variable {e child : Expr} {lines : List Line} {i d : Nat}

/-- What lowering makes of an expression holds what it makes of the expressions in it. -/
theorem of_child (into : e.LowersInto lines) (inside : child ∈ e.children)
    (present : child.isAbsent = false) : child.LowersInto lines := by
  obtain ⟨ctx,s,code,t,run,seen,wider⟩ := into
  suffices own : child.LowersInto code.lines from own.mono wider
  cases e with
  | absent | constant | ident | new => cases inside
  | assign info name scope value =>
    obtain ⟨valueCode,target,lowered,-,rfl⟩ := lower_assign run
    cases List.mem_singleton.mp inside
    exact ⟨_,s,valueCode,t,lowered,Context.sees_under.mp seen,subset_store ..⟩
  | unary info op operand =>
    obtain ⟨operandCode,u,lowered,made⟩ := lower_unary run
    cases List.mem_singleton.mp inside
    refine ⟨_,s,operandCode,u,lowered,Context.sees_under.mp seen,fun l here => ?_⟩
    cases op <;> obtain ⟨rfl,-⟩ := made <;> simp [Code.lines,subset_block _ here]
  | binary info op left right =>
    obtain ⟨leftCode,rightCode,u,v,loweredLeft,loweredRight,made⟩ := lower_binary run
    have both : leftCode.lines ⊆ code.lines ∧ rightCode.lines ⊆ code.lines := by
      cases op with
      | arith op =>
        obtain ⟨mnemonic,-,rfl,-⟩ := made
        constructor <;> intro l here <;> simp [Code.lines,subset_block _ here]
      | compare | equal =>
        obtain ⟨rfl,-⟩ := made
        constructor <;> intro l here <;> simp [Code.lines,subset_block _ here]
    rw [Expr.plan,Context.sees_beside,Context.sees_under,Context.sees_under] at seen
    rcases List.mem_cons.mp inside with rfl | inside
    · exact ⟨_,s,leftCode,u,loweredLeft,seen.1,both.1⟩
    · cases List.mem_singleton.mp inside
      exact ⟨_,u,rightCode,v,loweredRight,seen.2,both.2⟩
  | cond info test yes no =>
    obtain ⟨testCode,yesCode,noCode,u,v,w,loweredTest,loweredYes,loweredNo,rfl,-⟩ :=
      lower_cond run
    simp only [Expr.plan,Context.sees_beside,Context.sees_under] at seen
    rcases List.mem_cons.mp inside with rfl | inside
    · exact ⟨_,s,testCode,u,loweredTest,seen.1,fun l here => by
        simp [Code.lines,subset_block _ here]⟩
    · rcases List.mem_cons.mp inside with rfl | inside
      · exact ⟨_,u,yesCode,v,loweredYes,seen.2.1,fun l here => by
          simp [Code.lines,subset_block _ here]⟩
      · cases List.mem_singleton.mp inside
        exact ⟨_,v,noCode,w,loweredNo,seen.2.2,fun l here => by
          simp [Code.lines,subset_block _ here]⟩
  | loop info test body =>
    obtain ⟨testCode,bodyCode,u,v,loweredTest,loweredBody,rfl,-⟩ := lower_loop run
    rw [Expr.plan,Context.sees_beside,Context.sees_under,Context.sees_under] at seen
    rcases List.mem_cons.mp inside with rfl | inside
    · exact ⟨_,s,testCode,u,loweredTest,seen.1,fun l here => by
        simp [Code.lines,subset_block _ here]⟩
    · cases List.mem_singleton.mp inside
      exact ⟨_,u,bodyCode,v,loweredBody,seen.2,fun l here => by
        simp [Code.lines,subset_block _ here]⟩
  | block info exprs =>
    obtain ⟨codes,lowered,rfl⟩ := lower_block run
    exact lowersInto_lowerAll lowered seen child inside
  | letIn info bindings body =>
    obtain ⟨stores,inner,bodyCode,u,bound,lowered,rfl⟩ := lower_let run
    obtain ⟨seenBody,inits⟩ := lowersInto_lowerBindings bound seen
    rcases List.mem_append.mp inside with inside | inside
    · obtain ⟨b,member,rfl⟩ := List.mem_map.mp inside
      refine (inits b member present).mono fun l here => ?_
      simp [Code.lines,subset_block _ here]
    · cases List.mem_singleton.mp inside
      exact ⟨_,u,bodyCode,t,lowered,Context.sees_under.mp seenBody,fun l here => by
        simp [Code.lines,subset_block _ here]⟩
  | caseOf info scrutinee branches =>
    obtain ⟨scrutineeCode,site,tests,heads,u,v,lowered,-,loweredBranches,rfl⟩ := lower_case run
    rw [Expr.plan,Context.sees_beside,Context.sees_under] at seen
    rcases List.mem_cons.mp inside with rfl | inside
    · exact ⟨_,s,scrutineeCode,u,lowered,seen.1,fun l here => by
        simp [Code.lines,subset_block _ here]⟩
    · obtain ⟨b,member,rfl⟩ := List.mem_map.mp inside
      have bodies := lowersInto_lowerBranches loweredBranches seen.2 (v.newLabel "esac").1
      exact (bodies b member).mono fun l here => by simp [Code.lines,here]
  | dispatch info receiver staticClass method args =>
    obtain ⟨argCodes,receiverCode,target,slot,site,u,v,loweredArgs,lowered,-,-,-,rfl⟩ :=
      lower_dispatch run
    rw [Expr.plan,Context.sees_beside,Context.sees_under] at seen
    rcases List.mem_cons.mp inside with rfl | inside
    · rw [if_neg (by simp [present])] at lowered
      exact ⟨_,u,receiverCode,v,lowered,seen.1,fun l here => by
        simp [Code.lines,subset_block _ here]⟩
    · refine (lowersInto_lowerArgs loweredArgs seen.2 child inside).mono fun l here => ?_
      simp [Code.lines,here]

/-- The same for what is further inside. -/
theorem of_at? {place : List Nat} {inner : Expr} (into : e.LowersInto lines)
    (found : e.at? place = some inner) (present : inner.isAbsent = false) :
    inner.LowersInto lines := by
  induction place generalizing e with
  | nil =>
    cases found
    exact into
  | cons k place ih =>
    obtain ⟨next,here,found⟩ := Option.bind_eq_some_iff.mp found
    refine ih (into.of_child (List.mem_of_getElem? here) ?_) found
    -- Nothing is inside an expression that is absent, so this one is not.
    cases next with
    | absent =>
      cases place with
      | nil => cases found; exact present
      | cons => cases found
    | _ => rfl

theorem of_exprAt? {exprs : List Expr} {place : List Nat} (each : ∀ e ∈ exprs, e.LowersInto lines)
    (found : exprAt? exprs place = some e) (present : e.isAbsent = false) : e.LowersInto lines := by
  cases place with
  | nil => cases found
  | cons k below =>
    obtain ⟨root,here,found⟩ := Option.bind_eq_some_iff.mp found
    exact (each root (List.mem_of_getElem? here)).of_at? found present

end Expr.LowersInto

namespace Code

/-- Where a store puts its value. -/
def target? : Code → Option Location
  | .storeVar _ target _ => some target
  | _ => none

def slots : Code → List Location
  | .letIn stores _ => stores.filterMap target?
  | .caseOf _ _ _ branches _ => branches.map (·.1.slot)
  | _ => []

def storeAt (depth : Nat) : Line := .instruction (.sw .a0 (Location.ofDepth depth).offset .fp)

theorem storeAt_mem_branchLines {branches : List (BranchHead × Code)} {depth : Nat}
    (kept : Location.ofDepth depth ∈ branches.map (·.1.slot)) (endLabel : String) :
    storeAt depth ∈ branchLines endLabel branches := by
  obtain ⟨branch,member,same⟩ := List.mem_map.mp kept
  rw [branchLines_eq,← List.flatMap_def]
  exact List.mem_flatMap.mpr ⟨branch,member,by simp [branchListing,storeAt,same]⟩

theorem storeAt_mem_lines {c : Code} {depth : Nat} (kept : Location.ofDepth depth ∈ c.slots) :
    storeAt depth ∈ c.lines := by
  cases c with
  | letIn stores body =>
    obtain ⟨store,member,target⟩ := List.mem_filterMap.mp kept
    have stored : storeAt depth ∈ store.lines := by
      cases store with
      | storeVar value place barrier =>
        cases target
        simp [storeAt,lines,storeTo,code,Location.ofDepth,Base.toRegister]
      | _ => cases target
    simp [lines,subset_block _ (subset_linesOf member stored)]
  | caseOf scrutinee site tests branches endLabel =>
    simp [lines,storeAt_mem_branchLines kept endLabel]
  | _ => cases kept

end Code

section Slots

variable {ctx : Context} {s t : Supply}

theorem slots_lowerBindings {bindings : List (Binder × Expr)} {i : Nat} {inner : FramePlan}
    {ctx' : Context} {stores : List Code}
    (run : lowerBindings bindings i ctx s = .ok (stores,ctx') t)
    (seen : ctx.Sees (planBindings i bindings inner)) :
    stores.filterMap Code.target? =
      (letDepths bindings inner.words).map fun depth : Nat => Location.ofDepth depth := by
  induction bindings generalizing i ctx s stores with
  | nil =>
    rw [lowerBindings] at run
    cases run
    rfl
  | cons b rest ih =>
    obtain ⟨value,depth,others,u,-,planned,bound,rfl⟩ := lowerBindings_cons run
    obtain ⟨own,-,seen⟩ := Context.sees_binding.mp seen
    cases own.symm.trans planned
    exact congrArg (_ :: ·) (ih bound seen)

theorem slots_lowerBranches {branches : List (Binder × Expr)} {i : Nat}
    {tests : List (Nat × String)} {heads : List (BranchHead × Code)}
    (run : lowerBranches branches i ctx s = .ok (tests,heads) t)
    (seen : ctx.Sees (planBranches i branches)) :
    heads.map (·.1.slot) =
      (branches.map (·.2.words)).map fun depth : Nat => Location.ofDepth depth := by
  induction branches generalizing i s tests heads with
  | nil =>
    rw [lowerBranches] at run
    cases run
    rfl
  | cons b rest ih =>
    obtain ⟨_,depth,_,_,others,u,_,planned,_,loweredRest,-,rfl⟩ := lowerBranches_cons run
    obtain ⟨own,-,seen⟩ := Context.sees_branch.mp seen
    cases own.symm.trans planned
    exact congrArg (_ :: ·) (ih loweredRest seen)

/-- Code keeps the variables that it binds at the depths of the plan. -/
theorem slots_lower {e : Expr} {code : Code} {i d : Nat} (run : e.lower ctx s = .ok code t)
    (seen : ctx.Sees e.plan) (depth : e.depths[i]? = some d) :
    code.slots[i]? = some (Location.ofDepth d) := by
  have same : code.slots = e.depths.map fun depth : Nat => Location.ofDepth depth := by
    cases e with
    | letIn info bindings body =>
      obtain ⟨stores,inner,bodyCode,u,bound,-,rfl⟩ := lower_let run
      have words : (body.plan.under bindings.length).words = body.words := body.plan_words
      exact (slots_lowerBindings bound seen).trans (by rw [words,Expr.depths])
    | caseOf info scrutinee branches =>
      obtain ⟨_,site,tests,heads,_,v,_,-,loweredBranches,rfl⟩ := lower_case run
      exact slots_lowerBranches loweredBranches (Context.sees_beside.mp seen).2
    | _ => cases depth
  rw [same,List.getElem?_map,depth]
  rfl

end Slots

end CoolBackend
