import CoolBackend.Proofs.Expressions
import CoolBackend.Proofs.LiteralLabels
import CoolBackend.Proofs.NodeNames

/-!
Work that fails keeps what it did before. So what holds between the states around every step holds
between the first state and the last one, whether the work got to its end or not. Lowering adds to
the literal pool in this way, also where it meets a part of a program that it cannot lower.
-/
namespace CoolBackend

section Advances

variable {ε σ α β : Type}

def Advances (R : σ → σ → Prop) (x : EStateM ε σ α) : Prop := ∀ s, R s (stateAfter (x s))

variable {R : σ → σ → Prop} {x : EStateM ε σ α}

/-- What follows a step only goes on from where the step has come to. -/
theorem Advances.after [Std.Refl R] {f : α → EStateM ε σ β} (next : ∀ a, Advances R (f a)) (s : σ) :
    R (stateAfter (x s)) (stateAfter ((x >>= f) s)) := by
  rw [bind_run]
  cases x s with
  | ok a t => exact next a t
  | error e t => exact Std.Refl.refl t

theorem Advances.bind [IsPreorder σ R] {f : α → EStateM ε σ β} (first : Advances R x)
    (next : ∀ a, Advances R (f a)) : Advances R (x >>= f) :=
  fun s => IsTrans.trans s _ _ (first s) (Advances.after next s)

theorem advances_pure [Std.Refl R] (a : α) : Advances R (pure a : EStateM ε σ α) :=
  fun s => Std.Refl.refl s

theorem advances_throw [Std.Refl R] (e : ε) : Advances R (throw e : EStateM ε σ α) :=
  fun s => Std.Refl.refl s

theorem advances_get [Std.Refl R] : Advances R (get : EStateM ε σ σ) := fun s => Std.Refl.refl s

theorem advances_ofExcept [Std.Refl R] (found : Except ε α) :
    Advances R (ofExcept found : EStateM ε σ α) := by
  cases found with
  | ok a => exact advances_pure a
  | error e => exact advances_throw e

theorem Advances.map (first : Advances R x) (f : α → β) : Advances R (f <$> x) := by
  intro s
  have here := first s
  simp only [Functor.map,EStateM.map]
  cases run : x s with
  | ok a t => rw [run] at here; exact here
  | error e t => rw [run] at here; exact here

theorem Advances.mapM [IsPreorder σ R] {f : α → EStateM ε σ β} {xs : List α}
    (each : ∀ a ∈ xs, Advances R (f a)) : Advances R (xs.mapM f) := by
  induction xs with
  | nil => exact advances_pure []
  | cons a xs ih =>
    obtain ⟨here,others⟩ := List.forall_mem_cons.mp each
    rw [List.mapM_cons]
    exact here.bind fun b => (ih others).bind fun bs => advances_pure (b :: bs)

end Advances

/-- A supply from whose pool nothing was taken since. -/
def Supply.Leads (s t : Supply) : Prop := s.literals.Grows t.literals

instance : IsPreorder Supply Supply.Leads where
  refl _ := .refl _
  trans _ _ _ first second := first.trans second

section Lowering

theorem newLabel_leads (stem : String) : Advances Supply.Leads (LowerM.newLabel stem) :=
  fun _ => .refl _

theorem int_leads (value : Int32) : Advances Supply.Leads (LowerM.int value) :=
  fun s => .int s.literals value

theorem string_leads (value : Bytes) : Advances Supply.Leads (LowerM.string value) :=
  fun s => .string s.literals value

theorem constant_leads (value : Constant) : Advances Supply.Leads (LowerM.constant value) := by
  cases value with
  | int value => exact int_leads value
  | string value => exact string_leads value
  | bool value => exact advances_pure _

theorem site_leads (ctx : Context) (stem : String) (info : Info) :
    Advances Supply.Leads (ctx.site stem info) :=
  (newLabel_leads stem).bind fun _ => (string_leads _).bind fun _ => advances_pure _

theorem defaultValue_leads (type : String) : Advances Supply.Leads (defaultValue type) := by
  unfold defaultValue
  split
  · exact (int_leads 0).bind fun _ => advances_pure _
  · split
    · exact advances_pure _
    · split
      · exact (string_leads []).bind fun _ => advances_pure _
      · exact advances_pure _

def Expr.Leads (e : Expr) : Prop := ∀ ctx : Context, Advances Supply.Leads (e.lower ctx)

theorem lowerAll_leads {exprs : List Expr} (each : ∀ e ∈ exprs, e.Leads) (k : Nat)
    (ctx : Context) : Advances Supply.Leads (lowerAll exprs k ctx) := by
  induction exprs generalizing k with
  | nil =>
    rw [lowerAll]
    exact advances_pure _
  | cons e rest ih =>
    obtain ⟨here,others⟩ := List.forall_mem_cons.mp each
    rw [lowerAll]
    exact (here _).bind fun _ => (ih others _).bind fun _ => advances_pure _

theorem lowerArgs_leads {args : List Expr} (each : ∀ e ∈ args, e.Leads) (k : Nat)
    (ctx : Context) : Advances Supply.Leads (lowerArgs args k ctx) := by
  induction args generalizing k with
  | nil =>
    rw [lowerArgs]
    exact advances_pure _
  | cons e rest ih =>
    obtain ⟨here,others⟩ := List.forall_mem_cons.mp each
    rw [lowerArgs]
    exact (ih others _).bind fun _ => (here _).bind fun _ => advances_pure _

theorem lowerBindings_leads {bindings : List (Binder × Expr)} (each : ∀ b ∈ bindings, b.2.Leads)
    (i : Nat) (ctx : Context) : Advances Supply.Leads (lowerBindings bindings i ctx) := by
  induction bindings generalizing i ctx with
  | nil =>
    rw [lowerBindings]
    exact advances_pure _
  | cons b rest ih =>
    obtain ⟨here,others⟩ := List.forall_mem_cons.mp each
    rw [lowerBindings]
    refine .bind ?_ fun _ => (advances_ofExcept _).bind fun _ => (ih others _ _).bind fun _ =>
      advances_pure _
    split
    · exact defaultValue_leads _
    · exact here _

theorem lowerBranches_leads {branches : List (Binder × Expr)} (each : ∀ b ∈ branches, b.2.Leads)
    (i : Nat) (ctx : Context) : Advances Supply.Leads (lowerBranches branches i ctx) := by
  induction branches generalizing i with
  | nil =>
    rw [lowerBranches]
    exact advances_pure _
  | cons b rest ih =>
    obtain ⟨here,others⟩ := List.forall_mem_cons.mp each
    rw [lowerBranches]
    exact (newLabel_leads "branch").bind fun _ => (advances_ofExcept _).bind fun _ =>
      (advances_ofExcept _).bind fun _ => (here _).bind fun _ => (ih others _).bind fun _ =>
      advances_pure _

theorem Expr.leads (e : Expr) : e.Leads := by
  induction e using Expr.induct with
  | absent =>
    intro ctx
    rw [Expr.lower]
    exact advances_throw _
  | constant info value =>
    intro ctx
    rw [Expr.lower]
    exact (constant_leads value).bind fun _ => advances_pure _
  | ident info name scope =>
    intro ctx
    rw [Expr.lower]
    split
    · exact advances_pure _
    · exact (advances_ofExcept _).bind fun _ => advances_pure _
  | assign info name scope value ih =>
    intro ctx
    rw [Expr.lower]
    exact (ih _).bind fun _ => (advances_ofExcept _).bind fun _ => advances_pure _
  | unary info op operand ih =>
    intro ctx
    cases op with
    | negate =>
      rw [Expr.lower]
      exact (ih _).bind fun _ => advances_pure _
    | not | isVoid =>
      rw [Expr.lower]
      exact (ih _).bind fun _ => (newLabel_leads _).bind fun _ => advances_pure _
  | binary info op left right ihLeft ihRight =>
    intro ctx
    cases op with
    | arith op =>
      rw [Expr.lower]
      exact (advances_ofExcept _).bind fun _ => (ihLeft _).bind fun _ =>
        (ihRight _).bind fun _ => advances_pure _
    | compare | equal =>
      rw [Expr.lower]
      exact (ihLeft _).bind fun _ => (ihRight _).bind fun _ =>
        (newLabel_leads _).bind fun _ => advances_pure _
  | cond info test yes no ihTest ihYes ihNo =>
    intro ctx
    rw [Expr.lower]
    exact (ihTest _).bind fun _ => (ihYes _).bind fun _ => (ihNo _).bind fun _ =>
      (newLabel_leads _).bind fun _ => (newLabel_leads _).bind fun _ => advances_pure _
  | loop info test body ihTest ihBody =>
    intro ctx
    rw [Expr.lower]
    exact (ihTest _).bind fun _ => (ihBody _).bind fun _ =>
      (newLabel_leads _).bind fun _ => (newLabel_leads _).bind fun _ => advances_pure _
  | block info exprs ih =>
    intro ctx
    rw [Expr.lower]
    exact (lowerAll_leads ih 0 ctx).bind fun _ => advances_pure _
  | letIn info bindings body ihBindings ihBody =>
    intro ctx
    rw [Expr.lower]
    exact (lowerBindings_leads ihBindings 0 ctx).bind fun _ =>
      (ihBody _).bind fun _ => advances_pure _
  | caseOf info scrutinee branches ihScrutinee ihBranches =>
    intro ctx
    rw [Expr.lower]
    exact (ihScrutinee _).bind fun _ => (site_leads ctx "case" info).bind fun _ =>
      (newLabel_leads _).bind fun _ => (lowerBranches_leads ihBranches 0 ctx).bind fun _ =>
      advances_pure _
  | new info className =>
    intro ctx
    rw [Expr.lower]
    split
    · exact advances_pure _
    · exact (advances_ofExcept _).bind fun _ => advances_pure _
  | dispatch info receiver staticClass method args ihReceiver ihArgs =>
    intro ctx
    rw [Expr.lower]
    refine (lowerArgs_leads ihArgs 1 ctx).bind fun _ => .bind ?_ fun _ =>
      (advances_ofExcept _).bind fun _ => (advances_ofExcept _).bind fun _ =>
      (site_leads ctx "dispatch" info).bind fun _ => advances_pure _
    split
    · exact advances_pure _
    · exact ihReceiver _

end Lowering

section Assembling

variable (options : Options) (classes : ClassTable)

theorem prototypeWord_leads (slot : AttributeSlot) :
    Advances Supply.Leads (prototypeWord classes slot) := by
  refine (advances_ofExcept _).bind fun owner => ?_
  dsimp only
  split
  · exact advances_pure _
  · split
    · exact int_leads 0
    · split
      · exact advances_pure _
      · split
        · exact string_leads []
        · exact advances_pure _

theorem prototypeOf_leads (c : ClassEntry) : Advances Supply.Leads (prototypeOf classes c) := by
  unfold prototypeOf
  split
  · exact ((int_leads 0).map _).bind fun _ => advances_pure _
  · exact (Advances.mapM fun slot _ => (prototypeWord_leads classes slot).map _).bind fun _ =>
      advances_pure _

theorem initRoutine_leads (c : ClassEntry) :
    Advances Supply.Leads (initRoutine options classes c) :=
  .bind (.mapM fun a _ => (advances_ofExcept _).bind fun _ =>
    (a.1.init.leads _).bind fun _ => advances_pure _) fun _ => advances_pure _

theorem methodRoutine_leads (c : ClassEntry) (m : MethodDecl) :
    Advances Supply.Leads (methodRoutine options classes c m) :=
  (m.body.leads _).bind fun _ => advances_pure _

theorem assemble_leads : Advances Supply.Leads (assemble options classes) := by
  rw [assemble_eq]
  refine (Advances.mapM fun c _ => ?_).bind fun _ =>
    (Advances.mapM fun c _ => initRoutine_leads options classes c).bind fun _ =>
    (Advances.mapM fun m _ => methodRoutine_leads options classes m.1 m.2).bind fun _ =>
    advances_get.bind fun _ => advances_pure _
  exact (string_leads _).bind fun _ =>
    (prototypeOf_leads classes c).bind fun _ => advances_pure _

end Assembling

end CoolBackend
