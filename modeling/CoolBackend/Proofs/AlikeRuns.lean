import CoolBackend.Proofs.Runs
import Mathlib.Data.List.Forall2

/-!
Two runs that go through the same states. Their results are related as the results of their steps
are, and if one of them fails, the other does, with a related error.
-/
namespace CoolBackend

variable {ε σ α β γ δ : Type}

/-- Two runs come out alike: with results in `R`, or with errors in `E`. -/
def Alike (E : ε → ε → Prop) (R : α → β → Prop) :
    EStateM.Result ε σ α → EStateM.Result ε σ β → Prop
  | .ok a s, .ok b t => R a b ∧ s = t
  | .error e s, .error f t => E e f ∧ s = t
  | _, _ => False

def Tracks (E : ε → ε → Prop) (R : α → β → Prop) (x : EStateM ε σ α) (y : EStateM ε σ β) : Prop :=
  ∀ s, Alike E R (x s) (y s)

namespace Tracks

variable {E : ε → ε → Prop} {R : α → β → Prop} {T : γ → δ → Prop}

theorem refl [Std.Refl E] (x : EStateM ε σ α) : Tracks E Eq x x := by
  intro s
  cases x s with
  | ok a t => exact ⟨rfl,rfl⟩
  | error e t => exact ⟨Std.Refl.refl e,rfl⟩

theorem mono {S : α → β → Prop} {x : EStateM ε σ α} {y : EStateM ε σ β} (alike : Tracks E R x y)
    (weaker : ∀ a b, R a b → S a b) : Tracks E S x y := by
  intro s
  have here := alike s
  revert here
  cases x s with
  | ok a t =>
    cases y s with
    | ok b u => exact fun both => ⟨weaker a b both.1,both.2⟩
    | error => exact id
  | error e t => cases y s <;> exact id

theorem pure {a : α} {b : β} (related : R a b) :
    Tracks E R (pure a : EStateM ε σ α) (pure b) := fun _ => ⟨related,rfl⟩

theorem throw {e f : ε} (same : E e f) : Tracks E R (throw e : EStateM ε σ α) (throw f) :=
  fun _ => ⟨same,rfl⟩

theorem bind {x : EStateM ε σ α} {y : EStateM ε σ β} {f : α → EStateM ε σ γ}
    {g : β → EStateM ε σ δ} (first : Tracks E R x y)
    (next : ∀ a b, R a b → Tracks E T (f a) (g b)) : Tracks E T (x >>= f) (y >>= g) := by
  intro s
  have here := first s
  rw [bind_run,bind_run]
  revert here
  cases x s with
  | ok a u =>
    cases y s with
    | ok b v =>
      rintro ⟨related,rfl⟩
      exact next a b related u
    | error => exact False.elim
  | error e u =>
    cases y s with
    | ok => exact False.elim
    | error => exact id

/-- The same for runs whose results are equal. -/
theorem andThen {x y : EStateM ε σ α} {f : α → EStateM ε σ γ} {g : α → EStateM ε σ δ}
    (first : Tracks E Eq x y) (next : ∀ a, Tracks E T (f a) (g a)) :
    Tracks E T (x >>= f) (y >>= g) :=
  first.bind fun a _ same => same ▸ next a

/-- A run that cannot fail tracks itself, whatever the errors. -/
theorem of_runs {x : EStateM ε σ α} (runs : ∀ s, ∃ a t, x s = .ok a t) : Tracks E Eq x x := by
  intro s
  obtain ⟨a,t,run⟩ := runs s
  rw [run]
  exact ⟨rfl,rfl⟩

/-- What may fail gives what it gives. -/
theorem except (x : Except ε α) (errors : ∀ e, x = .error e → E e e) :
    Tracks E (fun a b => x = .ok a ∧ b = a) (ofExcept x : EStateM ε σ α) (ofExcept x) := by
  cases x with
  | ok a => exact pure ⟨rfl,rfl⟩
  | error e => exact throw (errors e rfl)

theorem mapM {f : α → EStateM ε σ γ} {g : α → EStateM ε σ δ} {xs : List α}
    (each : ∀ x ∈ xs, Tracks E T (f x) (g x)) :
    Tracks E (List.Forall₂ T) (xs.mapM f) (xs.mapM g) := by
  induction xs with
  | nil => exact pure .nil
  | cons x xs ih =>
    obtain ⟨here,others⟩ := List.forall_mem_cons.mp each
    rw [List.mapM_cons,List.mapM_cons]
    refine here.bind fun _ _ first => (ih others).bind fun _ _ rest => ?_
    exact pure (.cons first rest)

/-- The same for steps whose results are equal. -/
theorem mapM_eq {f g : α → EStateM ε σ γ} {xs : List α}
    (each : ∀ x ∈ xs, Tracks E Eq (f x) (g x)) : Tracks E Eq (xs.mapM f) (xs.mapM g) :=
  (mapM each).mono fun _ _ same => List.forall₂_eq_eq_eq ▸ same

end Tracks

end CoolBackend
