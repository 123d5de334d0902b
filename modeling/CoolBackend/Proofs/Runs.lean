import CoolBackend.Session

/-!
How a sequence of steps that keep a state and can fail is taken apart: what the whole run returned
determines what each step returned.
-/
namespace CoolBackend

variable {ε σ α β : Type}

theorem bind_run (x : EStateM ε σ α) (f : α → EStateM ε σ β) (s : σ) :
    (x >>= f) s = match x s with
      | .ok a t => f a t
      | .error e t => .error e t := rfl

theorem discard_run (x : EStateM ε σ α) (s : σ) :
    (discard x) s = match x s with
      | .ok _ t => .ok ⟨⟩ t
      | .error e t => .error e t := rfl

theorem bind_eq_ok {x : EStateM ε σ α} {f : α → EStateM ε σ β} {s t : σ} {b : β} :
    (x >>= f) s = .ok b t ↔ ∃ a u, x s = .ok a u ∧ f a u = .ok b t := by
  rw [bind_run]
  cases x s with
  | ok a u => exact ⟨fun run => ⟨a,u,rfl,run⟩,fun ⟨_,_,same,run⟩ => by cases same; exact run⟩
  | error e u => simp

theorem ok_bind (a : α) (f : α → Except ε β) : (Except.ok a >>= f) = f a := rfl

theorem except_bind_eq_ok {x : Except ε α} {f : α → Except ε β} {b : β} :
    (x >>= f) = .ok b ↔ ∃ a, x = .ok a ∧ f a = .ok b := by
  cases x with
  | ok a => simp [ok_bind]
  | error e =>
    change Except.error e = _ ↔ _
    simp

theorem mapError_eq_ok {ε' : Type} {x : Except ε α} {f : ε → ε'} {a : α} :
    x.mapError f = .ok a ↔ x = .ok a := by
  cases x with
  | ok b =>
    change Except.ok b = _ ↔ _
    simp
  | error e =>
    change Except.error (f e) = _ ↔ _
    simp

/-- A reading gives `a`, or it stops with an error, which it does not if `sound`. -/
def Gives (sound : Prop) (x : Except ε α) (a : α) : Prop := x = .ok a ∨ ¬sound ∧ ∃ e, x = .error e

section Gives

variable {sound : Prop} {x : Except ε α} {a : α}

theorem Gives.eq_ok (gives : Gives sound x a) (holds : sound) : x = .ok a := by
  rcases gives with given | ⟨unsound,-⟩
  · exact given
  · exact absurd holds unsound

theorem Gives.only (gives : Gives sound x a) {b : α} (run : x = .ok b) : b = a := by
  rcases gives with given | ⟨-,e,stopped⟩
  · rw [given] at run
    exact (Except.ok.inj run).symm
  · rw [stopped] at run
    cases run

theorem Gives.bind {f : α → Except ε β} {b : β} (first : Gives sound x a)
    (next : Gives sound (f a) b) : Gives sound (x >>= f) b := by
  rcases first with rfl | ⟨unsound,e,rfl⟩
  · exact next
  · exact .inr ⟨unsound,e,rfl⟩

theorem Gives.map (gives : Gives sound x a) (f : α → β) : Gives sound (f <$> x) (f a) := by
  rcases gives with rfl | ⟨unsound,e,rfl⟩
  · exact .inl rfl
  · exact .inr ⟨unsound,e,rfl⟩

/-- A reading that goes through a list gives what it does for each element. -/
theorem Gives.steps {γ : Type} {G : List γ → Except ε (List β)} {m : γ → α → β}
    {read : γ → Except ε α} {f : γ → α} (nil : G [] = .ok [])
    (cons : ∀ x xs, G (x :: xs) = read x >>= fun y => G xs >>= fun ys => .ok (m x y :: ys))
    {xs : List γ} (each : ∀ x ∈ xs, Gives sound (read x) (f x)) :
    Gives sound (G xs) (xs.map fun x => m x (f x)) := by
  induction xs with
  | nil => exact .inl nil
  | cons x xs ih =>
    rw [cons]
    have later := ih fun y member => each y (.tail _ member)
    exact (each x (.head _)).bind (later.bind (.inl rfl))

theorem Gives.mapError {ε' : Type} (gives : Gives sound x a) (f : ε → ε') :
    Gives sound (x.mapError f) a := by
  rcases gives with rfl | ⟨unsound,e,rfl⟩
  · exact .inl rfl
  · exact .inr ⟨unsound,f e,rfl⟩

end Gives

@[simp] theorem pure_run (a : α) (s : σ) : (pure a : EStateM ε σ α) s = .ok a s := rfl

@[simp] theorem get_run (s : σ) : (get : EStateM ε σ σ) s = .ok s s := rfl

@[simp] theorem set_run (next s : σ) : (set next : EStateM ε σ PUnit) s = .ok ⟨⟩ next := rfl

@[simp] theorem modify_run (f : σ → σ) (s : σ) :
    (modify f : EStateM ε σ PUnit) s = .ok ⟨⟩ (f s) := rfl

@[simp] theorem modifyGet_run (f : σ → α × σ) (s : σ) :
    (modifyGet f : EStateM ε σ α) s = .ok (f s).1 (f s).2 := rfl

@[simp] theorem throw_run (e : ε) (s : σ) : (throw e : EStateM ε σ α) s = .error e s := rfl

@[simp] theorem ofExcept_run (a : α) (s : σ) :
    (ofExcept (.ok a : Except ε α) : EStateM ε σ α) s = .ok a s := rfl

theorem ofExcept_eq_ok {x : Except ε α} {s t : σ} {a : α} :
    (ofExcept x : EStateM ε σ α) s = .ok a t ↔ x = .ok a ∧ t = s := by
  cases x with
  | ok b =>
    change (pure b : EStateM ε σ α) s = _ ↔ _
    simp [eq_comm]
  | error e =>
    change (throw e : EStateM ε σ α) s = _ ↔ _
    simp

theorem map_eq_ok {x : EStateM ε σ α} {f : α → β} {s t : σ} {b : β} :
    (f <$> x) s = .ok b t ↔ ∃ a, x s = .ok a t ∧ f a = b := by
  simp only [Functor.map,EStateM.map]
  cases x s with
  | ok a u =>
    simp only [EStateM.Result.ok.injEq]
    exact ⟨fun ⟨same,state⟩ => ⟨a,⟨rfl,state⟩,same⟩,fun ⟨_,⟨rfl,state⟩,same⟩ => ⟨same,state⟩⟩
  | error e u => simp

/-- A list of steps succeeds only if each of them does, from the state that it finds. -/
theorem of_mapM_eq_ok {f : α → EStateM ε σ β} {xs : List α} {s t : σ} {ys : List β}
    (run : xs.mapM f s = .ok ys t) : ∀ x ∈ xs, ∃ u y v, f x u = .ok y v := by
  induction xs generalizing s t ys with
  | nil => exact List.forall_mem_nil _
  | cons x xs ih =>
    rw [List.mapM_cons] at run
    obtain ⟨y,u,first,run⟩ := bind_eq_ok.mp run
    obtain ⟨ys,v,rest,-⟩ := bind_eq_ok.mp run
    exact List.forall_mem_cons.mpr ⟨⟨s,y,u,first⟩,ih rest⟩

/-- A reading that goes through a list gives as many results as there are elements, each of them
from one of the elements, if it does so for the first and goes on with the rest. -/
theorem origins_of_steps {G : List α → List β → Prop} {R : α → β → Prop}
    (nil : ∀ ys, G [] ys → ys = [])
    (cons : ∀ x xs ys, G (x :: xs) ys → ∃ y rest, R x y ∧ G xs rest ∧ y :: rest = ys)
    {xs : List α} {ys : List β} (run : G xs ys) :
    ys.length = xs.length ∧ ∀ y ∈ ys, ∃ x ∈ xs, R x y := by
  induction xs generalizing ys with
  | nil =>
    obtain rfl := nil ys run
    exact ⟨rfl,List.forall_mem_nil _⟩
  | cons x xs ih =>
    obtain ⟨y,rest,here,there,rfl⟩ := cons x xs ys run
    obtain ⟨length,origin⟩ := ih there
    refine ⟨congrArg (· + 1) length,List.forall_mem_cons.mpr ⟨⟨x,.head _,here⟩,?_⟩⟩
    intro z member
    obtain ⟨source,inside,read⟩ := origin z member
    exact ⟨source,.tail _ inside,read⟩

/-- The same for a list that may have gaps, none of which is read over. -/
theorem entries_of_steps {G : List (Option α) → List β → Prop} {R : α → β → Prop}
    (nil : ∀ ys, G [] ys → ys = []) (gap : ∀ xs ys, ¬G (none :: xs) ys)
    (cons : ∀ x xs ys, G (some x :: xs) ys → ∃ y rest, R x y ∧ G xs rest ∧ y :: rest = ys)
    {xs : List (Option α)} {ys : List β} (run : G xs ys) :
    ys.length = xs.length ∧ ∀ y ∈ ys, ∃ x, some x ∈ xs ∧ R x y := by
  have steps : ∀ entry xs ys, G (entry :: xs) ys →
      ∃ y rest, (∃ x, entry = some x ∧ R x y) ∧ G xs rest ∧ y :: rest = ys := by
    intro entry xs ys run
    cases entry with
    | none => exact absurd run (gap xs ys)
    | some x =>
      obtain ⟨y,rest,here,there,same⟩ := cons x xs ys run
      exact ⟨y,rest,⟨x,rfl,here⟩,there,same⟩
  obtain ⟨length,origin⟩ := origins_of_steps nil steps run
  refine ⟨length,fun y member => ?_⟩
  obtain ⟨_,inside,x,rfl,read⟩ := origin y member
  exact ⟨x,inside,read⟩

/-- Whether a run succeeded. -/
def succeeded : EStateM.Result ε σ α → Bool
  | .ok _ _ => true
  | .error _ _ => false

def stateAfter : EStateM.Result ε σ α → σ
  | .ok _ s => s
  | .error _ s => s

theorem exists_of_succeeded {r : EStateM.Result ε σ α} (ok : succeeded r) :
    ∃ a s, r = .ok a s := by
  cases r with
  | ok a s => exact ⟨a,s,rfl⟩
  | error => cases ok

theorem eq_ok_of_succeeded {r : EStateM.Result ε σ Unit} (ok : succeeded r) :
    r = .ok () (stateAfter r) := by
  cases r with
  | ok => rfl
  | error => cases ok

def failure? : EStateM.Result ε σ α → Option ε
  | .ok _ _ => none
  | .error e _ => some e

theorem eq_error_of_failure? {r : EStateM.Result ε σ α} {e : ε} (failed : failure? r = some e) :
    r = .error e (stateAfter r) := by
  cases r with
  | ok => cases failed
  | error =>
    cases failed
    rfl

end CoolBackend
