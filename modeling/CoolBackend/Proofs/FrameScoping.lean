import CoolBackend.Proofs.Evaluation
import CoolBackend.Proofs.Lowerings
import CoolBackend.Proofs.NodeNames
import CoolBackend.Proofs.Tables
import Mathlib.Data.List.Forall2

/-!
Evaluation in the words of one frame and evaluation with a cell for every variable agree. The frame
plan gives a variable a word below those of all variables around it, and no expression needs a word
of a variable that it sees. So the words of visible variables keep the values of their cells, while
words are used again by variables that are never visible together.
-/
namespace CoolBackend

/-- Two runs on the same shared state agree: both end with related results, or both halt for one
reason, and the shared state is the same again. -/
inductive Agree {S A B α β : Type} (Q : α → β → A → B → Prop) :
    EStateM.Result Halt (S × A) α → EStateM.Result Halt (S × B) β → Prop
  | ok {v : α} {w : β} {s : S} {a : A} {b : B} (related : Q v w a b) :
      Agree Q (.ok v (s,a)) (.ok w (s,b))
  | error {h : Halt} {s : S} {a : A} {b : B} (live : h ≠ .stuck) :
      Agree Q (.error h (s,a)) (.error h (s,b))

/-- From stores in relation `P`, two evaluations agree on results and stores in relation `Q`. -/
def Related {S A B α β : Type} (P : A → B → Prop) (x : EvalM S A α) (y : EvalM S B β)
    (Q : α → β → A → B → Prop) : Prop :=
  ∀ s a b, P a b → Agree Q (x (s,a)) (y (s,b))

namespace Related

variable {S A B α β γ δ : Type} {P : A → B → Prop} {x : EvalM S A α} {y : EvalM S B β}
  {Q : α → β → A → B → Prop}

theorem bind {R : γ → δ → A → B → Prop} {f : α → EvalM S A γ} {g : β → EvalM S B δ}
    (first : Related P x y Q) (next : ∀ v w, Related (Q v w) (f v) (g w) R) :
    Related P (x >>= f) (y >>= g) R := by
  intro s a b holds
  rw [bind_run,bind_run]
  have agree := first s a b holds
  generalize x (s,a) = r, y (s,b) = r' at agree ⊢
  cases agree with
  | ok related => exact next _ _ _ _ _ related
  | error live => exact .error live

/-- The usual step: both runs go on with the same value. -/
theorem andThen {T : A → B → Prop} {R : γ → δ → A → B → Prop} {x : EvalM S A α}
    {y : EvalM S B α} {f : α → EvalM S A γ} {g : α → EvalM S B δ}
    (first : Related P x y fun v w a b => v = w ∧ T a b) (next : ∀ v, Related T (f v) (g v) R) :
    Related P (x >>= f) (y >>= g) R :=
  first.bind fun v _ s a b => by
    rintro ⟨rfl,holds⟩
    exact next v s a b holds

theorem pure {v : α} {w : β} (holds : ∀ a b, P a b → Q v w a b) :
    Related (S := S) P (pure v) (pure w) Q := by
  intro s a b related
  exact .ok (holds a b related)

theorem mono {R : α → β → A → B → Prop} (related : Related P x y Q)
    (weaker : ∀ v w a b, Q v w a b → R v w a b) : Related P x y R := by
  intro s a b holds
  have agree := related s a b holds
  generalize x (s,a) = r, y (s,b) = r' at agree ⊢
  cases agree with
  | ok related => exact .ok (weaker _ _ _ _ related)
  | error live => exact .error live

theorem shared (effect : Effect S α) :
    Related P (EvalM.shared effect) (EvalM.shared effect)
      fun v w a b => v = w ∧ P a b := by
  intro s a b holds
  simp only [EvalM.shared]
  cases effect s with
  | ok v t => exact .ok ⟨rfl,holds⟩
  | error _ t => exact .error nofun

theorem onStore {f : A → Option (α × A)} {g : B → Option (β × B)}
    (works : ∀ a b, P a b → ∃ v w a' b', f a = some (v,a') ∧ g b = some (w,b') ∧ Q v w a' b') :
    Related (S := S) P (EvalM.onStore f) (EvalM.onStore g) Q := by
  intro s a b holds
  obtain ⟨v,w,a',b',fa,gb,related⟩ := works a b holds
  simp only [EvalM.onStore,fa,gb]
  exact .ok related

end Related

/-- A name is visible in both scopes, and its word holds what its cell holds. -/
def SameValue {V : Type} (frame cells : List V) (word cell : String × Nat) : Prop :=
  word.1 = cell.1 ∧ ∃ v, frame[word.2]? = some v ∧ cells[cell.2]? = some v

/-- A frame of `n` words and the cells hold the same values in the visible variables, whose words
and cells are all different: words grow from the innermost variable outward, and cells inward. -/
structure Synced {V : Type} (n : Nat) (words cells : List (String × Nat)) (frame store : List V) :
    Prop where
  size : frame.length = n
  values : List.Forall₂ (SameValue frame store) words cells
  depths : words.Pairwise fun inner outer => inner.2 < outer.2
  ages : cells.Pairwise fun inner outer => outer.2 < inner.2

namespace Synced

variable {V : Type} {n : Nat} {words cells : List (String × Nat)} {frame store : List V}

theorem tail {word cell : String × Nat}
    (synced : Synced n (word :: words) (cell :: cells) frame store) :
    Synced n words cells frame store where
  size := synced.size
  values := (List.forall₂_cons.mp synced.values).2
  depths := (List.pairwise_cons.mp synced.depths).2
  ages := (List.pairwise_cons.mp synced.ages).2

/-- Values stay the same as long as the words and cells that hold them do. -/
theorem keep {frame' store' : List V} (values : List.Forall₂ (SameValue frame store) words cells)
    (frames : ∀ word ∈ words, ∀ v, frame[word.2]? = some v → frame'[word.2]? = some v)
    (stores : ∀ cell ∈ cells, ∀ v, store[cell.2]? = some v → store'[cell.2]? = some v) :
    List.Forall₂ (SameValue frame' store') words cells := by
  induction values with
  | nil => exact .nil
  | cons first rest ih =>
    obtain ⟨name,v,inFrame,inStore⟩ := first
    obtain ⟨frame,frames⟩ := List.forall_mem_cons.mp frames
    obtain ⟨store,stores⟩ := List.forall_mem_cons.mp stores
    exact .cons ⟨name,v,frame v inFrame,store v inStore⟩ (ih frames stores)

theorem cell_lt (values : List.Forall₂ (SameValue frame store) words cells) :
    ∀ cell ∈ cells, cell.2 < store.length := by
  induction values with
  | nil => exact List.forall_mem_nil _
  | cons first rest ih =>
    obtain ⟨_,v,_,inStore⟩ := first
    exact List.forall_mem_cons.mpr ⟨(List.getElem?_eq_some_iff.mp inStore).1,ih⟩

/-- A new variable in a word below those of all others. -/
theorem bind (synced : Synced n words cells frame store) (name : String) {depth : Nat} (v : V)
    (inside : depth < n) (below : ∀ word ∈ words, depth < word.2) :
    Synced n ((name,depth) :: words) ((name,store.length) :: cells) (frame.set depth v)
      (store ++ [v]) where
  size := by rw [List.length_set,synced.size]
  values := by
    have size := synced.size
    refine .cons ⟨rfl,v,?_,?_⟩ (keep synced.values ?_ ?_)
    · exact List.getElem?_set_self (by omega)
    · exact List.getElem?_concat_length
    · intro word member w held
      have := below word member
      rwa [List.getElem?_set_ne (by omega)]
    · intro cell member w held
      rwa [List.getElem?_append_left (cell_lt synced.values cell member)]
  depths := List.pairwise_cons.mpr ⟨below,synced.depths⟩
  ages := List.pairwise_cons.mpr ⟨cell_lt synced.values,synced.ages⟩

theorem set_head {word cell : String × Nat}
    (synced : Synced n (word :: words) (cell :: cells) frame store) (v : V) :
    Synced n (word :: words) (cell :: cells) (frame.set word.2 v) (store.set cell.2 v) where
  size := by rw [List.length_set,synced.size]
  values := by
    obtain ⟨⟨name,w,inFrame,inStore⟩,rest⟩ := List.forall₂_cons.mp synced.values
    refine .cons ⟨name,v,?_,?_⟩ (keep rest ?_ ?_)
    · exact List.getElem?_set_self (List.getElem?_eq_some_iff.mp inFrame).1
    · exact List.getElem?_set_self (List.getElem?_eq_some_iff.mp inStore).1
    · intro other member _ held
      have := (List.pairwise_cons.mp synced.depths).1 other member
      rwa [List.getElem?_set_ne (by omega)]
    · intro other member _ held
      have := (List.pairwise_cons.mp synced.ages).1 other member
      rwa [List.getElem?_set_ne (by omega)]
  depths := synced.depths
  ages := synced.ages

theorem cons {word cell : String × Nat} (synced : Synced n words cells frame store)
    (first : SameValue frame store word cell) (depth : ∀ other ∈ words, word.2 < other.2)
    (age : ∀ other ∈ cells, other.2 < cell.2) :
    Synced n (word :: words) (cell :: cells) frame store where
  size := synced.size
  values := .cons first synced.values
  depths := List.pairwise_cons.mpr ⟨depth,synced.depths⟩
  ages := List.pairwise_cons.mpr ⟨age,synced.ages⟩

/-- A name is visible in both scopes or in none; where it is, its word and its cell hold the same
value and take the same values. -/
theorem lookup (synced : Synced n words cells frame store) (name : String) :
    words.lookup name = none ∧ cells.lookup name = none ∨
      ∃ word cell, words.lookup name = some word ∧ cells.lookup name = some cell ∧
        (name,word) ∈ words ∧ (name,cell) ∈ cells ∧
        (∃ v, frame[word]? = some v ∧ store[cell]? = some v) ∧
        ∀ v, Synced n words cells (frame.set word v) (store.set cell v) := by
  induction words generalizing cells with
  | nil =>
    cases synced.values
    exact .inl ⟨rfl,rfl⟩
  | cons word words ih =>
    obtain ⟨⟩ | ⟨first,rest⟩ := synced.values
    next cell cells =>
    obtain ⟨other,depth⟩ := word
    obtain ⟨_,age⟩ := cell
    obtain ⟨rfl,held⟩ := first
    by_cases here : name = other
    · subst here
      exact .inr ⟨depth,age,List.lookup_cons_self,List.lookup_cons_self,.head _,.head _,held,
        synced.set_head⟩
    · have passed : (name == other) = false := beq_false_of_ne here
      rw [List.lookup_cons,List.lookup_cons,passed]
      refine (ih synced.tail).imp id ?_
      rintro ⟨word,cell,foundWord,foundCell,inWords,inCells,value,takes⟩
      have deeper := (List.pairwise_cons.mp synced.depths).1 _ inWords
      have older := (List.pairwise_cons.mp synced.ages).1 _ inCells
      refine ⟨word,cell,foundWord,foundCell,.tail _ inWords,.tail _ inCells,value,fun v => ?_⟩
      obtain ⟨w,inFrame,inStore⟩ := held
      refine (takes v).cons ⟨rfl,w,?_,?_⟩ (List.pairwise_cons.mp synced.depths).1
        (List.pairwise_cons.mp synced.ages).1
      · rwa [List.getElem?_set_ne (by dsimp only at deeper; omega)]
      · rwa [List.getElem?_set_ne (by dsimp only at older; omega)]

end Synced

theorem Location.word?_ofDepth (depth : Nat) : (Location.ofDepth depth).word? = some depth := by
  have offset : (Location.ofDepth depth).offset = -(4 * (depth + 1 : Nat) : Int) := by
    simp only [Location.ofDepth,wordSize]
    omega
  rw [Location.word?,offset,if_pos ⟨rfl,by omega,by simp only [wordSize]; omega⟩]
  simp only [wordSize,Option.some.injEq]
  omega

section Storages

variable {V : Type} {ctx : Context} {name : String}

theorem resolve_local {location : Location} (resolved : ctx.resolve name .localVar = .ok location) :
    ∃ depth, ctx.locals.lookup name = some depth := by
  simp only [Context.resolve] at resolved
  split at resolved
  next depth found => exact ⟨depth,found⟩
  next => cases resolved

theorem framed_bind {i depth : Nat} (planned : ctx.planned ⟨[],i⟩ = some depth) (name : String)
    {frame : List V} (inside : depth < frame.length) (v : V) :
    (framed V).bind ctx i name v frame = some (ctx.bind name depth,frame.set depth v) := by
  simp [framed,planned,writeWord,Location.word?_ofDepth,inside]

theorem framed_read {depth : Nat} (found : ctx.locals.lookup name = some depth) (frame : List V) :
    (framed V).read ctx name frame = frame[depth]? := by
  simp [framed,Context.resolve,found,Except.toOption,readWord,Location.word?_ofDepth]

theorem framed_write {depth : Nat} (found : ctx.locals.lookup name = some depth) {frame : List V}
    (inside : depth < frame.length) (v : V) :
    (framed V).write ctx name v frame = some (frame.set depth v) := by
  simp [framed,Context.resolve,found,Except.toOption,writeWord,Location.word?_ofDepth,inside]

end Storages

/-- Room for an expression of `need` words: the frame has as many, and those of visible variables
are not among them. -/
structure Room (n : Nat) (words : List (String × Nat)) (need : Nat) : Prop where
  inside : need ≤ n
  below : ∀ word ∈ words, need ≤ word.2

namespace Room

variable {n need less : Nat} {words : List (String × Nat)}

theorem mono (room : Room n words need) (fewer : less ≤ need) : Room n words less where
  inside := Nat.le_trans fewer room.inside
  below word member := Nat.le_trans fewer (room.below word member)

theorem bind (room : Room n words (need + 1)) (name : String) :
    Room n ((name,need) :: words) need where
  inside := Nat.le_of_succ_le room.inside
  below := List.forall_mem_cons.mpr
    ⟨Nat.le_refl _,fun word member => Nat.le_of_succ_le (room.below word member)⟩

end Room

section Simulation

variable {V S : Type} {n : Nat} {ctx : Context} {scope : List (String × Nat)} {name : String}

/-- Both evaluations end with the same result, and the visible variables hold the same values. -/
def Kept {α : Type} (n : Nat) (words cells : List (String × Nat)) (v w : α)
    (frame store : List V) : Prop :=
  v = w ∧ Synced n words cells frame store

theorem related_read (I : Interpretation V S) {kind : Scope} {location : Location}
    (resolved : ctx.resolve name kind = .ok location) :
    Related (Synced n ctx.locals scope) (readVariable I (framed V) ctx name kind)
      (readVariable I (lexical V) scope name kind) (Kept n ctx.locals scope) := by
  cases kind with
  | attr => exact .shared _
  | formal => exact .shared _
  | localVar =>
    obtain ⟨depth,found⟩ := resolve_local resolved
    refine .onStore fun frame store synced => ?_
    obtain ⟨absent,-⟩ | ⟨word,cell,foundWord,foundCell,-,-,⟨v,inFrame,inStore⟩,-⟩ :=
      synced.lookup name
    · rw [found] at absent
      cases absent
    · rw [framed_read foundWord,inFrame]
      exact ⟨v,v,frame,store,rfl,by simp [lexical,foundCell,inStore],rfl,synced⟩
  | unknown => cases resolved
  | other => cases resolved

theorem related_write (I : Interpretation V S) {kind : Scope} {location : Location}
    (resolved : ctx.resolve name kind = .ok location) (v : V) :
    Related (Synced n ctx.locals scope) (writeVariable I (framed V) ctx name v kind)
      (writeVariable I (lexical V) scope name v kind) (Kept n ctx.locals scope) := by
  cases kind with
  | attr => exact .shared _
  | formal => exact .shared _
  | localVar =>
    obtain ⟨depth,found⟩ := resolve_local resolved
    refine .onStore fun frame store synced => ?_
    obtain ⟨absent,-⟩ | ⟨word,cell,foundWord,foundCell,-,-,⟨w,inFrame,-⟩,takes⟩ :=
      synced.lookup name
    · rw [found] at absent
      cases absent
    · rw [framed_write foundWord (List.getElem?_eq_some_iff.mp inFrame).1]
      exact ⟨(),(),_,_,rfl,by simp [lexical,foundCell],rfl,takes v⟩
  | unknown => cases resolved
  | other => cases resolved

/-- Evaluation under a new variable, which is given up again afterwards. -/
theorem related_bind {α : Type} {i need : Nat} (planned : ctx.planned ⟨[],i⟩ = some need)
    (room : Room n ctx.locals (need + 1)) (v : V)
    {f : Context → EvalM S (List V) α} {g : List (String × Nat) → EvalM S (List V) α}
    (inner : ∀ cell, Related (Synced n ((name,need) :: ctx.locals) ((name,cell) :: scope))
      (f (ctx.bind name need)) (g ((name,cell) :: scope))
      (Kept n ((name,need) :: ctx.locals) ((name,cell) :: scope))) :
    Related (Synced n ctx.locals scope) (bindVariable (framed V) ctx i name v >>= f)
      (bindVariable (lexical V) scope i name v >>= g) (Kept n ctx.locals scope) := by
  intro s frame store synced
  have bound : need < n := room.inside
  have framedStep : bindVariable (framed V) ctx i name v (s,frame) =
      .ok (ctx.bind name need) (s,frame.set need v) := by
    simp only [bindVariable,EvalM.onStore,framed_bind planned name (synced.size ▸ bound) v]
  have lexicalStep : bindVariable (lexical V) scope i name v (s,store) =
      .ok ((name,store.length) :: scope) (s,store ++ [v]) := rfl
  rw [bind_run,bind_run,framedStep,lexicalStep]
  have bind := synced.bind name v bound room.below
  exact ((inner store.length).mono fun _ _ _ _ kept => ⟨kept.1,kept.2.tail⟩) s _ _ bind

variable (I : Interpretation V S)

/-- Evaluation with some fuel agrees on everything that can be lowered, is planned and has room. -/
def Implements (n fuel : Nat) : Prop :=
  ∀ (ctx : Context) (scope : List (String × Nat)) (e : Expr), e.Lowers ctx → ctx.Sees e.plan →
    Room n ctx.locals e.words →
    Related (Synced n ctx.locals scope) (evaluate I (framed V) fuel ctx e)
      (evaluate I (lexical V) fuel scope e) (Kept n ctx.locals scope)

variable {I} {fuel : Nat} (eval : Implements I n fuel)
include eval

theorem related_block {exprs : List Expr} {k : Nat} {codes : List Code} {s t : Supply}
    (lowered : lowerAll exprs k ctx s = .ok codes t) (seen : ctx.Sees (planAll k exprs))
    (room : Room n ctx.locals (listWords exprs)) :
    Related (Synced n ctx.locals scope)
      (evalBlock I (framed V) (evaluate I (framed V) fuel) ctx k exprs)
      (evalBlock I (lexical V) (evaluate I (lexical V) fuel) scope k exprs)
      (Kept n ctx.locals scope) := by
  induction exprs generalizing k s codes with
  | nil => exact .shared _
  | cons e rest ih =>
    obtain ⟨code,_,u,first,others,-⟩ := lowerAll_cons lowered
    obtain ⟨seenHere,seen⟩ := Context.sees_all.mp seen
    rw [listWords] at room
    have here := eval (ctx.part k) scope e ⟨s,code,u,first⟩ seenHere
      (room.mono (Nat.le_max_left _ _))
    cases rest with
    | nil => exact here
    | cons next rest =>
      exact here.andThen fun _ => ih others seen (room.mono (Nat.le_max_right _ _))

theorem related_args {args : List Expr} {k : Nat} {codes : List Code} {s t : Supply}
    (lowered : lowerArgs args k ctx s = .ok codes t) (seen : ctx.Sees (planAll k args))
    (room : Room n ctx.locals (listWords args)) :
    Related (Synced n ctx.locals scope)
      (evalArgs (framed V) (evaluate I (framed V) fuel) ctx k args)
      (evalArgs (lexical V) (evaluate I (lexical V) fuel) scope k args)
      (Kept n ctx.locals scope) := by
  induction args generalizing k t codes with
  | nil => exact .pure fun _ _ synced => ⟨rfl,synced⟩
  | cons e rest ih =>
    obtain ⟨_,code,u,others,first,-⟩ := lowerArgs_cons lowered
    obtain ⟨seenHere,seen⟩ := Context.sees_all.mp seen
    rw [listWords] at room
    refine (ih others seen (room.mono (Nat.le_max_right _ _))).andThen fun values => ?_
    refine (eval (ctx.part k) scope e ⟨u,code,t,first⟩ seenHere
      (room.mono (Nat.le_max_left _ _))).andThen fun value => ?_
    exact .pure fun _ _ synced => ⟨rfl,synced⟩

theorem related_let {body : Expr} {bindings : List (Binder × Expr)} {i : Nat} {stores : List Code}
    {inner : Context} {s t : Supply} (bound : lowerBindings bindings i ctx s = .ok (stores,inner) t)
    (lowers : body.Lowers (inner.part (i + bindings.length)))
    (seen : ctx.Sees (planBindings i bindings (body.plan.under (i + bindings.length))))
    (room : Room n ctx.locals (scopeWords bindings body.words)) :
    Related (Synced n ctx.locals scope)
      (evalLet I (framed V) (evaluate I (framed V) fuel) body i bindings ctx)
      (evalLet I (lexical V) (evaluate I (lexical V) fuel) body i bindings scope)
      (Kept n ctx.locals scope) := by
  induction bindings generalizing i ctx scope s stores with
  | nil =>
    cases bound
    exact eval _ scope body lowers (Context.sees_under.mp seen) room
  | cons binding rest ih =>
    obtain ⟨b,init⟩ := binding
    obtain ⟨value,depth,others,u,initial,planned,boundRest,-⟩ := lowerBindings_cons bound
    obtain ⟨own,seenInit,seen⟩ := Context.sees_binding.mp seen
    have words : (body.plan.under (i + (rest.length + 1))).words = body.words := body.plan_words
    obtain rfl : scopeWords rest body.words = depth := by
      rw [List.length_cons,words,planned] at own
      exact (Option.some.inj own).symm
    rw [scopeWords] at room
    have first : Related (Synced n ctx.locals scope)
        (if init.isAbsent then EvalM.shared (I.initial b.type)
          else evaluate I (framed V) fuel (ctx.part i) init : EvalM S (List V) V)
        (if init.isAbsent then EvalM.shared (I.initial b.type)
          else evaluate I (lexical V) fuel scope init : EvalM S (List V) V)
        (Kept n ctx.locals scope) := by
      split at initial
      next missing => rw [if_pos missing,if_pos missing]; exact .shared _
      next present =>
        rw [if_neg present,if_neg present]
        exact eval (ctx.part i) scope init ⟨s,value,u,initial⟩ seenInit
          (room.mono (Nat.le_max_right _ _))
    refine first.andThen fun v => ?_
    have below := room.mono (Nat.le_max_left _ _)
    have last : i + (rest.length + 1) = i + 1 + rest.length := by omega
    rw [List.length_cons,last] at lowers seen
    exact related_bind planned below v fun cell => ih boundRest lowers seen (below.bind b.name)

theorem related_branches {info : Info} {branches : List (Binder × Expr)} {i : Nat}
    {tests : List (Nat × String)} {codes : List (BranchHead × Code)} {s t : Supply} (v : V)
    (lowered : lowerBranches branches i ctx s = .ok (tests,codes) t)
    (seen : ctx.Sees (planBranches i branches)) (room : Room n ctx.locals (branchWords branches)) :
    Related (Synced n ctx.locals scope)
      (evalBranches I (framed V) (evaluate I (framed V) fuel) info v ctx i branches)
      (evalBranches I (lexical V) (evaluate I (lexical V) fuel) info v scope i branches)
      (Kept n ctx.locals scope) := by
  induction branches generalizing i s tests codes with
  | nil => exact .shared _
  | cons branch rest ih =>
    obtain ⟨b,body⟩ := branch
    obtain ⟨_,depth,code,_,_,u,-,planned,first,others,-⟩ := lowerBranches_cons lowered
    obtain ⟨own,seenBody,seen⟩ := Context.sees_branch.mp seen
    obtain rfl : body.words = depth := Option.some.inj (own.symm.trans planned)
    rw [branchWords] at room
    refine (Related.shared (I.conforms v b.type)).andThen fun taken => ?_
    cases taken with
    | false => exact ih others seen (room.mono (Nat.le_max_right _ _))
    | true =>
      have below := room.mono (Nat.le_max_left _ _)
      exact related_bind planned below v fun cell =>
        eval ((ctx.bind b.name _).part (i + 1)) _ body ⟨_,code,u,first⟩ seenBody
          (below.bind b.name)

/-- One step of evaluation, with `fuel` for what is inside. -/
theorem implements_succ : Implements I n (fuel + 1) := by
  intro ctx scope e lowers seen room
  obtain ⟨s,code,t,run⟩ := lowers
  cases e with
  | absent => exact absurd run lower_absent
  | constant info value => exact .shared _
  | ident info name kind =>
    obtain ⟨-,⟨self,-⟩ | ⟨other,source,resolved,-⟩⟩ := lower_ident run
    · simp only [evaluate,if_pos self]
      exact .shared _
    · simp only [evaluate,if_neg other]
      exact related_read I resolved
  | assign info name kind value =>
    obtain ⟨valueCode,target,lowered,resolved,-⟩ := lower_assign run
    refine (eval (ctx.part 0) scope value ⟨_,_,_,lowered⟩ (Context.sees_under.mp seen)
      room).andThen fun v => ?_
    refine (related_write I resolved v).andThen fun _ => ?_
    exact .pure fun _ _ synced => ⟨rfl,synced⟩
  | unary info op operand =>
    obtain ⟨operandCode,u,lowered,-⟩ := lower_unary run
    exact (eval (ctx.part 0) scope operand ⟨_,_,_,lowered⟩ (Context.sees_under.mp seen)
      room).andThen fun _ => .shared _
  | binary info op left right =>
    obtain ⟨leftCode,rightCode,u,v,loweredLeft,loweredRight,-⟩ := lower_binary run
    rw [Expr.words] at room
    rw [Expr.plan,Context.sees_beside,Context.sees_under,Context.sees_under] at seen
    refine (eval (ctx.part 0) scope left ⟨_,_,_,loweredLeft⟩ seen.1
      (room.mono (by omega))).andThen fun _ => ?_
    refine (eval (ctx.part 1) scope right ⟨_,_,_,loweredRight⟩ seen.2
      (room.mono (by omega))).andThen fun _ => ?_
    exact .shared _
  | cond info test yes no =>
    obtain ⟨testCode,yesCode,noCode,u,v,w,loweredTest,loweredYes,loweredNo,-⟩ := lower_cond run
    rw [Expr.words] at room
    simp only [Expr.plan,Context.sees_beside,Context.sees_under] at seen
    refine (eval (ctx.part 0) scope test ⟨_,_,_,loweredTest⟩ seen.1
      (room.mono (by omega))).andThen fun value => ?_
    refine (Related.shared (I.truth value)).andThen fun holds => ?_
    cases holds with
    | true =>
      exact eval (ctx.part 1) scope yes ⟨_,_,_,loweredYes⟩ seen.2.1 (room.mono (by omega))
    | false =>
      exact eval (ctx.part 2) scope no ⟨_,_,_,loweredNo⟩ seen.2.2 (room.mono (by omega))
  | loop info test body =>
    obtain ⟨testCode,bodyCode,u,v,loweredTest,loweredBody,-⟩ := lower_loop run
    have again := eval ctx scope (.loop info test body) ⟨_,_,_,run⟩ seen room
    rw [Expr.words] at room
    rw [Expr.plan,Context.sees_beside,Context.sees_under,Context.sees_under] at seen
    refine (eval (ctx.part 0) scope test ⟨_,_,_,loweredTest⟩ seen.1
      (room.mono (by omega))).andThen fun value => ?_
    refine (Related.shared (I.truth value)).andThen fun holds => ?_
    cases holds with
    | true =>
      exact (eval (ctx.part 1) scope body ⟨_,_,_,loweredBody⟩ seen.2
        (room.mono (by omega))).andThen fun _ => again
    | false => exact .shared _
  | block info exprs =>
    obtain ⟨codes,lowered,-⟩ := lower_block run
    exact related_block eval lowered seen room
  | letIn info bindings body =>
    obtain ⟨stores,inner,bodyCode,u,bound,lowered,-⟩ := lower_let run
    rw [← Nat.zero_add bindings.length] at lowered
    rw [Expr.plan,← Nat.zero_add bindings.length] at seen
    exact related_let eval bound ⟨_,_,_,lowered⟩ seen room
  | caseOf info scrutinee branches =>
    obtain ⟨scrutineeCode,site,tests,codes,u,v,lowered,-,branchesLowered,-⟩ := lower_case run
    rw [Expr.words] at room
    rw [Expr.plan,Context.sees_beside,Context.sees_under] at seen
    refine (eval (ctx.part 0) scope scrutinee ⟨_,_,_,lowered⟩ seen.1
      (room.mono (by omega))).andThen fun value => ?_
    refine (Related.shared (I.inspect info value)).andThen fun _ => ?_
    exact related_branches eval value branchesLowered seen.2 (room.mono (by omega))
  | new info className => exact .shared _
  | dispatch info receiver staticClass method args =>
    obtain ⟨argCodes,receiverCode,target,slot,site,u,v,loweredArgs,loweredReceiver,-⟩ :=
      lower_dispatch run
    rw [Expr.words] at room
    rw [Expr.plan,Context.sees_beside,Context.sees_under] at seen
    refine (related_args eval loweredArgs seen.2 (room.mono (by omega))).andThen fun values => ?_
    refine Related.andThen (T := Synced n ctx.locals scope) ?_ fun value => .shared _
    split at loweredReceiver
    next missing => rw [if_pos missing,if_pos missing]; exact .shared _
    next present =>
      rw [if_neg present,if_neg present]
      exact eval (ctx.part 0) scope receiver ⟨_,_,_,loweredReceiver⟩ seen.1 (room.mono (by omega))

omit eval in
theorem implements (I : Interpretation V S) (n fuel : Nat) : Implements I n fuel := by
  induction fuel with
  | zero => exact fun ctx scope e _ _ _ s frame store _ => .error nofun
  | succ fuel ih => exact implements_succ ih

omit eval in
theorem related_initializers (I : Interpretation V S) (n fuel k : Nat)
    (scope : List (String × Nat)) {attributes : List AttributeDecl}
    (lowers : ∀ x ∈ attributes.zipIdx k, x.1.init.Lowers (ctx.part x.2))
    (seen : ctx.Sees (planAll k (attributes.map (·.init))))
    (room : Room n ctx.locals (listWords (attributes.map (·.init)))) :
    Related (Synced n ctx.locals scope) (runInitializers I (framed V) fuel ctx k attributes)
      (runInitializers I (lexical V) fuel scope k attributes) (Kept n ctx.locals scope) := by
  induction attributes generalizing k with
  | nil => exact .pure fun _ _ synced => ⟨rfl,synced⟩
  | cons a rest ih =>
    rw [List.zipIdx_cons] at lowers
    obtain ⟨first,others⟩ := List.forall_mem_cons.mp lowers
    obtain ⟨seenHere,seen⟩ := Context.sees_all.mp seen
    rw [List.map_cons,listWords] at room
    have here := implements I n fuel (ctx.part k) scope a.init first seenHere
      (room.mono (by omega))
    refine here.andThen fun value => ?_
    refine (Related.shared (I.setAttribute a.name value)).andThen fun _ => ?_
    exact ih (k + 1) others seen (room.mono (by omega))

end Simulation

theorem synced_empty {V : Type} (frame : List V) : Synced frame.length [] [] frame [] :=
  ⟨rfl,.nil,.nil,.nil⟩

theorem Room.empty (n : Nat) : Room n [] n := ⟨Nat.le_refl _,List.forall_mem_nil _⟩

/-- What agreement means once the stores are given up. -/
theorem Agree.outcome {S A B α : Type} {T : A → B → Prop}
    {x : EStateM.Result Halt (S × A) α} {y : EStateM.Result Halt (S × B) α}
    (agree : Agree (fun v w a b => v = w ∧ T a b) x y) :
    outcome x = outcome y ∧ ∀ t, outcome y ≠ .error .stuck t := by
  cases agree with
  | ok related =>
    obtain ⟨rfl,-⟩ := related
    exact ⟨rfl,nofun⟩
  | error live => exact ⟨rfl,fun t same => live (by injection same)⟩

/-- Whatever the other operations do, a body that can be lowered gives the same value and leaves the
same shared state when its variables are kept in the words of one frame, at the planned depths and
with any words to begin with, as when every variable is a cell of its own and a name means its
innermost binding. No variable is ever missing. The same holds of the initializers of a class, which
share a frame. -/
theorem frame_implements_scoping {V S : Type} (I : Interpretation V S) (options : Options)
    (classes : ClassTable) (c : ClassEntry) :
    (∀ (m : MethodDecl) (routine : MethodRoutine) (supply supply' : Supply),
      methodRoutine options classes c m supply = .ok routine supply' →
      ∀ frame : List V, frame.length = routine.frameWords → ∀ (fuel : Nat) (s : S),
        let lexically := outcome (evaluate I (lexical V) fuel [] m.body (s,[]))
        outcome (evaluate I (framed V) fuel (methodContext id options classes c m) m.body
          (s,frame)) = lexically ∧ ∀ t, lexically ≠ .error .stuck t) ∧
    (∀ (routine : InitRoutine) (supply supply' : Supply),
      initRoutine options classes c supply = .ok routine supply' →
      ∀ frame : List V, frame.length = routine.frameWords → ∀ (fuel : Nat) (s : S),
        let lexically := outcome (runInitializers I (lexical V) fuel [] 0 c.initialized (s,[]))
        outcome (runInitializers I (framed V) fuel (initContext id options classes c) 0
          c.initialized (s,frame)) = lexically ∧ ∀ t, lexically ≠ .error .stuck t) := by
  constructor
  · intro m routine supply supply' run frame size fuel s
    obtain ⟨code,u,lowered,final⟩ := bind_eq_ok.mp run
    cases final
    have words : frame.length = m.body.words :=
      size.trans ((planAll_words_eq 0 [m.body]).trans (Nat.max_zero _))
    have related := implements I frame.length fuel (methodContext id options classes c m) [] m.body
      ⟨_,_,_,lowered⟩ (sees_methodPlan m) (words ▸ Room.empty _)
    exact (related s frame [] (synced_empty frame)).outcome
  · intro routine supply supply' run frame size fuel s
    obtain ⟨stores,u,lowered,final⟩ := bind_eq_ok.mp run
    cases final
    have lowers : ∀ x ∈ c.initialized.zipIdx,
        x.1.init.Lowers ((initContext id options classes c).part x.2) := by
      intro x member
      obtain ⟨u,store,v,stored⟩ := of_mapM_eq_ok lowered x member
      obtain ⟨target,w,_,stored⟩ := bind_eq_ok.mp stored
      obtain ⟨code,x,lowered,-⟩ := bind_eq_ok.mp stored
      exact ⟨w,code,x,lowered⟩
    have words : frame.length = listWords (c.initialized.map (·.init)) :=
      size.trans (planAll_words_eq 0 _)
    have related := related_initializers I frame.length fuel 0 [] lowers (sees_initPlan c)
      (words ▸ Room.empty _)
    exact (related s frame [] (synced_empty frame)).outcome

/-- Integers, with one attribute as the shared state. -/
def counting : Interpretation Int Int where
  self := pure 0
  literal
    | .int value => pure value.toInt
    | _ => pure 0
  initial _ := pure 0
  getAttribute _ := get
  setAttribute _ value := set value
  getFormal _ := pure 0
  setFormal _ _ := pure ()
  unary _ value := pure (-value)
  binary
    | .arith .add, left, right => pure (left + right)
    | .arith .sub, left, right => pure (left - right)
    | _, left, right => pure (left * right)
  truth value := pure (value ≠ 0)
  loopEnd := pure 0
  emptyBlock := pure 0
  inspect _ _ := pure ()
  conforms _ _ := pure true
  unmatched _ _ := throw ()
  new _ := pure 0
  call _ _ _ _ value _ := pure value

/-- Two variables that hold, one that is shadowed and changed, and one in an initializer whose word
is used again:
`let x <- 1, y <- let z <- 5 in z in (let x <- x + y in { a <- x; x <- x + x; }) - x`. -/
def shadowing : MethodDecl where
  name := "shadow"
  formals := []
  returnType := "Int"
  body :=
    let int (n : Int32) : Expr := .constant {} (.int n)
    let var (name : String) : Expr := .ident {} name .localVar
    let binder (name : String) : Binder := { name, type := "Int" }
    .letIn {} [(binder "x",int 1),(binder "y",.letIn {} [(binder "z",int 5)] (var "z"))]
      (.binary {} (.arith .sub)
        (.letIn {} [(binder "x",.binary {} (.arith .add) (var "x") (var "y"))]
          (.block {} [.assign {} "a" .attr (var "x"),
            .assign {} "x" .localVar (.binary {} (.arith .add) (var "x") (var "x"))]))
        (var "x"))

def counter : ClassEntry where
  name := "Counter"
  tag := 0
  parentName := ""
  attributes := [{ name := "a", type := "Int", init := shadowing.body }]

theorem shadowing_scoped :
    (∃ routine supply,
      methodRoutine {} (.ofList [counter]) counter shadowing {} = .ok routine supply ∧
      ∀ frame, frame.length = routine.frameWords →
        outcome (evaluate counting (framed Int) 9
          (methodContext id {} (.ofList [counter]) counter shadowing) shadowing.body (0,frame)) =
            .ok 11 6) ∧
    ∃ routine supply, initRoutine {} (.ofList [counter]) counter {} = .ok routine supply ∧
      ∀ frame, frame.length = routine.frameWords →
        outcome (runInitializers counting (framed Int) 9
          (initContext id {} (.ofList [counter]) counter) 0 counter.attributes (0,frame)) =
            .ok () 11 := by
  constructor
  · obtain ⟨routine,supply,run⟩ := exists_of_succeeded (by decide +kernel :
      succeeded (methodRoutine {} (.ofList [counter]) counter shadowing {}))
    refine ⟨routine,supply,run,fun frame size => ?_⟩
    exact ((frame_implements_scoping counting {} (.ofList [counter]) counter).1 shadowing routine {}
      supply run frame size 9 0).1.trans (by rfl)
  · obtain ⟨routine,supply,run⟩ := exists_of_succeeded (by decide +kernel :
      succeeded (initRoutine {} (.ofList [counter]) counter {}))
    refine ⟨routine,supply,run,fun frame size => ?_⟩
    exact ((frame_implements_scoping counting {} (.ofList [counter]) counter).2 routine {} supply run
      frame size 9 0).1.trans (by rfl)

end CoolBackend
