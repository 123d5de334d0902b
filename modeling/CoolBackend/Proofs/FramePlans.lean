import CoolBackend.Frame
import CoolBackend.Proofs.Expressions
import Mathlib.Data.List.Chain

/-!
Expressions that share a frame need as many words as the longest chain of variables of which each is
bound in the scope of the one before. The depth of a variable is below that number, and below the
depth of every variable whose scope it is bound in. The plan of a frame has these words and these
depths, and a depth for every variable.
-/
namespace CoolBackend

mutual

/-- Words alive at once while an expression is evaluated. -/
def Expr.words : Expr → Nat
  | .absent => 0
  | .constant _ _ => 0
  | .ident _ _ _ => 0
  | .new _ _ => 0
  | .assign _ _ _ value => value.words
  | .unary _ _ operand => operand.words
  | .binary _ _ left right => max left.words right.words
  | .cond _ test yes no => max test.words (max yes.words no.words)
  | .loop _ test body => max test.words body.words
  | .block _ exprs => listWords exprs
  | .letIn _ bindings body => scopeWords bindings body.words
  | .caseOf _ scrutinee branches => max scrutinee.words (branchWords branches)
  | .dispatch _ receiver _ _ args => max receiver.words (listWords args)

def listWords : List Expr → Nat
  | [] => 0
  | e :: rest => max e.words (listWords rest)

/-- Words of `let` bindings above a body that needs `inner` words. This is the depth of a binding
that stands before them. -/
def scopeWords : List (Binder × Expr) → Nat → Nat
  | [],inner => inner
  | (_,init) :: rest,inner => max (scopeWords rest inner + 1) init.words

def branchWords : List (Binder × Expr) → Nat
  | [] => 0
  | (_,body) :: rest => max (body.words + 1) (branchWords rest)

end

def letDepths : List (Binder × Expr) → Nat → List Nat
  | [], _ => []
  | _ :: rest, inner => scopeWords rest inner :: letDepths rest inner

namespace Expr

/-- The expressions directly inside one. Those of a `let` are its initializers and its body; those of
a `case` are what it examines and the bodies of its branches. -/
def children (e : Expr) : List Expr := e.optional ++ e.required

/-- The expression at a place inside another. Each number picks a child of the one before. -/
def at? : Expr → List Nat → Option Expr
  | e, [] => some e
  | e, k :: below => e.children[k]?.bind fun child => child.at? below

def depths : Expr → List Nat
  | .letIn _ bindings body => letDepths bindings body.words
  | .caseOf _ _ branches => branches.map (·.2.words)
  | _ => []

/-- Child `k` is in the scope of variable `i`: a later initializer or the body of a `let`, or the
body of the variable's own branch. -/
def Scopes : Expr → Nat → Nat → Prop
  | .letIn _ _ _, i, k => i < k
  | .caseOf _ _ _, i, k => k = i + 1
  | _, _, _ => False

theorem at?_append (e : Expr) (place below : List Nat) :
    e.at? (place ++ below) = (e.at? place).bind (·.at? below) := by
  induction place generalizing e with
  | nil => rfl
  | cons k place ih =>
    simp only [List.cons_append,at?]
    cases e.children[k]? with
    | none => rfl
    | some child => exact ih child

end Expr

section Words

variable {bindings : List (Binder × Expr)} {inner i d : Nat}

theorem words_le_listWords {exprs : List Expr} {e : Expr} (member : e ∈ exprs) :
    e.words ≤ listWords exprs := by
  induction exprs with
  | nil => cases member
  | cons first rest ih =>
    rw [listWords]
    rcases List.mem_cons.mp member with rfl | member
    · exact Nat.le_max_left _ _
    · exact Nat.le_trans (ih member) (Nat.le_max_right _ _)

theorem exists_words_eq {exprs : List Expr} (positive : 0 < listWords exprs) :
    ∃ (k : Nat) (e : Expr), exprs[k]? = some e ∧ e.words = listWords exprs := by
  induction exprs with
  | nil => cases positive
  | cons first rest ih =>
    rw [listWords] at positive ⊢
    rcases Nat.le_total (listWords rest) first.words with more | less
    · exact ⟨0,first,rfl,(Nat.max_eq_left more).symm⟩
    · rw [Nat.max_eq_right less] at positive ⊢
      obtain ⟨k,e,here,same⟩ := ih positive
      exact ⟨k + 1,e,here,same⟩

theorem inner_le_scopeWords (bindings : List (Binder × Expr)) (inner : Nat) :
    inner ≤ scopeWords bindings inner := by
  induction bindings with
  | nil => exact Nat.le_refl _
  | cons b rest ih =>
    rw [scopeWords]
    omega

theorem init_le_scopeWords {b : Binder × Expr} (member : b ∈ bindings) :
    b.2.words ≤ scopeWords bindings inner := by
  induction bindings with
  | nil => cases member
  | cons first rest ih =>
    rw [scopeWords]
    rcases List.mem_cons.mp member with rfl | member
    · exact Nat.le_max_right _ _
    · have := ih member
      omega

/-- What a `let` is made of needs no more words than the whole. -/
theorem words_le_scopeWords {body child : Expr}
    (inside : child ∈ bindings.map Prod.snd ++ [body]) :
    child.words ≤ scopeWords bindings body.words := by
  rcases List.mem_append.mp inside with inside | inside
  · obtain ⟨b,member,rfl⟩ := List.mem_map.mp inside
    exact init_le_scopeWords member
  · cases List.mem_singleton.mp inside
    exact inner_le_scopeWords bindings _

theorem letDepths_lt (member : d ∈ letDepths bindings inner) : d < scopeWords bindings inner := by
  induction bindings with
  | nil => cases member
  | cons b rest ih =>
    rw [scopeWords]
    rcases List.mem_cons.mp member with rfl | member
    · omega
    · have := ih member
      omega

theorem letDepths_decrease (bindings : List (Binder × Expr)) (inner : Nat) :
    (letDepths bindings inner).Pairwise (· > ·) := by
  induction bindings with
  | nil => exact List.Pairwise.nil
  | cons b rest ih => exact List.pairwise_cons.mpr ⟨fun d member => letDepths_lt member,ih⟩

/-- What is in the scope of a `let` variable finds room below it. -/
theorem words_le_letDepth {body child : Expr} {k : Nat}
    (depth : (letDepths bindings body.words)[i]? = some d) (later : i < k)
    (here : (bindings.map Prod.snd ++ [body])[k]? = some child) : child.words ≤ d := by
  induction bindings generalizing i k with
  | nil => cases depth
  | cons b rest ih =>
    obtain ⟨k,rfl⟩ : ∃ n, k = n + 1 := Nat.exists_eq_add_one.mpr (by omega)
    cases i with
    | zero =>
      cases depth
      exact words_le_scopeWords (List.mem_of_getElem? here)
    | succ i => exact ih depth (Nat.lt_of_succ_lt_succ later) here

theorem words_lt_branchWords {branches : List (Binder × Expr)} {b : Binder × Expr}
    (member : b ∈ branches) : b.2.words < branchWords branches := by
  induction branches with
  | nil => cases member
  | cons first rest ih =>
    rw [branchWords]
    rcases List.mem_cons.mp member with rfl | member
    · omega
    · have := ih member
      omega

theorem exists_branch_eq {branches : List (Binder × Expr)} (positive : 0 < branchWords branches) :
    ∃ (k : Nat) (b : Binder × Expr), branches[k]? = some b ∧
      b.2.words + 1 = branchWords branches := by
  induction branches with
  | nil => cases positive
  | cons first rest ih =>
    rw [branchWords] at positive ⊢
    rcases Nat.le_total (branchWords rest) (first.2.words + 1) with more | less
    · exact ⟨0,first,rfl,(Nat.max_eq_left more).symm⟩
    · rw [Nat.max_eq_right less] at positive ⊢
      obtain ⟨k,b,here,same⟩ := ih positive
      exact ⟨k + 1,b,here,same⟩

end Words

namespace Expr

variable {e child : Expr} {i k d : Nat}

/-- Where nothing is bound, the children are evaluated one after the other. -/
theorem words_eq_listWords (unbound : e.bindings = []) : e.words = listWords e.children := by
  cases e with
  | letIn info bindings body =>
    cases unbound
    simp [words,scopeWords,children,optional,required,listWords]
  | caseOf info scrutinee branches =>
    cases unbound
    simp [words,branchWords,children,optional,required,listWords]
  | _ => simp [words,children,optional,required,listWords]

theorem words_child_le (inside : child ∈ e.children) : child.words ≤ e.words := by
  cases e with
  | letIn info bindings body => exact words_le_scopeWords inside
  | caseOf info scrutinee branches =>
    rw [words]
    rcases List.mem_cons.mp inside with rfl | inside
    · exact Nat.le_max_left _ _
    · obtain ⟨b,member,rfl⟩ := List.mem_map.mp inside
      have := words_lt_branchWords member
      omega
  | _ =>
    refine Nat.le_trans (words_le_listWords inside) (Nat.le_of_eq ?_)
    exact (words_eq_listWords rfl).symm

theorem words_at?_le {place : List Nat} (found : e.at? place = some child) :
    child.words ≤ e.words := by
  induction place generalizing e with
  | nil =>
    cases found
    exact Nat.le_refl _
  | cons k place ih =>
    obtain ⟨next,here,found⟩ := Option.bind_eq_some_iff.mp found
    exact Nat.le_trans (ih found) (words_child_le (List.mem_of_getElem? here))

theorem length_depths (e : Expr) : e.depths.length = e.bindings.length := by
  cases e with
  | letIn info bindings body =>
    change (letDepths bindings body.words).length = bindings.length
    induction bindings with
    | nil => rfl
    | cons b rest ih => exact congrArg (· + 1) ih
  | caseOf info scrutinee branches => exact List.length_map _
  | _ => rfl

theorem depth_lt_words (depth : e.depths[i]? = some d) : d < e.words := by
  cases e with
  | letIn info bindings body => exact letDepths_lt (List.mem_of_getElem? depth)
  | caseOf info scrutinee branches =>
    obtain ⟨b,member,rfl⟩ := List.mem_map.mp (List.mem_of_getElem? depth)
    have := words_lt_branchWords member
    rw [words]
    omega
  | _ => cases depth

/-- What is in the scope of a variable finds room below it. -/
theorem words_le_depth (depth : e.depths[i]? = some d) (scope : e.Scopes i k)
    (here : e.children[k]? = some child) : child.words ≤ d := by
  cases e with
  | letIn info bindings body => exact words_le_letDepth depth scope here
  | caseOf info scrutinee branches =>
    cases scope
    rw [depths,List.getElem?_map,Option.map_eq_some_iff] at depth
    obtain ⟨b,at_i,rfl⟩ := depth
    have at_i' : (branches.map Prod.snd)[i]? = some child := here
    rw [List.getElem?_map,at_i] at at_i'
    cases at_i'
    exact Nat.le_refl _
  | _ => cases depth

end Expr

section Sites

variable (exprs : List Expr)

/-- The expression at a place. The first number picks one of those that share the frame. -/
def exprAt? : List Nat → Option Expr
  | [] => none
  | k :: below => exprs[k]?.bind (·.at? below)

def BindingSite.Occurs (site : BindingSite) : Prop :=
  ∃ e, exprAt? exprs site.place = some e ∧ site.index < e.bindings.length

def BindingSite.depth? (site : BindingSite) : Option Nat :=
  (exprAt? exprs site.place).bind (·.depths[site.index]?)

/-- The second variable is bound in the scope of the first. -/
inductive InScope : BindingSite → BindingSite → Prop where
  /-- A later variable of the same `let`. -/
  | later {info : Info} {bindings : List (Binder × Expr)} {body : Expr} {place : List Nat}
      {i j : Nat} (here : exprAt? exprs place = some (.letIn info bindings body)) (after : i < j) :
      InScope ⟨place,i⟩ ⟨place,j⟩
  /-- One in an expression that the first variable is visible in. -/
  | inside {e : Expr} {place : List Nat} {i k : Nat} {inner : BindingSite}
      (here : exprAt? exprs place = some e) (scope : e.Scopes i k)
      (within : place ++ [k] <+: inner.place) : InScope ⟨place,i⟩ inner

/-- Variables of which each is bound in the scope of the one before. -/
structure Nested (chain : List BindingSite) : Prop where
  occur : ∀ site ∈ chain, site.Occurs exprs
  linked : chain.IsChain (InScope exprs)

end Sites

section Bounds

variable {exprs : List Expr} {place : List Nat} {e : Expr} {site outer inner : BindingSite}
  {d d' : Nat}

theorem exprAt?_append (found : exprAt? exprs place = some e) (below : List Nat) :
    exprAt? exprs (place ++ below) = e.at? below := by
  cases place with
  | nil => cases found
  | cons k place =>
    obtain ⟨root,here,found⟩ := Option.bind_eq_some_iff.mp found
    simp only [List.cons_append,exprAt?,here,Option.bind_some,Expr.at?_append,found]

theorem exprAt?_child (found : exprAt? exprs place = some e) (k : Nat) :
    exprAt? exprs (place ++ [k]) = e.children[k]? := by
  rw [exprAt?_append found]
  simp [Expr.at?]

theorem words_exprAt?_le (found : exprAt? exprs place = some e) : e.words ≤ listWords exprs := by
  cases place with
  | nil => cases found
  | cons k place =>
    obtain ⟨root,here,found⟩ := Option.bind_eq_some_iff.mp found
    exact Nat.le_trans (Expr.words_at?_le found) (words_le_listWords (List.mem_of_getElem? here))

theorem BindingSite.depth?_eq_some :
    site.depth? exprs = some d ↔
      ∃ e, exprAt? exprs site.place = some e ∧ e.depths[site.index]? = some d :=
  Option.bind_eq_some_iff

theorem BindingSite.Occurs.exists_depth (occurs : site.Occurs exprs) :
    ∃ d, site.depth? exprs = some d ∧ d < listWords exprs := by
  obtain ⟨e,found,bound⟩ := occurs
  rw [← Expr.length_depths] at bound
  have depth := List.getElem?_eq_getElem bound
  exact ⟨_,BindingSite.depth?_eq_some.mpr ⟨e,found,depth⟩,
    Nat.lt_of_lt_of_le (Expr.depth_lt_words depth) (words_exprAt?_le found)⟩

/-- A variable lies below every variable whose scope it is bound in. -/
theorem InScope.depth_lt (scope : InScope exprs outer inner) (depth : outer.depth? exprs = some d)
    (depth' : inner.depth? exprs = some d') : d' < d := by
  obtain ⟨e,found,depth⟩ := BindingSite.depth?_eq_some.mp depth
  obtain ⟨e',found',depth'⟩ := BindingSite.depth?_eq_some.mp depth'
  cases scope with
  | later here after =>
    cases here.symm.trans found
    cases here.symm.trans found'
    obtain ⟨bound,rfl⟩ := List.getElem?_eq_some_iff.mp depth
    obtain ⟨bound',rfl⟩ := List.getElem?_eq_some_iff.mp depth'
    exact List.pairwise_iff_getElem.mp (letDepths_decrease _ _) _ _ bound bound' after
  | @inside _ place _ k _ here scope within =>
    cases here.symm.trans found
    obtain ⟨below,same⟩ := within
    rw [← same,List.append_assoc,exprAt?_append here] at found'
    obtain ⟨child,at_k,found'⟩ := Option.bind_eq_some_iff.mp found'
    calc d' < e'.words := Expr.depth_lt_words depth'
      _ ≤ child.words := Expr.words_at?_le found'
      _ ≤ d := Expr.words_le_depth depth scope at_k

/-- A chain that starts at some depth has no room for more variables than that. -/
theorem Nested.length_le_depth {chain : List BindingSite} (nested : Nested exprs (site :: chain))
    (depth : site.depth? exprs = some d) : chain.length ≤ d := by
  induction chain generalizing site d with
  | nil => exact Nat.zero_le d
  | cons next rest ih =>
    obtain ⟨-,occur⟩ := List.forall_mem_cons.mp nested.occur
    obtain ⟨scope,linked⟩ := List.isChain_cons_cons.mp nested.linked
    obtain ⟨d',depth',-⟩ := (occur next (.head _)).exists_depth
    have fewer := ih ⟨occur,linked⟩ depth'
    have lower := scope.depth_lt depth depth'
    rw [List.length_cons]
    omega

theorem Nested.length_le {chain : List BindingSite} (nested : Nested exprs chain) :
    chain.length ≤ listWords exprs := by
  cases chain with
  | nil => exact Nat.zero_le _
  | cons site rest =>
    obtain ⟨d,depth,bound⟩ := (nested.occur site (.head _)).exists_depth
    have fewer := nested.length_le_depth depth
    rw [List.length_cons]
    omega

end Bounds

/-- There is a chain of `n` variables, all at sites of some kind. -/
def Reaches (exprs : List Expr) (n : Nat) (Q : BindingSite → Prop) : Prop :=
  ∃ chain, Nested exprs chain ∧ (∀ site ∈ chain, Q site) ∧ chain.length = n

namespace Reaches

variable {exprs : List Expr} {n : Nat} {P Q : BindingSite → Prop} {place : List Nat} {e : Expr}

theorem zero : Reaches exprs 0 Q :=
  ⟨[],⟨List.forall_mem_nil _,.nil⟩,List.forall_mem_nil _,rfl⟩

theorem mono (reaches : Reaches exprs n P) (weaker : ∀ site, P site → Q site) :
    Reaches exprs n Q := by
  obtain ⟨chain,nested,all,length⟩ := reaches
  exact ⟨chain,nested,fun site member => weaker site (all site member),length⟩

/-- A variable goes in front of a chain that lies in its scope. -/
theorem cons (site : BindingSite) (occurs : site.Occurs exprs) (reaches : Reaches exprs n P)
    (scope : ∀ inner, P inner → InScope exprs site inner) (here : Q site)
    (weaker : ∀ site, P site → Q site) : Reaches exprs (n + 1) Q := by
  obtain ⟨chain,nested,all,length⟩ := reaches
  refine ⟨site :: chain,⟨List.forall_mem_cons.mpr ⟨occurs,nested.occur⟩,?_⟩,?_,?_⟩
  · refine nested.linked.cons fun inner first => ?_
    exact scope inner (all inner (List.mem_of_mem_head? first))
  · exact List.forall_mem_cons.mpr ⟨here,fun site member => weaker site (all site member)⟩
  · exact congrArg (· + 1) length

/-- All words of an expression are needed inside it, wherever it stands. -/
def Full (exprs : List Expr) (e : Expr) : Prop :=
  ∀ place, exprAt? exprs place = some e → Reaches exprs e.words (place <+: ·.place)

theorem child {k : Nat} {child : Expr} (found : exprAt? exprs place = some e)
    (full : ∀ child ∈ e.children, Full exprs child) (here : e.children[k]? = some child) :
    Reaches exprs child.words (place ++ [k] <+: ·.place) :=
  full child (List.mem_of_getElem? here) _ ((exprAt?_child found k).trans here)

/-- Where nothing is bound, a child needs all words. -/
theorem unbound (found : exprAt? exprs place = some e)
    (full : ∀ child ∈ e.children, Full exprs child) (none : e.bindings = []) :
    Reaches exprs e.words (place <+: ·.place) := by
  rw [Expr.words_eq_listWords none]
  rcases Nat.eq_zero_or_pos (listWords e.children) with empty | positive
  · rw [empty]
    exact zero
  · obtain ⟨k,child,here,same⟩ := exists_words_eq positive
    rw [← same]
    exact (Reaches.child found full here).mono fun site within =>
      (List.prefix_append place [k]).trans within

/-- A site that belongs to variable `i` of the `let` at a place, or comes after it. -/
def From (place : List Nat) (i : Nat) (site : BindingSite) : Prop :=
  (∃ j, i ≤ j ∧ site = ⟨place,j⟩) ∨ ∃ k, i ≤ k ∧ place ++ [k] <+: site.place

theorem From.earlier {i j : Nat} {site : BindingSite} (after : From place j site) (le : i ≤ j) :
    From place i site := by
  rcases after with ⟨l,bound,same⟩ | ⟨k,bound,within⟩
  · exact .inl ⟨l,by omega,same⟩
  · exact .inr ⟨k,by omega,within⟩

/-- The variables of a `let` from some point on, and what comes with them. -/
theorem letIn {info : Info} (front : List (Binder × Expr)) {rest : List (Binder × Expr)}
    {body : Expr} (found : exprAt? exprs place = some (.letIn info (front ++ rest) body))
    (full : ∀ child ∈ (Expr.letIn info (front ++ rest) body).children, Full exprs child) :
    Reaches exprs (scopeWords rest body.words) (From place front.length) := by
  -- The chain is built from the body back, so the variables in front stay as they are.
  induction rest generalizing front with
  | nil =>
    have here : (Expr.letIn info (front ++ []) body).children[front.length]? = some body := by
      simp [Expr.children,Expr.optional,Expr.required]
    exact (Reaches.child found full here).mono fun site within =>
      .inr ⟨front.length,Nat.le_refl _,within⟩
  | cons b rest ih =>
    obtain ⟨b,init⟩ := b
    rw [scopeWords]
    rcases Nat.le_total init.words (scopeWords rest body.words + 1) with less | more
    · rw [Nat.max_eq_left less]
      have split : front ++ (b,init) :: rest = front ++ [(b,init)] ++ rest := by simp
      have later := ih (front ++ [(b,init)]) (split ▸ found) (split ▸ full)
      rw [List.length_append,List.length_singleton] at later
      refine cons ⟨place,front.length⟩ ⟨_,found,?_⟩ later ?_ ?_ ?_
      · simp [Expr.bindings]
      · rintro inner (⟨j,after,rfl⟩ | ⟨k,after,within⟩)
        · exact .later found after
        · exact .inside found after within
      · exact .inl ⟨front.length,Nat.le_refl _,rfl⟩
      · exact fun site after => after.earlier (Nat.le_succ _)
    · rw [Nat.max_eq_right more]
      have here : (Expr.letIn info (front ++ (b,init) :: rest) body).children[front.length]? =
          some init := by
        simp [Expr.children,Expr.optional,Expr.required]
      exact (Reaches.child found full here).mono fun site within =>
        .inr ⟨front.length,Nat.le_refl _,within⟩

theorem caseOf {info : Info} {scrutinee : Expr} {branches : List (Binder × Expr)}
    (found : exprAt? exprs place = some (.caseOf info scrutinee branches))
    (full : ∀ child ∈ (Expr.caseOf info scrutinee branches).children, Full exprs child) :
    Reaches exprs (Expr.caseOf info scrutinee branches).words (place <+: ·.place) := by
  have inside (k : Nat) (site : BindingSite) (within : place ++ [k] <+: site.place) :
      place <+: site.place := (List.prefix_append place [k]).trans within
  rw [Expr.words]
  rcases Nat.lt_or_ge scrutinee.words (branchWords branches) with more | less
  · rw [Nat.max_eq_right (Nat.le_of_lt more)]
    obtain ⟨i,b,at_i,same⟩ := exists_branch_eq (Nat.zero_lt_of_lt more)
    have here : (Expr.caseOf info scrutinee branches).children[i + 1]? = some b.2 := by
      simp [Expr.children,Expr.optional,Expr.required,at_i]
    rw [← same]
    refine cons ⟨place,i⟩ ⟨_,found,(List.getElem?_eq_some_iff.mp at_i).1⟩
      (Reaches.child found full here) ?_ List.prefix_rfl (inside _)
    exact fun inner within => .inside found rfl within
  · rw [Nat.max_eq_left less]
    exact (Reaches.child (k := 0) found full rfl).mono (inside 0)

theorem full (exprs : List Expr) (e : Expr) : Full exprs e := by
  induction e using Expr.children_induct with
  | step e ih =>
    intro place found
    cases e with
    | letIn info bindings body =>
      refine (letIn [] found ih).mono fun site after => ?_
      rcases after with ⟨_,_,rfl⟩ | ⟨k,_,within⟩
      · exact List.prefix_rfl
      · exact (List.prefix_append place [k]).trans within
    | caseOf info scrutinee branches => exact caseOf found ih
    | _ => exact unbound found ih rfl

end Reaches

/-- No plan with fewer words keeps nested variables apart. -/
theorem exists_nested (exprs : List Expr) :
    ∃ chain, Nested exprs chain ∧ chain.length = listWords exprs := by
  rcases Nat.eq_zero_or_pos (listWords exprs) with empty | positive
  · exact ⟨[],⟨List.forall_mem_nil _,.nil⟩,empty.symm⟩
  · obtain ⟨k,e,here,same⟩ := exists_words_eq positive
    obtain ⟨chain,nested,-,length⟩ := Reaches.full exprs e [k] (by simp [exprAt?,here,Expr.at?])
    exact ⟨chain,nested,length.trans same⟩

end CoolBackend
