import CoolBackend.Proofs.FramePlans
import CoolBackend.Proofs.Runs

/-!
The plan of a frame holds a depth for every variable that is bound in it, and no others. As lowering
goes into the parts of an expression, it sees the plan of the frame as the plans of these parts.
-/
namespace CoolBackend

section Words

theorem planAll_words {exprs : List Expr} (each : ∀ e ∈ exprs, e.plan.words = e.words) (k : Nat) :
    (planAll k exprs).words = listWords exprs := by
  induction exprs generalizing k with
  | nil => rfl
  | cons e rest ih =>
    obtain ⟨here,each⟩ := List.forall_mem_cons.mp each
    exact congrArg₂ max here (ih each (k + 1))

theorem planBindings_words {bindings : List (Binder × Expr)} {inner : FramePlan}
    (each : ∀ b ∈ bindings, b.2.plan.words = b.2.words) (i : Nat) :
    (planBindings i bindings inner).words = scopeWords bindings inner.words := by
  induction bindings generalizing i with
  | nil => rfl
  | cons b rest ih =>
    obtain ⟨here,each⟩ := List.forall_mem_cons.mp each
    exact congrArg₂ max (congrArg (· + 1) (ih each (i + 1))) here

theorem planBranches_words {branches : List (Binder × Expr)}
    (each : ∀ b ∈ branches, b.2.plan.words = b.2.words) (i : Nat) :
    (planBranches i branches).words = branchWords branches := by
  induction branches generalizing i with
  | nil => rfl
  | cons b rest ih =>
    obtain ⟨here,each⟩ := List.forall_mem_cons.mp each
    exact congrArg₂ max (congrArg (· + 1) here) (ih each (i + 1))

theorem Expr.plan_words (e : Expr) : e.plan.words = e.words := by
  induction e using Expr.induct with
  | absent => rfl
  | constant info value => rfl
  | ident info name scope => rfl
  | new info className => rfl
  | assign info name scope value ih => exact ih
  | unary info op operand ih => exact ih
  | binary info op left right ihLeft ihRight => exact congrArg₂ max ihLeft ihRight
  | cond info test yes no ihTest ihYes ihNo =>
    exact congrArg₂ max ihTest (congrArg₂ max ihYes ihNo)
  | loop info test body ihTest ihBody => exact congrArg₂ max ihTest ihBody
  | block info exprs ih => exact planAll_words ih 0
  | letIn info bindings body ihBindings ihBody =>
    refine (planBindings_words ihBindings 0).trans ?_
    exact congrArg (scopeWords bindings) ihBody
  | caseOf info scrutinee branches ihScrutinee ihBranches =>
    exact congrArg₂ max ihScrutinee (planBranches_words ihBranches 0)
  | dispatch info receiver staticClass method args ihReceiver ihArgs =>
    exact congrArg₂ max ihReceiver (planAll_words ihArgs 1)

theorem planAll_words_eq (k : Nat) (exprs : List Expr) :
    (planAll k exprs).words = listWords exprs :=
  planAll_words (fun e _ => e.plan_words) k

end Words

section Entries

variable {x : BindingSite × Nat} {site : BindingSite} {d : Nat}

theorem FramePlan.mem_under {plan : FramePlan} {k : Nat} :
    (site,d) ∈ (plan.under k).depths ↔
      ∃ below, site.place = k :: below ∧ (⟨below,site.index⟩,d) ∈ plan.depths := by
  simp only [under,List.mem_map]
  constructor
  · rintro ⟨⟨inner,_⟩,member,same⟩
    cases same
    exact ⟨inner.place,rfl,member⟩
  · rintro ⟨below,place,member⟩
    refine ⟨_,member,?_⟩
    cases site
    cases place
    rfl

theorem exists_getElem?_cons {α : Type} {P : Nat → α → Prop} {first : α} {rest : List α} :
    (∃ j a, (first :: rest)[j]? = some a ∧ P j a) ↔
      P 0 first ∨ ∃ j a, rest[j]? = some a ∧ P (j + 1) a := by
  constructor
  · rintro ⟨j,a,here,holds⟩
    cases j with
    | zero =>
      cases here
      exact .inl holds
    | succ j => exact .inr ⟨j,a,here,holds⟩
  · rintro (holds | ⟨j,a,here,holds⟩)
    · exact ⟨0,first,rfl,holds⟩
    · exact ⟨j + 1,a,here,holds⟩

theorem exists_getElem?_snoc {α : Type} {P : Nat → α → Prop} {xs : List α} {last : α} :
    (∃ j a, (xs ++ [last])[j]? = some a ∧ P j a) ↔
      (∃ j a, xs[j]? = some a ∧ P j a) ∨ P xs.length last := by
  induction xs generalizing P with
  | nil => simp [exists_getElem?_cons]
  | cons x rest ih =>
    rw [List.cons_append,exists_getElem?_cons,exists_getElem?_cons,ih,or_assoc]
    rfl

theorem exists_getElem?_map {α β : Type} {P : Nat → β → Prop} {f : α → β} {xs : List α} :
    (∃ j b, (xs.map f)[j]? = some b ∧ P j b) ↔ ∃ j a, xs[j]? = some a ∧ P j (f a) := by
  simp

theorem mem_planAll {k : Nat} {exprs : List Expr} :
    x ∈ (planAll k exprs).depths ↔
      ∃ (j : Nat) (e : Expr), exprs[j]? = some e ∧ x ∈ (e.plan.under (k + j)).depths := by
  induction exprs generalizing k with
  | nil => simp [planAll]
  | cons e rest ih =>
    rw [planAll,FramePlan.beside,List.mem_append,ih,or_comm,exists_getElem?_cons]
    simp only [Nat.add_zero,Nat.add_assoc,Nat.add_comm 1]

theorem mem_planBindings {i : Nat} {bindings : List (Binder × Expr)} {inner : FramePlan} :
    x ∈ (planBindings i bindings inner).depths ↔
      (∃ (j d : Nat), (letDepths bindings inner.words)[j]? = some d ∧ x = (⟨[],i + j⟩,d)) ∨
      (∃ (j : Nat) (b : Binder × Expr),
        bindings[j]? = some b ∧ x ∈ (b.2.plan.under (i + j)).depths) ∨
      x ∈ inner.depths := by
  induction bindings generalizing i with
  | nil => simp [planBindings,letDepths]
  | cons b rest ih =>
    have own : (planBindings (i + 1) rest inner).words = scopeWords rest inner.words :=
      planBindings_words (fun b _ => b.2.plan_words) (i + 1)
    rw [planBindings,FramePlan.beside,FramePlan.bind,List.mem_append,List.mem_cons,ih,letDepths,
      exists_getElem?_cons,exists_getElem?_cons,own]
    simp only [Nat.add_zero,Nat.add_assoc,Nat.add_comm 1,or_assoc]
    exact or_left_comm.trans (or_congr_right or_left_comm)

theorem mem_planBranches {i : Nat} {branches : List (Binder × Expr)} :
    x ∈ (planBranches i branches).depths ↔
      (∃ (j d : Nat), (branches.map (·.2.words))[j]? = some d ∧ x = (⟨[],i + j⟩,d)) ∨
      ∃ (j : Nat) (b : Binder × Expr),
        branches[j]? = some b ∧ x ∈ (b.2.plan.under (i + (j + 1))).depths := by
  induction branches generalizing i with
  | nil => simp [planBranches]
  | cons b rest ih =>
    have own : (b.2.plan.under (i + 1)).words = b.2.words := b.2.plan_words
    rw [planBranches,FramePlan.beside,FramePlan.bind,List.mem_append,List.mem_cons,ih,List.map_cons,
      exists_getElem?_cons,exists_getElem?_cons,own]
    simp only [Nat.add_zero,Nat.zero_add,Nat.add_assoc,Nat.add_comm 1]
    rw [or_comm,or_or_or_comm]

namespace Expr

/-- Where nothing is bound, the parts are planned one after the other. -/
theorem plan_eq_planAll {e : Expr} (unbound : e.bindings = []) : e.plan = planAll 0 e.children := by
  cases e with
  | letIn info bindings body =>
    cases unbound
    simp [plan,planBindings,planAll,children,optional,required,FramePlan.beside]
  | caseOf info scrutinee branches =>
    cases unbound
    simp [plan,planBranches,planAll,children,optional,required]
  | _ => simp [plan,planAll,children,optional,required,FramePlan.beside]

/-- The plan of an expression: the depths of its own variables, and the plans of its parts. -/
theorem mem_plan {e : Expr} : x ∈ e.plan.depths ↔
    (∃ (i d : Nat), e.depths[i]? = some d ∧ x = (⟨[],i⟩,d)) ∨
      ∃ (k : Nat) (child : Expr),
        e.children[k]? = some child ∧ x ∈ (child.plan.under k).depths := by
  cases e with
  | letIn info bindings body =>
    have own : (body.plan.under bindings.length).words = body.words := body.plan_words
    rw [plan,mem_planBindings,own,children,optional,required,exists_getElem?_snoc,
      exists_getElem?_map,List.length_map]
    simp only [Nat.zero_add,depths]
  | caseOf info scrutinee branches =>
    have parts : (caseOf info scrutinee branches).children = scrutinee :: branches.map Prod.snd :=
      rfl
    rw [plan,FramePlan.beside,List.mem_append,mem_planBranches,parts,exists_getElem?_cons,
      exists_getElem?_map (f := Prod.snd),or_assoc]
    simp only [Nat.zero_add,depths]
    exact or_congr_right or_comm
  | _ =>
    rw [plan_eq_planAll rfl,mem_planAll]
    simp [depths]

/-- The depth that an expression gives the variable at a site inside it. -/
def depthAt? (e : Expr) (site : BindingSite) : Option Nat :=
  (e.at? site.place).bind (·.depths[site.index]?)

theorem mem_plan_iff {e : Expr} : (site,d) ∈ e.plan.depths ↔ e.depthAt? site = some d := by
  induction e using Expr.children_induct generalizing site with
  | step e ih =>
    obtain ⟨place,index⟩ := site
    rw [mem_plan,depthAt?]
    cases place with
    | nil =>
      rw [at?,Option.bind_some]
      constructor
      · rintro (⟨i,_,depth,same⟩ | ⟨k,child,-,inside⟩)
        · cases same
          exact depth
        · obtain ⟨_,place,-⟩ := FramePlan.mem_under.mp inside
          cases place
      · exact fun depth => .inl ⟨index,d,depth,rfl⟩
    | cons k below =>
      rw [at?,Option.bind_assoc,Option.bind_eq_some_iff]
      constructor
      · rintro (⟨i,_,-,same⟩ | ⟨_,child,here,inside⟩)
        · cases same
        · obtain ⟨_,place,inside⟩ := FramePlan.mem_under.mp inside
          cases place
          exact ⟨child,here,(ih child (List.mem_of_getElem? here)).mp inside⟩
      · rintro ⟨child,here,depth⟩
        refine .inr ⟨k,child,here,FramePlan.mem_under.mpr ⟨below,rfl,?_⟩⟩
        exact (ih child (List.mem_of_getElem? here)).mpr depth

end Expr

/-- The plan of a frame has the depths of the variables that are bound in it, and no others. -/
theorem mem_planAll_iff {exprs : List Expr} :
    (site,d) ∈ (planAll 0 exprs).depths ↔ site.depth? exprs = some d := by
  obtain ⟨place,index⟩ := site
  rw [mem_planAll,BindingSite.depth?]
  cases place with
  | nil =>
    constructor
    · rintro ⟨k,e,-,inside⟩
      obtain ⟨_,place,-⟩ := FramePlan.mem_under.mp inside
      cases place
    · exact nofun
  | cons k below =>
    rw [exprAt?,Option.bind_assoc,Option.bind_eq_some_iff]
    constructor
    · rintro ⟨j,e,here,inside⟩
      obtain ⟨_,place,inside⟩ := FramePlan.mem_under.mp inside
      rw [Nat.zero_add] at place
      cases place
      exact ⟨e,here,Expr.mem_plan_iff.mp inside⟩
    · rintro ⟨e,here,depth⟩
      refine ⟨k,e,here,FramePlan.mem_under.mpr ⟨below,by rw [Nat.zero_add],?_⟩⟩
      exact Expr.mem_plan_iff.mpr depth

end Entries

section Lookups

variable {Node : Type} [DecidableEq Node] {node : BindingSite → Node} {plan : FramePlan}
  {site : BindingSite} {d : Nat}

/-- Places of one node are planned at one depth. -/
def FramePlan.Steady (plan : FramePlan) (node : BindingSite → Node) : Prop :=
  ∀ x ∈ plan.depths, ∀ y ∈ plan.depths, node x.1 = node y.1 → x.2 = y.2

instance (plan : FramePlan) (node : BindingSite → Node) : Decidable (plan.Steady node) :=
  inferInstanceAs
    (Decidable (∀ x ∈ plan.depths, ∀ y ∈ plan.depths, node x.1 = node y.1 → x.2 = y.2))

theorem FramePlan.Steady.depth?_eq (steady : plan.Steady node) (planned : (site,d) ∈ plan.depths) :
    plan.depth? node site = some d := by
  rw [depth?]
  cases found : plan.depths.find? (node ·.1 = node site) with
  | none =>
    have passed := List.find?_eq_none.mp found _ planned
    exact absurd (decide_eq_true rfl) passed
  | some x =>
    have same : node x.1 = node site := by simpa using List.find?_some found
    exact congrArg some (steady x (List.mem_of_find?_eq_some found) _ planned same)

theorem FramePlan.mem_of_depth? (found : plan.depth? node site = some d) :
    ∃ other, (other,d) ∈ plan.depths ∧ node other = node site := by
  obtain ⟨x,first,rfl⟩ := Option.map_eq_some_iff.mp found
  exact ⟨x.1,List.mem_of_find?_eq_some first,by simpa using List.find?_some first⟩

theorem steady_planAll (exprs : List Expr) : (planAll 0 exprs).Steady id := by
  rintro ⟨site,d⟩ here ⟨other,d'⟩ there (rfl : site = other)
  rw [mem_planAll_iff] at here there
  exact Option.some.inj (here.symm.trans there)

/-- In a tree, the plan of a frame gives each variable its own depth. -/
theorem depth?_planAll (exprs : List Expr) (site : BindingSite) :
    (planAll 0 exprs).depth? id site = site.depth? exprs := by
  ext d
  constructor
  · intro found
    obtain ⟨other,planned,rfl⟩ := FramePlan.mem_of_depth? found
    exact mem_planAll_iff.mp planned
  · exact fun depth => (steady_planAll exprs).depth?_eq (mem_planAll_iff.mpr depth)

end Lookups

namespace FramePlan

variable {P : BindingSite → Nat → Prop} {plan other : FramePlan} {k i : Nat}

def All (P : BindingSite → Nat → Prop) (plan : FramePlan) : Prop := ∀ x ∈ plan.depths, P x.1 x.2

theorem all_under : (plan.under k).All P ↔ plan.All fun site => P (site.under k) := by
  simp only [All,under,List.forall_mem_map]
  rfl

theorem all_beside : (plan.beside other).All P ↔ plan.All P ∧ other.All P := by
  simp only [All,beside,List.forall_mem_append]
  exact and_comm

theorem all_bind : (plan.bind i).All P ↔ P ⟨[],i⟩ plan.words ∧ plan.All P :=
  List.forall_mem_cons

theorem all_planAll {e : Expr} {rest : List Expr} : (planAll k (e :: rest)).All P ↔
    (e.plan.All fun site => P (site.under k)) ∧ (planAll (k + 1) rest).All P := by
  rw [planAll,all_beside,all_under]

theorem All.of_getElem? {exprs : List Expr} {e : Expr} {j : Nat}
    (all : (planAll k exprs).All P) (here : exprs[j]? = some e) :
    e.plan.All fun site => P (site.under (k + j)) :=
  all_under.mp fun x member => all x (mem_planAll.mpr ⟨j,e,here,member⟩)

theorem all_planBindings {b : Binder} {init : Expr} {rest : List (Binder × Expr)} :
    (planBindings i ((b,init) :: rest) plan).All P ↔
      P ⟨[],i⟩ (scopeWords rest plan.words) ∧ (init.plan.All fun site => P (site.under i)) ∧
        (planBindings (i + 1) rest plan).All P := by
  rw [planBindings,all_beside,all_bind,all_under,
    planBindings_words (fun b _ => b.2.plan_words) (i + 1),and_assoc,
    and_comm (a := (planBindings (i + 1) rest plan).All P)]

theorem all_planBranches {b : Binder} {body : Expr} {rest : List (Binder × Expr)} :
    (planBranches i ((b,body) :: rest)).All P ↔
      P ⟨[],i⟩ body.words ∧ (body.plan.All fun site => P (site.under (i + 1))) ∧
        (planBranches (i + 1) rest).All P := by
  have own : (body.plan.under (i + 1)).words = body.words := body.plan_words
  rw [planBranches,all_beside,all_bind,all_under,own,and_assoc]

end FramePlan

namespace Context

variable {ctx : Context} {plan other : FramePlan} {k i : Nat}

/-- The surroundings of an expression that has a frame to itself. -/
def ofExpr (classes : ClassTable) (current : ClassEntry) (e : Expr) : Context :=
  { classes, current, planned := e.plan.depth? id }

def Sees (ctx : Context) (plan : FramePlan) : Prop :=
  plan.All fun site d => ctx.planned site = some d

theorem sees_under : ctx.Sees (plan.under k) ↔ (ctx.part k).Sees plan := FramePlan.all_under

theorem sees_beside : ctx.Sees (plan.beside other) ↔ ctx.Sees plan ∧ ctx.Sees other :=
  FramePlan.all_beside

theorem sees_all {e : Expr} {rest : List Expr} : ctx.Sees (planAll k (e :: rest)) ↔
    (ctx.part k).Sees e.plan ∧ ctx.Sees (planAll (k + 1) rest) := FramePlan.all_planAll

theorem Sees.of_getElem? {exprs : List Expr} {e : Expr} {j : Nat}
    (seen : ctx.Sees (planAll k exprs)) (here : exprs[j]? = some e) :
    (ctx.part (k + j)).Sees e.plan := FramePlan.All.of_getElem? seen here

theorem sees_binding {b : Binder} {init : Expr} {rest : List (Binder × Expr)} :
    ctx.Sees (planBindings i ((b,init) :: rest) plan) ↔
      ctx.planned ⟨[],i⟩ = some (scopeWords rest plan.words) ∧ (ctx.part i).Sees init.plan ∧
        ctx.Sees (planBindings (i + 1) rest plan) := FramePlan.all_planBindings

theorem sees_branch {b : Binder} {body : Expr} {rest : List (Binder × Expr)} :
    ctx.Sees (planBranches i ((b,body) :: rest)) ↔
      ctx.planned ⟨[],i⟩ = some body.words ∧ (ctx.part (i + 1)).Sees body.plan ∧
        ctx.Sees (planBranches (i + 1) rest) := FramePlan.all_planBranches

end Context

end CoolBackend
