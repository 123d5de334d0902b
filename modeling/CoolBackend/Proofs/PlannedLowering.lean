import CoolBackend.Proofs.AlikeRuns
import CoolBackend.Proofs.Expressions
import CoolBackend.Proofs.NodeNames

/-!
Lowering looks up the depths of the variables that are bound in a frame, and no others. So it finds
them all in the plan of the frame. Under two plans that both cover a frame it takes the same steps,
up to the same error if there is one, and where the plans agree it gives the same code.
-/
namespace CoolBackend

def InternalError.isUnplanned : InternalError → Bool
  | noPlannedSlot _ => true
  | _ => false

/-- The same error, which is not that of a variable without a depth. -/
def SameFault (e f : InternalError) : Prop := f = e ∧ e.isUnplanned = false

def EqualIf {α : Type} (sound : Prop) (a b : α) : Prop := sound → b = a

namespace EqualIf

variable {α β γ : Type} {sound : Prop} {a b : α} {c d : β}

theorem of_eq (same : b = a) : EqualIf sound a b := fun _ => same

theorem map (same : EqualIf sound a b) (f : α → β) : EqualIf sound (f a) (f b) :=
  fun holds => congrArg f (same holds)

theorem map₂ (first : EqualIf sound a b) (second : EqualIf sound c d) (f : α → β → γ) :
    EqualIf sound (f a c) (f b d) :=
  fun holds => congrArg₂ f (first holds) (second holds)

end EqualIf

/-- Steps along a list whose results are equal under a condition. -/
theorem Tracks.mapM_if {ε σ α β : Type} {E : ε → ε → Prop} (sound : Prop)
    {f g : α → EStateM ε σ β} {xs : List α}
    (each : ∀ x ∈ xs, Tracks E (EqualIf sound) (f x) (g x)) :
    Tracks E (EqualIf sound) (xs.mapM f) (xs.mapM g) := by
  refine (mapM each).mono fun ys zs all holds => ?_
  induction all with
  | nil => rfl
  | cons first _ ih => rw [first holds,ih]

section Steps

variable {α : Type}

/-- What can fail, but not for the lack of a depth. -/
def PlanFree (x : Except InternalError α) : Prop := ∀ e, x = .error e → e.isUnplanned = false

theorem planFree_ok (a : α) : PlanFree (.ok a) := nofun

theorem PlanFree.tracks {σ : Type} {x : Except InternalError α} (free : PlanFree x) :
    Tracks SameFault Eq (ofExcept x : EStateM InternalError σ α) (ofExcept x) :=
  (Tracks.except x fun e failed => ⟨rfl,free e failed⟩).mono fun _ _ both => both.2.symm

theorem planFree_require (classes : ClassTable) (name : String) :
    PlanFree (classes.require name) := by
  intro e failed
  unfold ClassTable.require at failed
  split at failed <;> cases failed
  rfl

theorem planFree_mnemonic (op : ArithOp) : PlanFree op.mnemonic := by
  intro e failed
  cases op <;> cases failed
  rfl

theorem planFree_ofAttribute (className : String) (slots : List AttributeSlot) (name : String) :
    PlanFree (Location.ofAttribute className slots name) := by
  intro e failed
  unfold Location.ofAttribute at failed
  split at failed <;> cases failed
  rfl

theorem planFree_ofFormal (formals : List Binder) (name : String) :
    PlanFree (Location.ofFormal formals name) := by
  intro e failed
  unfold Location.ofFormal at failed
  split at failed <;> cases failed
  rfl

theorem planFree_slotOf (ctx : Context) (target : ClassEntry) (method : String) :
    PlanFree (ctx.slotOf target method) := by
  intro e failed
  unfold Context.slotOf at failed
  split at failed <;> cases failed
  rfl

theorem planFree_target (ctx : Context) (receiver : Expr) (staticClass : String) :
    PlanFree (ctx.target receiver staticClass) := by
  have dynamic (type : String) : PlanFree (ctx.staticClass type) := by
    unfold Context.staticClass
    split
    next => exact planFree_ok _
    next => exact planFree_require _ _
  intro e failed
  unfold Context.target at failed
  cases found : (if receiver.isAbsent then .ok ctx.current
    else ctx.staticClass receiver.staticType : Except InternalError ClassEntry) with
  | ok c =>
    rw [found,ok_bind] at failed
    split at failed
    next => cases failed
    next => exact planFree_require _ _ e failed
  | error f =>
    rw [found] at failed
    cases failed
    split at found
    next => cases found
    next => exact dynamic _ _ found

theorem newLabel_tracks (stem : String) :
    Tracks SameFault Eq (LowerM.newLabel stem) (LowerM.newLabel stem) :=
  .of_runs fun _ => ⟨_,_,rfl⟩

theorem site_tracks (ctx : Context) (stem : String) (info : Info) :
    Tracks SameFault Eq (ctx.site stem info) (ctx.site stem info) := .of_runs fun _ => ⟨_,_,rfl⟩

theorem constant_tracks (value : Constant) :
    Tracks SameFault Eq (LowerM.constant value) (LowerM.constant value) := by
  cases value <;> exact .of_runs fun _ => ⟨_,_,rfl⟩

theorem defaultValue_tracks (type : String) :
    Tracks SameFault Eq (defaultValue type) (defaultValue type) := by
  refine .of_runs fun s => ?_
  unfold defaultValue
  repeat' split
  all_goals exact ⟨_,_,rfl⟩

end Steps

namespace Context

/-- Contexts that differ in depths only, and not even in these if `sound`. -/
structure Alongside (sound : Prop) (ctx other : Context) : Prop where
  classes : other.classes = ctx.classes
  current : other.current = ctx.current
  file : other.file = ctx.file
  formals : other.formals = ctx.formals
  barrier : other.barrier = ctx.barrier
  names : other.locals.map (·.1) = ctx.locals.map (·.1)
  locals : sound → other.locals = ctx.locals

/-- Both contexts have a depth at a site, and the same one if `sound`. -/
def AgreesAt (sound : Prop) (ctx other : Context) (site : BindingSite) : Prop :=
  ∃ d d', ctx.planned site = some d ∧ other.planned site = some d' ∧ EqualIf sound d d'

namespace Alongside

variable {sound : Prop} {ctx other : Context}

theorem part (along : ctx.Alongside sound other) (k : Nat) :
    (ctx.part k).Alongside sound (other.part k) :=
  ⟨along.classes,along.current,along.file,along.formals,along.barrier,along.names,along.locals⟩

theorem bind (along : ctx.Alongside sound other) (name : String) {d d' : Nat}
    (same : EqualIf sound d d') : (ctx.bind name d).Alongside sound (other.bind name d') where
  classes := along.classes
  current := along.current
  file := along.file
  formals := along.formals
  barrier := along.barrier
  names := congrArg (name :: ·) along.names
  locals holds := congrArg₂ (fun d rest => (name,d) :: rest) (same holds) (along.locals holds)

theorem site (along : ctx.Alongside sound other) (stem : String) (info : Info) :
    other.site stem info = ctx.site stem info := by
  simp only [Context.site,fileLabel,along.file]

theorem target (along : ctx.Alongside sound other) (receiver : Expr) (staticClass : String) :
    other.target receiver staticClass = ctx.target receiver staticClass := by
  simp only [Context.target,Context.staticClass,along.current,along.classes]

theorem slotOf (along : ctx.Alongside sound other) (target : ClassEntry) (method : String) :
    other.slotOf target method = ctx.slotOf target method := by
  simp only [Context.slotOf,along.classes]

theorem store (along : ctx.Alongside sound other) {value value' : Code} {target target' : Location}
    (values : EqualIf sound value value') (targets : EqualIf sound target target') :
    EqualIf sound (ctx.store value target) (other.store value' target') := by
  intro holds
  rw [Context.store,Context.store,values holds,targets holds,along.barrier]

theorem lookup_isSome (along : ctx.Alongside sound other) (name : String) :
    (other.locals.lookup name).isSome = (ctx.locals.lookup name).isSome := by
  have named (xs : List (String × Nat)) :
      (xs.lookup name).isSome = (xs.map (·.1)).contains name := by
    induction xs with
    | nil => rfl
    | cons x rest ih =>
      rw [List.lookup_cons,List.map_cons,List.contains_cons,← ih]
      cases name == x.1 <;> rfl
  rw [named,named,along.names]

theorem resolve (along : ctx.Alongside sound other) (name : String) (scope : Scope) :
    Tracks SameFault (EqualIf sound) (ofExcept (ctx.resolve name scope) : LowerM Location)
      (ofExcept (other.resolve name scope)) := by
  cases scope with
  | attr =>
    simp only [Context.resolve,along.classes,along.current]
    exact (planFree_ofAttribute _ _ _).tracks.mono fun _ _ same => .of_eq same.symm
  | formal =>
    simp only [Context.resolve,along.formals]
    exact (planFree_ofFormal _ _).tracks.mono fun _ _ same => .of_eq same.symm
  | localVar =>
    have both := along.lookup_isSome name
    have same : EqualIf sound (ctx.locals.lookup name) (other.locals.lookup name) :=
      fun holds => by rw [along.locals holds]
    simp only [Context.resolve]
    cases here : ctx.locals.lookup name with
    | none =>
      rw [here,Option.isSome_none,Option.isSome_eq_false_iff,Option.isNone_iff_eq_none] at both
      rw [both]
      exact .throw ⟨rfl,rfl⟩
    | some d =>
      rw [here] at both same
      obtain ⟨d',there⟩ := Option.isSome_iff_exists.mp both
      rw [there] at same ⊢
      exact .pure fun holds => congrArg (fun d : Nat => Location.ofDepth d)
        (Option.some.inj (same holds))
  | unknown | other => exact .throw ⟨rfl,rfl⟩

theorem depthOf {i : Nat} (agrees : ctx.AgreesAt sound other ⟨[],i⟩) (b : Binder) :
    Tracks SameFault (EqualIf sound) (ofExcept (ctx.depthOf i b) : LowerM Nat)
      (ofExcept (other.depthOf i b)) := by
  obtain ⟨d,d',here,there,same⟩ := agrees
  simp only [Context.depthOf,here,there]
  exact .pure same

end Alongside

end Context

section Lowering

variable {sound : Prop} {ctx other : Context}

/-- An expression is lowered alongside, wherever its variables have depths. -/
def Expr.LowersAlong (sound : Prop) (e : Expr) : Prop :=
  ∀ {ctx other : Context}, ctx.Alongside sound other →
    (e.plan.All fun site _ => ctx.AgreesAt sound other site) →
      Tracks SameFault (EqualIf sound) (e.lower ctx) (e.lower other)

theorem lowerAll_along {exprs : List Expr} {k : Nat} (each : ∀ e ∈ exprs, e.LowersAlong sound)
    (along : ctx.Alongside sound other)
    (agrees : (planAll k exprs).All fun site _ => ctx.AgreesAt sound other site) :
    Tracks SameFault (EqualIf sound) (lowerAll exprs k ctx) (lowerAll exprs k other) := by
  induction exprs generalizing k with
  | nil => exact .pure (.of_eq rfl)
  | cons e rest ih =>
    obtain ⟨here,each⟩ := List.forall_mem_cons.mp each
    obtain ⟨first,agrees⟩ := FramePlan.all_planAll.mp agrees
    rw [lowerAll,lowerAll]
    refine (here (along.part k) first).bind fun _ _ code => ?_
    exact (ih each agrees).bind fun _ _ codes => .pure (code.map₂ codes List.cons)

theorem lowerArgs_along {args : List Expr} {k : Nat} (each : ∀ e ∈ args, e.LowersAlong sound)
    (along : ctx.Alongside sound other)
    (agrees : (planAll k args).All fun site _ => ctx.AgreesAt sound other site) :
    Tracks SameFault (EqualIf sound) (lowerArgs args k ctx) (lowerArgs args k other) := by
  induction args generalizing k with
  | nil => exact .pure (.of_eq rfl)
  | cons e rest ih =>
    obtain ⟨here,each⟩ := List.forall_mem_cons.mp each
    obtain ⟨first,agrees⟩ := FramePlan.all_planAll.mp agrees
    rw [lowerArgs,lowerArgs]
    refine (ih each agrees).bind fun _ _ codes => ?_
    exact (here (along.part k) first).bind fun _ _ code =>
      .pure (codes.map₂ code fun pushed last => pushed ++ [last])

theorem optional_along {e : Expr} (inner : e.LowersAlong sound) {default : LowerM Code}
    (runs : Tracks SameFault Eq default default) (along : ctx.Alongside sound other)
    (agrees : e.plan.All fun site _ => ctx.AgreesAt sound other site) :
    Tracks SameFault (EqualIf sound) (if e.isAbsent then default else e.lower ctx)
      (if e.isAbsent then default else e.lower other) := by
  split
  next => exact runs.mono fun _ _ same => .of_eq same.symm
  next => exact inner along agrees

/-- The stores are the same, and the body is lowered in contexts that go on alongside. -/
theorem lowerBindings_along {bindings : List (Binder × Expr)} {i : Nat} {inner : FramePlan}
    (each : ∀ b ∈ bindings, b.2.LowersAlong sound) (along : ctx.Alongside sound other)
    (agrees : (planBindings i bindings inner).All fun site _ => ctx.AgreesAt sound other site) :
    Tracks SameFault (fun r r' => EqualIf sound r.1 r'.1 ∧ r.2.Alongside sound r'.2 ∧
        inner.All fun site _ => r.2.AgreesAt sound r'.2 site)
      (lowerBindings bindings i ctx) (lowerBindings bindings i other) := by
  induction bindings generalizing i ctx other with
  | nil => exact .pure ⟨.of_eq rfl,along,agrees⟩
  | cons b rest ih =>
    obtain ⟨b,init⟩ := b
    obtain ⟨here,each⟩ := List.forall_mem_cons.mp each
    obtain ⟨own,first,agrees⟩ := FramePlan.all_planBindings.mp agrees
    rw [lowerBindings,lowerBindings]
    refine (optional_along here (defaultValue_tracks b.type) (along.part i) first).bind
      fun _ _ value => ?_
    refine (Context.Alongside.depthOf own b).bind fun d d' depth => ?_
    refine (ih each (along.bind b.name depth) agrees).bind ?_
    rintro ⟨stores,_⟩ ⟨stores',_⟩ ⟨same,further,inside⟩
    have target := depth.map fun d : Nat => Location.ofDepth d
    exact .pure ⟨(along.store value target).map₂ same List.cons,further,inside⟩

theorem lowerBranches_along {branches : List (Binder × Expr)} {i : Nat}
    (each : ∀ b ∈ branches, b.2.LowersAlong sound) (along : ctx.Alongside sound other)
    (agrees : (planBranches i branches).All fun site _ => ctx.AgreesAt sound other site) :
    Tracks SameFault (EqualIf sound) (lowerBranches branches i ctx)
      (lowerBranches branches i other) := by
  induction branches generalizing i with
  | nil => exact .pure (.of_eq rfl)
  | cons b rest ih =>
    obtain ⟨b,body⟩ := b
    obtain ⟨here,each⟩ := List.forall_mem_cons.mp each
    obtain ⟨own,first,agrees⟩ := FramePlan.all_planBranches.mp agrees
    rw [lowerBranches,lowerBranches,along.classes]
    refine (newLabel_tracks _).andThen fun label => ?_
    refine (planFree_require _ b.type).tracks.andThen fun c => ?_
    refine (Context.Alongside.depthOf own b).bind fun d d' depth => ?_
    refine (here ((along.bind b.name depth).part (i + 1)) first).bind fun _ _ code => ?_
    refine (ih each agrees).bind fun _ _ others => .pure ?_
    intro holds
    rw [depth holds,code holds,others holds]

theorem Expr.lowersAlong (e : Expr) : e.LowersAlong sound := by
  induction e using Expr.induct with
  | absent => exact fun _ _ => .throw ⟨rfl,rfl⟩
  | constant info value =>
    intro ctx other along agrees
    rw [Expr.lower,Expr.lower]
    exact (constant_tracks value).andThen fun _ => .pure (.of_eq rfl)
  | ident info name scope =>
    intro ctx other along agrees
    rw [Expr.lower,Expr.lower]
    split
    next => exact .pure (.of_eq rfl)
    next => exact (along.resolve name scope).bind fun _ _ source => .pure (source.map Code.loadVar)
  | assign info name scope value ih =>
    intro ctx other along agrees
    rw [Expr.lower,Expr.lower]
    refine (ih (along.part 0) (FramePlan.all_under.mp agrees)).bind fun _ _ value => ?_
    exact (along.resolve name scope).bind fun _ _ target => .pure (along.store value target)
  | unary info op operand ih =>
    intro ctx other along agrees
    have inner := ih (along.part 0) (FramePlan.all_under.mp agrees)
    cases op with
    | negate =>
      rw [Expr.lower,Expr.lower]
      exact inner.bind fun _ _ code => .pure (code.map Code.negate)
    | not =>
      rw [Expr.lower,Expr.lower]
      refine inner.bind fun _ _ code => (newLabel_tracks _).andThen fun label => ?_
      exact .pure (code.map (Code.predicate .not · label))
    | isVoid =>
      rw [Expr.lower,Expr.lower]
      refine inner.bind fun _ _ code => (newLabel_tracks _).andThen fun label => ?_
      exact .pure (code.map (Code.predicate .isVoid · label))
  | binary info op left right ihLeft ihRight =>
    intro ctx other along agrees
    simp only [Expr.plan,FramePlan.all_beside,FramePlan.all_under] at agrees
    have onLeft := ihLeft (along.part 0) agrees.1
    have onRight := ihRight (along.part 1) agrees.2
    cases op with
    | arith op =>
      rw [Expr.lower,Expr.lower]
      refine (planFree_mnemonic op).tracks.andThen fun mnemonic => ?_
      refine onLeft.bind fun _ _ first => onRight.bind fun _ _ second => ?_
      exact .pure (first.map₂ second (Code.arithmetic mnemonic))
    | compare op =>
      rw [Expr.lower,Expr.lower]
      refine onLeft.bind fun _ _ first => onRight.bind fun _ _ second => ?_
      refine (newLabel_tracks _).andThen fun label => ?_
      exact .pure (first.map₂ second (Code.compare op.mnemonic · · label))
    | equal =>
      rw [Expr.lower,Expr.lower]
      refine onLeft.bind fun _ _ first => onRight.bind fun _ _ second => ?_
      refine (newLabel_tracks _).andThen fun label => ?_
      exact .pure (first.map₂ second (Code.equality · · label))
  | cond info test yes no ihTest ihYes ihNo =>
    intro ctx other along agrees
    simp only [Expr.plan,FramePlan.all_beside,FramePlan.all_under] at agrees
    rw [Expr.lower,Expr.lower]
    refine (ihTest (along.part 0) agrees.1).bind fun _ _ first => ?_
    refine (ihYes (along.part 1) agrees.2.1).bind fun _ _ second => ?_
    refine (ihNo (along.part 2) agrees.2.2).bind fun _ _ third => ?_
    refine (newLabel_tracks _).andThen fun elseLabel => ?_
    refine (newLabel_tracks _).andThen fun endLabel => .pure ?_
    intro holds
    rw [first holds,second holds,third holds]
  | loop info test body ihTest ihBody =>
    intro ctx other along agrees
    simp only [Expr.plan,FramePlan.all_beside,FramePlan.all_under] at agrees
    rw [Expr.lower,Expr.lower]
    refine (ihTest (along.part 0) agrees.1).bind fun _ _ first => ?_
    refine (ihBody (along.part 1) agrees.2).bind fun _ _ second => ?_
    refine (newLabel_tracks _).andThen fun loopLabel => ?_
    refine (newLabel_tracks _).andThen fun endLabel => ?_
    exact .pure (first.map₂ second (Code.loop · · loopLabel endLabel))
  | block info exprs ih =>
    intro ctx other along agrees
    rw [Expr.lower,Expr.lower]
    exact (lowerAll_along ih along agrees).bind fun _ _ codes => .pure (codes.map Code.sequence)
  | letIn info bindings body ihBindings ihBody =>
    intro ctx other along agrees
    rw [Expr.lower,Expr.lower]
    refine (lowerBindings_along ihBindings along agrees).bind ?_
    rintro ⟨stores,_⟩ ⟨stores',_⟩ ⟨same,further,inside⟩
    refine (ihBody (further.part _) (FramePlan.all_under.mp inside)).bind fun _ _ code => ?_
    exact .pure (same.map₂ code Code.letIn)
  | caseOf info scrutinee branches ihScrutinee ihBranches =>
    intro ctx other along agrees
    simp only [Expr.plan,FramePlan.all_beside,FramePlan.all_under] at agrees
    rw [Expr.lower,Expr.lower,along.site]
    refine (ihScrutinee (along.part 0) agrees.1).bind fun _ _ examined => ?_
    refine (site_tracks ctx _ info).andThen fun site => ?_
    refine (newLabel_tracks _).andThen fun endLabel => ?_
    refine (lowerBranches_along ihBranches along agrees.2).bind fun _ _ branches => ?_
    exact .pure (examined.map₂ branches fun code r => Code.caseOf code site r.1 r.2 endLabel)
  | new info className =>
    intro ctx other along agrees
    rw [Expr.lower,Expr.lower,along.classes]
    split
    next => exact .pure (.of_eq rfl)
    next => exact (planFree_require _ className).tracks.andThen fun _ => .pure (.of_eq rfl)
  | dispatch info receiver staticClass method args ihReceiver ihArgs =>
    intro ctx other along agrees
    simp only [Expr.plan,FramePlan.all_beside,FramePlan.all_under] at agrees
    have self : Tracks SameFault Eq (pure .loadSelf : LowerM Code) (pure .loadSelf) := .pure rfl
    rw [Expr.lower,Expr.lower,along.target,along.site]
    refine (lowerArgs_along ihArgs along agrees.2).bind fun _ _ args => ?_
    refine (optional_along ihReceiver self (along.part 0) agrees.1).bind fun _ _ object => ?_
    refine (planFree_target ctx receiver staticClass).tracks.andThen fun target => ?_
    rw [along.slotOf]
    refine (planFree_slotOf ctx target method).tracks.andThen fun slot => ?_
    refine (site_tracks ctx _ info).andThen fun site => ?_
    exact .pure (args.map₂ object (Code.dispatch · · _ _ site))

end Lowering

section Frames

variable {Node : Type} [DecidableEq Node] (node : BindingSite → Node) (options : Options)
  (classes : ClassTable) (c : ClassEntry)

theorem FramePlan.exists_depth? {plan : FramePlan} {site : BindingSite} {d : Nat}
    (planned : (site,d) ∈ plan.depths) : ∃ d', plan.depth? node site = some d' := by
  have found : (plan.depths.find? (node ·.1 = node site)).isSome :=
    List.find?_isSome.mpr ⟨_,planned,by simp⟩
  obtain ⟨x,first⟩ := Option.isSome_iff_exists.mp found
  exact ⟨x.2,by rw [depth?,first]; rfl⟩

/-- Whatever the nodes are, a frame's plan covers it; and it is that of a tree if it is steady. -/
theorem agreesAt_planAll (exprs : List Expr) (formals : List Binder) :
    (planAll 0 exprs).All fun site _ =>
      (contextOf options classes c formals ((planAll 0 exprs).depth? node)).AgreesAt
        ((planAll 0 exprs).Steady node)
        (contextOf options classes c formals ((planAll 0 exprs).depth? id)) site := by
  rintro ⟨site,d⟩ planned
  obtain ⟨d',found⟩ := FramePlan.exists_depth? node planned
  refine ⟨d',d,found,(steady_planAll exprs).depth?_eq planned,fun steady => ?_⟩
  exact Option.some.inj ((steady.depth?_eq planned).symm.trans found)

theorem alongside_contextOf {sound : Prop} (formals : List Binder)
    (planned planned' : BindingSite → Option Nat) :
    (contextOf options classes c formals planned).Alongside sound
      (contextOf options classes c formals planned') :=
  ⟨rfl,rfl,rfl,rfl,rfl,rfl,fun _ => rfl⟩

theorem methodRoutineIn_along (m : MethodDecl) :
    Tracks SameFault (EqualIf ((methodPlan m).Steady node))
      (methodRoutineIn node options classes c m) (methodRoutine options classes c m) := by
  have agrees := agreesAt_planAll node options classes c [m.body] m.formals
  refine (m.body.lowersAlong ((alongside_contextOf options classes c m.formals _ _).part 0)
    (FramePlan.all_planAll.mp agrees).1).bind fun _ _ body => ?_
  exact .pure fun steady => by rw [body steady]

theorem attributeStore_along {sound : Prop} {ctx other : Context} (a : AttributeDecl)
    (along : ctx.Alongside sound other)
    (agrees : a.init.plan.All fun site _ => ctx.AgreesAt sound other site) :
    Tracks SameFault (EqualIf sound) (attributeStore ctx a) (attributeStore other a) := by
  rw [attributeStore,attributeStore,along.current,along.classes,along.barrier]
  refine (planFree_ofAttribute _ _ _).tracks.andThen fun target => ?_
  refine (a.init.lowersAlong along agrees).bind fun _ _ value => ?_
  exact .pure fun holds => by rw [value holds]

theorem initRoutineIn_along :
    Tracks SameFault (EqualIf ((initPlan c).Steady node)) (initRoutineIn node options classes c)
      (initRoutine options classes c) := by
  have stores : ∀ x ∈ c.initialized.zipIdx,
      Tracks SameFault (EqualIf ((initPlan c).Steady node))
        (attributeStore ((initContext node options classes c).part x.2) x.1)
        (attributeStore ((initContext id options classes c).part x.2) x.1) := by
    rintro ⟨a,k⟩ listed
    have here : (c.initialized.map (·.init))[k]? = some a.init := by
      rw [List.getElem?_map,List.mk_mem_zipIdx_iff_getElem?.mp listed]
      rfl
    refine attributeStore_along a ((alongside_contextOf options classes c [] _ _).part k) ?_
    have agrees := (agreesAt_planAll node options classes c _ []).of_getElem? here
    rwa [Nat.zero_add] at agrees
  rw [initRoutine,initRoutineIn,initRoutineIn]
  refine (Tracks.mapM_if _ stores).bind fun _ _ each => ?_
  exact .pure fun steady => by rw [each steady]

theorem prototypeOf_tracks :
    Tracks SameFault Eq (prototypeOf classes c) (prototypeOf classes c) := by
  have word (slot : AttributeSlot) :
      Tracks SameFault Eq (prototypeWord classes slot) (prototypeWord classes slot) := by
    refine (planFree_require _ _).tracks.andThen fun owner => .of_runs fun s => ?_
    cases (owner.attributes.find? (·.name = slot.name)).bind (·.raw) with
    | some word => exact ⟨_,_,rfl⟩
    | none =>
      simp only
      repeat' split
      all_goals exact ⟨_,_,rfl⟩
  rw [prototypeOf]
  split
  next => exact .of_runs fun _ => ⟨_,_,rfl⟩
  next =>
    refine (Tracks.mapM_eq fun slot _ => ?_).andThen fun slots => .pure rfl
    rw [← bind_pure_comp]
    exact (word slot).andThen fun _ => .pure rfl

/-- In every frame of a table, places of one node are planned at one depth. -/
def ClassTable.Steady (classes : ClassTable) (nodes : NodeNames) : Prop :=
  ∀ c ∈ classes.toList, (initPlan c).Steady (nodes.binderAt (.initializers c.name)) ∧
    ∀ x ∈ c.methodDecls.zipIdx, (methodPlan x.1.2).Steady (nodes.binderAt (.method c.name x.2))

/-- With shared nodes a program is assembled as if it were a tree: up to the same error, or to an
image, which is the same if the frames are steady. -/
theorem assembleIn_along (nodes : NodeNames) :
    Tracks SameFault (EqualIf (classes.Steady nodes)) (assembleIn nodes options classes)
      (assemble options classes) := by
  rw [assemble,assembleIn,assembleIn,assembleWith,assembleWith]
  refine (Tracks.mapM_eq fun c _ => ?_).andThen fun tables => ?_
  · refine (Tracks.of_runs fun _ => ⟨_,_,rfl⟩).andThen fun name => ?_
    exact (prototypeOf_tracks classes c).andThen fun _ => .pure rfl
  · refine (Tracks.mapM_if (classes.Steady nodes) fun c member => ?_).bind fun _ _ inits => ?_
    · rw [initRoutineIn_tree]
      refine (initRoutineIn_along _ options classes c).mono fun _ _ same steady => ?_
      exact same (steady c member).1
    · refine (Tracks.mapM_if (classes.Steady nodes) ?_).bind fun _ _ methods => ?_
      · rintro ⟨⟨d,m⟩,i⟩ listed
        obtain ⟨c,member,inside⟩ := List.mem_flatMap.mp listed
        have owner : d = c := by
          obtain ⟨m,-,same⟩ := List.mem_map.mp (List.fst_mem_of_mem_zipIdx inside)
          exact (congrArg Prod.fst same).symm
        subst owner
        simp only [methodRoutineIn_tree]
        refine (methodRoutineIn_along _ options classes d m).mono fun _ _ same steady => ?_
        exact same ((steady d member).2 _ inside)
      · refine (Tracks.of_runs fun _ => ⟨_,_,rfl⟩).andThen fun s => .pure fun steady => ?_
        rw [inits steady,methods steady]

/-- Whatever stands in a program, no variable that lowering comes to lacks a depth. -/
theorem assembleIn_planned (nodes : NodeNames) (s t : Supply) (line : Int64) :
    assembleIn nodes options classes s ≠ .error (.noPlannedSlot line) t := by
  intro failed
  have alike := assembleIn_along options classes nodes s
  rw [failed] at alike
  cases other : assemble options classes s with
  | ok image u => rw [other] at alike; exact alike
  | error e u =>
    rw [other] at alike
    cases alike.1.2

end Frames

end CoolBackend
