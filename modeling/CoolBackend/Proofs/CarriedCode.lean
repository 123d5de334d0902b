import CoolBackend.Proofs.AlikeRuns
import CoolBackend.Proofs.CarriedTables
import CoolBackend.Proofs.NodeNames

/-!
Lowering looks at the line of a span and at the codes of scopes and comparisons as they are carried.
An expression and the carried one draw the same labels and literals and give the same code, or they
fail with the same message.
-/
namespace CoolBackend

def SameMessage (e f : InternalError) : Prop := e.message = f.message

instance : Std.Refl SameMessage := ⟨fun _ => rfl⟩

theorem Tracks.ofExcept_map {σ α β : Type} (x : Except InternalError α) (f : α → β) :
    Tracks SameMessage (fun a b => b = f a) (ofExcept x : EStateM InternalError σ α)
      (ofExcept (x.map f)) := by
  cases x with
  | ok a => exact .pure rfl
  | error e => exact .throw rfl

theorem planAll_carried {exprs : List Expr} (each : ∀ e ∈ exprs, e.carried.plan = e.plan)
    (k : Nat) : planAll k (carriedAll exprs) = planAll k exprs := by
  induction exprs generalizing k with
  | nil => rfl
  | cons e rest ih =>
    obtain ⟨here,others⟩ := List.forall_mem_cons.mp each
    rw [carriedAll,planAll,planAll,here,ih others]

theorem planBindings_carried {bindings : List (Binder × Expr)} (inner : FramePlan)
    (each : ∀ b ∈ bindings, b.2.carried.plan = b.2.plan) (i : Nat) :
    planBindings i (carriedBindings bindings) inner = planBindings i bindings inner := by
  induction bindings generalizing i with
  | nil => rfl
  | cons b rest ih =>
    obtain ⟨here,others⟩ := List.forall_mem_cons.mp each
    rw [carriedBindings,planBindings,planBindings,here,ih others]

theorem planBranches_carried {branches : List (Binder × Expr)}
    (each : ∀ b ∈ branches, b.2.carried.plan = b.2.plan) (i : Nat) :
    planBranches i (carriedBindings branches) = planBranches i branches := by
  induction branches generalizing i with
  | nil => rfl
  | cons b rest ih =>
    obtain ⟨here,others⟩ := List.forall_mem_cons.mp each
    rw [carriedBindings,planBranches,planBranches,here,ih others]

theorem length_carriedBindings (bindings : List (Binder × Expr)) :
    (carriedBindings bindings).length = bindings.length := by
  rw [carriedBindings_eq,List.length_map]

/-- Frames are planned alike. -/
theorem Expr.plan_carried (e : Expr) : e.carried.plan = e.plan := by
  induction e using Expr.induct with
  | absent => rfl
  | constant info value => rfl
  | ident info name scope => rfl
  | assign info name scope value ih => rw [carried,plan,plan,ih]
  | unary info op operand ih => rw [carried,plan,plan,ih]
  | binary info op left right ihLeft ihRight => rw [carried,plan,plan,ihLeft,ihRight]
  | cond info test yes no ihTest ihYes ihNo => rw [carried,plan,plan,ihTest,ihYes,ihNo]
  | loop info test body ihTest ihBody => rw [carried,plan,plan,ihTest,ihBody]
  | block info exprs ih => rw [carried,plan,plan,planAll_carried ih]
  | letIn info bindings body ihBindings ihBody =>
    rw [carried,plan,plan,planBindings_carried _ ihBindings,ihBody,length_carriedBindings]
  | caseOf info scrutinee branches ihScrutinee ihBranches =>
    rw [carried,plan,plan,planBranches_carried ihBranches,ihScrutinee]
  | new info className => rfl
  | dispatch info receiver staticClass method args ihReceiver ihArgs =>
    rw [carried,plan,plan,planAll_carried ihArgs,ihReceiver]

namespace Context

def carried (ctx : Context) : Context :=
  { ctx with
    classes := ctx.classes.carried
    current := ctx.current.carried
    formals := ctx.formals.map Binder.carried }

theorem resolve_carried (ctx : Context) (name : String) (scope : Scope) :
    Tracks SameMessage Eq (ofExcept (ctx.resolve name scope) : LowerM Location)
      (ofExcept (ctx.carried.resolve name scope.carried)) := by
  cases scope with
  | unknown => exact .throw rfl
  | other code => exact .throw rfl
  | localVar => exact .refl _
  | formal =>
    have same : ctx.carried.resolve name .formal = ctx.resolve name .formal := by
      simp only [resolve,carried,Location.ofFormal,List.findIdx?_map]
      rfl
    exact same ▸ .refl _
  | attr =>
    have same : ctx.carried.resolve name .attr = ctx.resolve name .attr := by
      simp only [resolve,carried,ClassTable.slots_carried,ClassEntry.name_carried]
    exact same ▸ .refl _

/-- A class that has to be there is found carried, or it is missing in both tables. -/
theorem require_carried (ctx : Context) (name : String) :
    Tracks SameMessage (fun c d => d = c.carried)
      (ofExcept (ctx.classes.require name) : LowerM ClassEntry)
      (ofExcept (ctx.carried.classes.require name)) := by
  have found : ctx.carried.classes.require name =
      (ctx.classes.require name).map ClassEntry.carried := ClassTable.require_carried ..
  rw [found]
  exact .ofExcept_map _ _

theorem target_carried (ctx : Context) (receiver : Expr) (staticClass : String) :
    ctx.carried.target receiver.carried staticClass =
      (ctx.target receiver staticClass).map ClassEntry.carried := by
  have dynamic (type : String) :
      ctx.carried.staticClass type = (ctx.staticClass type).map ClassEntry.carried := by
    rw [Context.staticClass,Context.staticClass]
    split
    next => rfl
    next => exact ClassTable.require_carried ..
  have named : ctx.carried.classes.require staticClass =
      (ctx.classes.require staticClass).map ClassEntry.carried := ClassTable.require_carried ..
  simp only [target,Expr.isAbsent_carried,Expr.staticType_carried,dynamic,named]
  split
  next => split <;> rfl
  next =>
    cases ctx.staticClass receiver.staticType with
    | error e => rfl
    | ok c => split <;> rfl

theorem slotOf_carried (ctx : Context) (target : ClassEntry) (method : String) :
    ctx.carried.slotOf target.carried method = ctx.slotOf target method := by
  simp only [slotOf,carried,ClassEntry.tag_carried,ClassEntry.name_carried,
    ClassTable.methodSlot?_carried]

end Context

theorem RelOp.mnemonic_carried (op : RelOp) : op.carried.mnemonic = op.mnemonic := by
  cases op <;> rfl

/-- An expression is lowered like the carried one, in whatever context. -/
def LowersAlike (e : Expr) : Prop :=
  ∀ ctx : Context, Tracks SameMessage Eq (e.lower ctx) (e.carried.lower ctx.carried)

theorem LowersAlike.optional {e : Expr} (alike : LowersAlike e) (default : LowerM Code)
    (ctx : Context) : Tracks SameMessage Eq (if e.isAbsent then default else e.lower ctx)
      (if e.carried.isAbsent then default else e.carried.lower ctx.carried) := by
  rw [Expr.isAbsent_carried]
  split
  next => exact .refl _
  next => exact alike ctx

theorem lowerAll_carried {exprs : List Expr} (each : ∀ e ∈ exprs, LowersAlike e) (k : Nat)
    (ctx : Context) : Tracks SameMessage Eq (lowerAll exprs k ctx)
      (lowerAll (carriedAll exprs) k ctx.carried) := by
  induction exprs generalizing k with
  | nil => exact .pure rfl
  | cons e rest ih =>
    obtain ⟨here,others⟩ := List.forall_mem_cons.mp each
    rw [carriedAll,lowerAll,lowerAll]
    refine (here (ctx.part k)).andThen fun _ => ?_
    exact (ih others (k + 1)).andThen fun _ => .pure rfl

theorem lowerArgs_carried {args : List Expr} (each : ∀ e ∈ args, LowersAlike e) (k : Nat)
    (ctx : Context) : Tracks SameMessage Eq (lowerArgs args k ctx)
      (lowerArgs (carriedAll args) k ctx.carried) := by
  induction args generalizing k with
  | nil => exact .pure rfl
  | cons e rest ih =>
    obtain ⟨here,others⟩ := List.forall_mem_cons.mp each
    rw [carriedAll,lowerArgs,lowerArgs]
    refine (ih others (k + 1)).andThen fun _ => ?_
    exact (here (ctx.part k)).andThen fun _ => .pure rfl

theorem lowerBindings_carried {bindings : List (Binder × Expr)}
    (each : ∀ b ∈ bindings, LowersAlike b.2) (i : Nat) (ctx : Context) :
    Tracks SameMessage (fun inner other => other = (inner.1,inner.2.carried))
      (lowerBindings bindings i ctx)
      (lowerBindings (carriedBindings bindings) i ctx.carried) := by
  induction bindings generalizing i ctx with
  | nil => exact .pure rfl
  | cons b rest ih =>
    obtain ⟨here,others⟩ := List.forall_mem_cons.mp each
    rw [carriedBindings,lowerBindings,lowerBindings]
    refine (here.optional (defaultValue b.1.type) (ctx.part i)).andThen fun _ => ?_
    refine (Tracks.refl (ofExcept (ctx.depthOf i b.1))).andThen fun depth => ?_
    refine (ih others (i + 1) (ctx.bind b.1.name depth)).bind ?_
    rintro ⟨stores,inner⟩ _ rfl
    exact .pure rfl

theorem lowerBranches_carried {branches : List (Binder × Expr)}
    (each : ∀ b ∈ branches, LowersAlike b.2) (i : Nat) (ctx : Context) :
    Tracks SameMessage Eq (lowerBranches branches i ctx)
      (lowerBranches (carriedBindings branches) i ctx.carried) := by
  induction branches generalizing i with
  | nil => exact .pure rfl
  | cons b rest ih =>
    obtain ⟨here,others⟩ := List.forall_mem_cons.mp each
    rw [carriedBindings,lowerBranches,lowerBranches]
    refine (Tracks.refl _).andThen fun label => (ctx.require_carried b.1.type).bind ?_
    rintro c _ rfl
    refine (Tracks.refl (ofExcept (ctx.depthOf i b.1))).andThen fun depth => ?_
    refine (here ((ctx.bind b.1.name depth).part (i + 1))).andThen fun code => ?_
    refine (ih others (i + 1)).andThen fun rest => ?_
    have tags : ctx.carried.classes.conformingTags c.carried = ctx.classes.conformingTags c :=
      ClassTable.conformingTags_carried ..
    rw [tags]
    exact .refl _

theorem lowersAlike_binary (info : Info) (op : BinaryOp) {left right : Expr}
    (onLeft : LowersAlike left) (onRight : LowersAlike right) :
    LowersAlike (.binary info op left right) := by
  intro ctx
  cases op with
  | arith op =>
    rw [Expr.carried,BinaryOp.carried,Expr.lower,Expr.lower]
    · refine (Tracks.refl _).andThen fun _ => (onLeft (ctx.part 0)).andThen fun _ => ?_
      exact (onRight (ctx.part 1)).andThen fun _ => .refl _
    · exact fun _ => BinaryOp.noConfusion
  | compare op =>
    rw [Expr.carried,BinaryOp.carried,Expr.lower,Expr.lower,RelOp.mnemonic_carried]
    exact (onLeft (ctx.part 0)).andThen fun _ => (onRight (ctx.part 1)).andThen fun _ => .refl _
  | equal =>
    rw [Expr.carried,BinaryOp.carried,Expr.lower,Expr.lower]
    · exact (onLeft (ctx.part 0)).andThen fun _ => (onRight (ctx.part 1)).andThen fun _ => .refl _
    · exact fun _ => BinaryOp.noConfusion

/-- Every expression is lowered like the carried one. -/
theorem lowersAlike (e : Expr) : LowersAlike e := by
  induction e using Expr.induct with
  | absent => exact fun _ => .throw rfl
  | constant info value => exact fun _ => .refl _
  | ident info name scope =>
    intro ctx
    rw [Expr.carried,Expr.lower,Expr.lower]
    split
    next => exact .refl _
    next => exact (ctx.resolve_carried name scope).andThen fun _ => .pure rfl
  | assign info name scope value ih =>
    intro ctx
    rw [Expr.carried,Expr.lower,Expr.lower]
    refine (ih (ctx.part 0)).andThen fun _ => ?_
    exact (ctx.resolve_carried name scope).andThen fun _ => .pure rfl
  | unary info op operand ih =>
    intro ctx
    cases op <;> rw [Expr.carried,Expr.lower,Expr.lower] <;>
      exact (ih (ctx.part 0)).andThen fun _ => .refl _
  | binary info op left right ihLeft ihRight => exact lowersAlike_binary info op ihLeft ihRight
  | cond info test yes no ihTest ihYes ihNo =>
    intro ctx
    rw [Expr.carried,Expr.lower,Expr.lower]
    refine (ihTest (ctx.part 0)).andThen fun _ => (ihYes (ctx.part 1)).andThen fun _ => ?_
    exact (ihNo (ctx.part 2)).andThen fun _ => .refl _
  | loop info test body ihTest ihBody =>
    intro ctx
    rw [Expr.carried,Expr.lower,Expr.lower]
    exact (ihTest (ctx.part 0)).andThen fun _ => (ihBody (ctx.part 1)).andThen fun _ => .refl _
  | block info exprs ih =>
    intro ctx
    rw [Expr.carried,Expr.lower,Expr.lower]
    exact (lowerAll_carried ih 0 ctx).andThen fun _ => .refl _
  | letIn info bindings body ihBindings ihBody =>
    intro ctx
    rw [Expr.carried,Expr.lower,Expr.lower,length_carriedBindings]
    refine (lowerBindings_carried ihBindings 0 ctx).bind ?_
    rintro ⟨stores,inner⟩ _ rfl
    exact (ihBody (inner.part bindings.length)).andThen fun _ => .refl _
  | caseOf info scrutinee branches ihScrutinee ihBranches =>
    intro ctx
    rw [Expr.carried,Expr.lower,Expr.lower]
    refine (ihScrutinee (ctx.part 0)).andThen fun _ => (Tracks.refl _).andThen fun _ => ?_
    refine (Tracks.refl _).andThen fun _ => ?_
    exact (lowerBranches_carried ihBranches 0 ctx).andThen fun _ => .refl _
  | new info className =>
    intro ctx
    rw [Expr.carried,Expr.lower,Expr.lower]
    split
    next => exact .refl _
    next =>
      refine (ctx.require_carried className).bind ?_
      rintro c _ rfl
      exact .pure rfl
  | dispatch info receiver staticClass method args ihReceiver ihArgs =>
    intro ctx
    rw [Expr.carried,Expr.lower,Expr.lower,Context.target_carried]
    refine (lowerArgs_carried ihArgs 1 ctx).andThen fun _ => ?_
    refine (ihReceiver.optional (pure .loadSelf) (ctx.part 0)).andThen fun _ => ?_
    refine (Tracks.ofExcept_map _ _).bind ?_
    rintro target _ rfl
    rw [Context.slotOf_carried]
    exact .refl _

section Assembling

variable (options : Options) (classes : ClassTable)

theorem contextOf_carried (c : ClassEntry) (formals : List Binder)
    (planned : BindingSite → Option Nat) :
    contextOf options classes.carried c.carried (formals.map Binder.carried) planned =
      (contextOf options classes c formals planned).carried := by
  have file : (c.carried.decl.map (·.file)).getD [] = (c.decl.map (·.file)).getD [] := by
    simp only [ClassEntry.carried,Option.map_map]
    rfl
  rw [contextOf,contextOf,file]
  rfl

theorem prototypeWord_carried (slot : AttributeSlot) :
    prototypeWord classes.carried slot = prototypeWord classes slot := by
  have owned (owner : ClassEntry) : (owner.carried.attributes.find? (·.name = slot.name)).bind
      (·.raw) = (owner.attributes.find? (·.name = slot.name)).bind (·.raw) := by
    simp only [ClassEntry.carried,List.find?_map,Option.bind_map]
    rfl
  rw [prototypeWord,prototypeWord,ClassTable.require_carried]
  cases classes.require slot.className with
  | error e => rfl
  | ok owner =>
    simp only [Except.map,ofExcept,pure_bind]
    rw [owned]

theorem prototypeOf_carried (c : ClassEntry) :
    prototypeOf classes.carried c.carried = prototypeOf classes c := by
  simp only [prototypeOf,ClassEntry.name_carried,ClassEntry.tag_carried,
    ClassTable.slots_carried,ClassTable.objectSize_carried,prototypeWord_carried]

theorem dispatchTableOf_carried (c : ClassEntry) :
    dispatchTableOf classes.carried c.carried = dispatchTableOf classes c := by
  simp only [dispatchTableOf,ClassEntry.name_carried,ClassTable.entries_carried]

theorem attributeStore_carried (ctx : Context) (a : AttributeDecl) :
    Tracks SameMessage Eq (attributeStore ctx a) (attributeStore ctx.carried a.carried) := by
  have target : Location.ofAttribute ctx.carried.current.name
      (ctx.carried.classes.slots ctx.carried.current) a.carried.name =
        Location.ofAttribute ctx.current.name (ctx.classes.slots ctx.current) a.name := by
    simp only [Context.carried,ClassTable.slots_carried]
    rfl
  rw [attributeStore,attributeStore,target]
  refine (Tracks.refl _).andThen fun _ => ?_
  exact (lowersAlike a.init ctx).andThen fun _ => .refl _

theorem initialized_carried (c : ClassEntry) :
    c.carried.initialized = c.initialized.map AttributeDecl.carried := by
  simp only [ClassEntry.initialized,ClassEntry.carried,List.filter_map,Function.comp_def,
    AttributeDecl.carried,Expr.isAbsent_carried]

theorem initPlan_carried (c : ClassEntry) : initPlan c.carried = initPlan c := by
  have inits : (c.initialized.map AttributeDecl.carried).map (·.init) =
      carriedAll (c.initialized.map (·.init)) := by
    rw [carriedAll_eq,List.map_map,List.map_map]
    rfl
  rw [initPlan,initPlan,initialized_carried,inits,planAll_carried fun e _ => e.plan_carried]

theorem initRoutine_carried (c : ClassEntry) :
    Tracks SameMessage Eq (initRoutine options classes c)
      (initRoutine options classes.carried c.carried) := by
  have context : initContext id options classes.carried c.carried =
      (initContext id options classes c).carried := by
    rw [initContext,initPlan_carried]
    exact contextOf_carried options classes c [] _
  simp only [initRoutine,initRoutineIn,initialized_carried,initPlan_carried,context,
    List.zipIdx_map,ClassTable.parentNameOf?_carried,ClassEntry.name_carried]
  rw [List.mapM_map]
  exact (Tracks.mapM_eq fun x _ => attributeStore_carried (Context.part _ x.2) x.1).andThen
    fun _ => .refl _

theorem methodRoutine_carried (c : ClassEntry) (m : MethodDecl) :
    Tracks SameMessage Eq (methodRoutine options classes c m)
      (methodRoutine options classes.carried c.carried m.carried) := by
  have formals : m.carried.formals.length = m.formals.length := List.length_map ..
  have plan : methodPlan m.carried = methodPlan m :=
    @planAll_carried [m.body] (fun e _ => e.plan_carried) 0
  have context : methodContext id options classes.carried c.carried m.carried =
      (methodContext id options classes c m).carried := by
    rw [methodContext,plan]
    exact congrArg (Context.part · 0) (contextOf_carried options classes c m.formals _)
  rw [methodRoutine,methodRoutine,methodRoutineIn,methodRoutineIn,formals,plan,context]
  exact (lowersAlike m.body _).andThen fun _ => .refl _

theorem methodDecls_carried (cs : List ClassEntry) :
    (cs.map ClassEntry.carried).flatMap (·.methodDecls) =
      (cs.flatMap (·.methodDecls)).map fun owned => (owned.1.carried,owned.2.carried) := by
  have own (c : ClassEntry) : c.carried.methodDecls =
      c.methodDecls.map fun owned => (owned.1.carried,owned.2.carried) := by
    have methods : (c.carried.decl.map (·.methods)).getD [] =
        ((c.decl.map (·.methods)).getD []).map MethodDecl.carried := by
      cases declared : c.decl <;> simp [ClassEntry.carried,declared,ClassDecl.carried]
    rw [ClassEntry.methodDecls,ClassEntry.methodDecls,methods,List.map_map,List.map_map]
    rfl
  simp only [List.flatMap_map,List.map_flatMap,own]

/-- A carried table is assembled to the same image. -/
theorem assemble_carried :
    Tracks SameMessage Eq (assemble options classes) (assemble options classes.carried) := by
  simp only [assemble_eq,assembleWith,ClassTable.toList_carried,methodDecls_carried,List.mapM_map,
    Function.comp_def]
  refine (Tracks.mapM_eq fun c _ => ?_).andThen fun tables => ?_
  · rw [prototypeOf_carried,dispatchTableOf_carried]
    exact .refl _
  · refine (Tracks.mapM_eq fun c _ => initRoutine_carried options classes c).andThen fun inits => ?_
    refine (Tracks.mapM_eq fun owned _ => ?_).andThen fun methods => .refl _
    exact methodRoutine_carried options classes owned.1 owned.2

end Assembling

namespace Session

theorem rendered_eq {r other : EStateM.Result InternalError Supply Image}
    (alike : Alike SameMessage Eq r other) : rendered other = rendered r := by
  cases r with
  | ok image s =>
    cases other with
    | ok image' t => exact congrArg (fun image => rendered (.ok image t)) alike.1.symm
    | error => exact alike.elim
  | error e s =>
    cases other with
    | ok => exact alike.elim
    | error f t => exact congrArg Except.error alike.1.symm

/-- A carried program is compiled to the same text, or to the same error. -/
theorem output_carried (p : Program) (options : Options) :
    output p.carried options = output p options := by
  have laid := layout_eq p options
  have laidCarried := layout_eq p.carried options
  rw [tableWork_carried] at laidCarried
  cases work : tableWork p ClassTable.builtins with
  | error e table =>
    simp only [work,carriedOutcome] at laid laidCarried
    rw [output_of_failure laid,output_of_failure laidCarried]
  | ok u table =>
    obtain ⟨supply,names⟩ := nameClasses_runs table.toList firstSupply
    simp only [work,carriedOutcome,onSupply,ClassTable.toList_carried,nameClasses_carried,
      names] at laid laidCarried
    rw [output_of_layout laid,output_of_layout laidCarried]
    exact rendered_eq (assemble_carried options table supply)

end Session

end CoolBackend
