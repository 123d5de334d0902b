import CoolBackend.Proofs.PlannedDepths

/-!
Where every place of a program has a node of its own, depths are found by places. Where nodes are
shared, they are found as well if the places of a node are planned at one depth.
-/
namespace CoolBackend

section Lookups

variable {Node : Type} [DecidableEq Node] {node : BindingSite → Node}

theorem FramePlan.depth?_of_injective (plan : FramePlan) (distinct : Function.Injective node) :
    plan.depth? node = plan.depth? id := by
  funext site
  simp only [depth?,distinct.eq_iff,id]

end Lookups

section Frames

variable {options : Options} {classes : ClassTable} {c : ClassEntry}

/-- The plan of a frame covers all variables that are bound in it. -/
theorem sees_planAll {ctx : Context} {exprs : List Expr}
    (planned : ctx.planned = (planAll 0 exprs).depth? id) : ctx.Sees (planAll 0 exprs) := by
  intro x member
  rw [planned]
  exact (steady_planAll exprs).depth?_eq member

theorem sees_initPlan (c : ClassEntry) : (initContext id options classes c).Sees (initPlan c) :=
  sees_planAll rfl

theorem sees_methodPlan (m : MethodDecl) :
    (methodContext id options classes c m).Sees m.body.plan :=
  have whole : (contextOf options classes c m.formals ((methodPlan m).depth? id)).Sees
      (methodPlan m) := sees_planAll rfl
  (Context.sees_all.mp whole).1

end Frames

section Trees

variable (options : Options) (classes : ClassTable)

theorem FramePlan.depth?_tree (plan : FramePlan) (owner : FrameOwner) :
    plan.depth? (NodeNames.tree.binderAt owner) = plan.depth? id :=
  plan.depth?_of_injective fun _ _ same => (Prod.mk.inj same).2

theorem initRoutineIn_tree (c : ClassEntry) (owner : FrameOwner) :
    initRoutineIn (NodeNames.tree.binderAt owner) options classes c =
      initRoutine options classes c := by
  rw [initRoutine,initRoutineIn,initRoutineIn,initContext,FramePlan.depth?_tree]
  rfl

theorem methodRoutineIn_tree (c : ClassEntry) (m : MethodDecl) (owner : FrameOwner) :
    methodRoutineIn (NodeNames.tree.binderAt owner) options classes c m =
      methodRoutine options classes c m := by
  rw [methodRoutine,methodRoutineIn,methodRoutineIn,methodContext,FramePlan.depth?_tree]
  rfl

theorem flatMap_zipIdx_fst {α β : Type} (f : α → List β) (xs : List α) :
    (xs.flatMap fun x => (f x).zipIdx).map Prod.fst = xs.flatMap f := by
  rw [List.map_flatMap]
  exact List.flatMap_congr fun x _ => List.zipIdx_map_fst 0 (f x)

theorem assemble_eq : assemble options classes =
    assembleWith options classes (classes.toList.mapM (initRoutine options classes))
      ((classes.toList.flatMap (·.methodDecls)).mapM fun r =>
        methodRoutine options classes r.1 r.2) := by
  have methods : (classes.toList.flatMap (·.methodDecls)).mapM
        (fun r => methodRoutine options classes r.1 r.2) =
      (classes.toList.flatMap (·.methodDecls.zipIdx)).mapM fun r =>
        methodRoutine options classes r.1.1 r.1.2 := by
    rw [← flatMap_zipIdx_fst ClassEntry.methodDecls,List.mapM_map]
    rfl
  have perInit : (fun c : ClassEntry =>
        initRoutineIn (NodeNames.tree.binderAt (.initializers c.name)) options classes c) =
      initRoutine options classes :=
    funext fun c => initRoutineIn_tree options classes c _
  have perMethod : (fun r : (ClassEntry × MethodDecl) × Nat =>
        methodRoutineIn (NodeNames.tree.binderAt (.method r.1.1.name r.2)) options classes
          r.1.1 r.1.2) =
      fun r => methodRoutine options classes r.1.1 r.1.2 :=
    funext fun r => methodRoutineIn_tree options classes r.1.1 r.1.2 _
  rw [methods,← perInit,← perMethod]
  rfl

end Trees

end CoolBackend
