import CoolBackend.Syntax

/-!
A body keeps its `let` and `case` variables in words below the frame pointer. Variables that are
never alive together share words: a variable's depth is the number of words that its scope needs
beneath it, and a body needs as many words as the longest chain of nested scopes. All depths of a
frame are planned before its code is made.
-/
namespace CoolBackend

/-- Where a variable is bound: the place of its `let` or `case`, and which of the variables there it
is. Each number of a place picks a part of the expression before. The parts of a `let` are its
initializers and its body, those of a `case` what it examines and the bodies of its branches, and
those of a call its receiver and the arguments. -/
structure BindingSite where
  place : List Nat
  index : Nat
  deriving DecidableEq

/-- A site inside part `k`, seen from the whole. -/
def BindingSite.under (k : Nat) (site : BindingSite) : BindingSite :=
  { site with place := k :: site.place }

/-- The words of a frame, and the depths in the order in which they were found, the last one
first. -/
structure FramePlan where
  words : Nat := 0
  depths : List (BindingSite × Nat) := []

namespace FramePlan

def under (k : Nat) (plan : FramePlan) : FramePlan :=
  { plan with depths := plan.depths.map (Prod.map (BindingSite.under k) id) }

/-- What is evaluated one after the other uses the same words. -/
def beside (first second : FramePlan) : FramePlan :=
  { words := max first.words second.words, depths := second.depths ++ first.depths }

/-- A variable goes above the words that its scope needs. -/
def bind (plan : FramePlan) (index : Nat) : FramePlan :=
  { words := plan.words + 1, depths := (⟨[], index⟩, plan.words) :: plan.depths }

/-- The depth at a site. Depths belong to nodes, of which one can stand at several sites; then the
depth that was found last counts. -/
def depth? {Node : Type} [DecidableEq Node] (plan : FramePlan) (node : BindingSite → Node)
    (site : BindingSite) : Option Nat :=
  (plan.depths.find? (node ·.1 = node site)).map (·.2)

end FramePlan

mutual

def Expr.plan : Expr → FramePlan
  | .absent => {}
  | .constant _ _ => {}
  | .ident _ _ _ => {}
  | .new _ _ => {}
  | .assign _ _ _ value => value.plan.under 0
  | .unary _ _ operand => operand.plan.under 0
  | .binary _ _ left right => (left.plan.under 0).beside (right.plan.under 1)
  | .cond _ test yes no =>
    (test.plan.under 0).beside ((yes.plan.under 1).beside (no.plan.under 2))
  | .loop _ test body => (test.plan.under 0).beside (body.plan.under 1)
  | .block _ exprs => planAll 0 exprs
  | .letIn _ bindings body => planBindings 0 bindings (body.plan.under bindings.length)
  | .caseOf _ scrutinee branches => (scrutinee.plan.under 0).beside (planBranches 0 branches)
  | .dispatch _ receiver _ _ args => (receiver.plan.under 0).beside (planAll 1 args)

/-- Parts from part `k` on, which share a frame. -/
def planAll (k : Nat) : List Expr → FramePlan
  | [] => {}
  | e :: rest => (e.plan.under k).beside (planAll (k + 1) rest)

/-- `let` bindings from binding `i` on, with `inner` for the body. A variable is not alive while its
own initializer is evaluated. -/
def planBindings (i : Nat) : List (Binder × Expr) → FramePlan → FramePlan
  | [], inner => inner
  | (_, init) :: rest, inner =>
    ((planBindings (i + 1) rest inner).bind i).beside (init.plan.under i)

def planBranches (i : Nat) : List (Binder × Expr) → FramePlan
  | [] => {}
  | (_, body) :: rest => ((body.plan.under (i + 1)).bind i).beside (planBranches (i + 1) rest)

end

/-- What has a frame of its own: the initializers of a class together, and each of its methods. -/
inductive FrameOwner where
  | initializers (className : String)
  | method (className : String) (index : Nat)
  deriving DecidableEq

/-- Which places of a program hold the same node, as each node is named by one of its places. The
content of nodes does not tell: a class can be listed twice, and a binding can stand in two `let`s,
or be written out twice. -/
structure NodeNames where
  classAt : Nat → Nat
  binderAt : FrameOwner → BindingSite → FrameOwner × BindingSite

/-- In a tree, every place has a node of its own. -/
def NodeNames.tree : NodeNames := { classAt := id, binderAt := Prod.mk }

end CoolBackend
