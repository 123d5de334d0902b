import CoolBackend.Syntax
import CoolBackend.Wire.Record

/-!
The expressions inside an expression, induction over them, and what it means that a program is
complete: nothing that the language requires is missing, and every code and position is one that the
language knows.
-/
namespace CoolBackend

namespace Expr

/-- Induction with a hypothesis for every expression in a list. -/
theorem induct {P : Expr → Prop} (absent : P .absent)
    (constant : ∀ info value, P (.constant info value))
    (ident : ∀ info name scope, P (.ident info name scope))
    (assign : ∀ info name scope value, P value → P (.assign info name scope value))
    (unary : ∀ info op operand, P operand → P (.unary info op operand))
    (binary : ∀ info op left right, P left → P right → P (.binary info op left right))
    (cond : ∀ info test yes no, P test → P yes → P no → P (.cond info test yes no))
    (loop : ∀ info test body, P test → P body → P (.loop info test body))
    (block : ∀ info exprs, (∀ e ∈ exprs, P e) → P (.block info exprs))
    (letIn : ∀ info bindings body, (∀ b ∈ bindings, P b.2) → P body →
      P (.letIn info bindings body))
    (caseOf : ∀ info scrutinee branches, P scrutinee → (∀ b ∈ branches, P b.2) →
      P (.caseOf info scrutinee branches))
    (new : ∀ info className, P (.new info className))
    (dispatch : ∀ info receiver staticClass method args, P receiver → (∀ e ∈ args, P e) →
      P (.dispatch info receiver staticClass method args)) (e : Expr) : P e :=
  @Expr.rec P (fun exprs => ∀ e ∈ exprs, P e) (fun bindings => ∀ b ∈ bindings, P b.2)
    (fun b => P b.2) absent constant ident assign unary binary cond loop block letIn caseOf new
    dispatch (List.forall_mem_nil _) (fun _ _ first rest => List.forall_mem_cons.mpr ⟨first,rest⟩)
    (List.forall_mem_nil _) (fun _ _ first rest => List.forall_mem_cons.mpr ⟨first,rest⟩)
    (fun _ _ here => here) e

/-- The expressions directly inside one that the language requires. -/
def required : Expr → List Expr
  | .assign _ _ _ value => [value]
  | .unary _ _ operand => [operand]
  | .binary _ _ left right => [left,right]
  | .cond _ test yes no => [test,yes,no]
  | .loop _ test body => [test,body]
  | .block _ exprs => exprs
  | .letIn _ _ body => [body]
  | .caseOf _ scrutinee branches => scrutinee :: branches.map Prod.snd
  | .dispatch _ _ _ _ args => args
  | .absent | .constant _ _ | .ident _ _ _ | .new _ _ => []

def optional : Expr → List Expr
  | .letIn _ bindings _ => bindings.map Prod.snd
  | .dispatch _ receiver _ _ _ => [receiver]
  | _ => []

/-- Induction from the expressions directly inside one to the whole. -/
theorem children_induct {P : Expr → Prop}
    (step : ∀ e, (∀ child ∈ e.optional ++ e.required, P child) → P e) (e : Expr) : P e := by
  induction e using induct with
  | absent => exact step _ (by simp [optional,required])
  | constant info value => exact step _ (by simp [optional,required])
  | ident info name scope => exact step _ (by simp [optional,required])
  | assign info name scope value ih => exact step _ (by simp [optional,required,ih])
  | unary info op operand ih => exact step _ (by simp [optional,required,ih])
  | binary info op left right ihLeft ihRight =>
    exact step _ (by simp [optional,required,ihLeft,ihRight])
  | cond info test yes no ihTest ihYes ihNo =>
    exact step _ (by simp [optional,required,ihTest,ihYes,ihNo])
  | loop info test body ihTest ihBody => exact step _ (by simp [optional,required,ihTest,ihBody])
  | block info exprs ih => exact step _ (by simpa [optional,required] using ih)
  | letIn info bindings body ihBindings ihBody =>
    exact step _ (List.forall_mem_append.mpr
      ⟨List.forall_mem_map.mpr ihBindings,List.forall_mem_singleton.mpr ihBody⟩)
  | caseOf info scrutinee branches ihScrutinee ihBranches =>
    exact step _ (List.forall_mem_cons.mpr
      ⟨ihScrutinee,List.forall_mem_map.mpr ihBranches⟩)
  | new info className => exact step _ (by simp [optional,required])
  | dispatch info receiver staticClass method args ihReceiver ihArgs =>
    exact step _ (List.forall_mem_cons.mpr ⟨ihReceiver,ihArgs⟩)

mutual

/-- All expressions inside one, and itself. Absent ones do not count. -/
def parts : Expr → List Expr
  | .absent => []
  | .constant info value => [.constant info value]
  | .ident info name scope => [.ident info name scope]
  | .assign info name scope value => .assign info name scope value :: value.parts
  | .unary info op operand => .unary info op operand :: operand.parts
  | .binary info op left right => .binary info op left right :: (left.parts ++ right.parts)
  | .cond info test yes no => .cond info test yes no :: (test.parts ++ yes.parts ++ no.parts)
  | .loop info test body => .loop info test body :: (test.parts ++ body.parts)
  | .block info exprs => .block info exprs :: listParts exprs
  | .letIn info bindings body => .letIn info bindings body :: (bindingParts bindings ++ body.parts)
  | .caseOf info scrutinee branches =>
    .caseOf info scrutinee branches :: (scrutinee.parts ++ bindingParts branches)
  | .new info className => [.new info className]
  | .dispatch info receiver staticClass method args =>
    .dispatch info receiver staticClass method args :: (receiver.parts ++ listParts args)

def listParts : List Expr → List Expr
  | [] => []
  | e :: rest => e.parts ++ listParts rest

def bindingParts : List (Binder × Expr) → List Expr
  | [] => []
  | (_,e) :: rest => e.parts ++ bindingParts rest

end

theorem listParts_eq (exprs : List Expr) : listParts exprs = exprs.flatMap parts := by
  induction exprs with
  | nil => rfl
  | cons e rest ih => rw [listParts,ih,List.flatMap_cons]

theorem bindingParts_eq (bindings : List (Binder × Expr)) :
    bindingParts bindings = (bindings.map Prod.snd).flatMap parts := by
  induction bindings with
  | nil => rfl
  | cons b rest ih => rw [bindingParts,ih,List.map_cons,List.flatMap_cons]

/-- What is inside an expression is inside one of those directly inside it. -/
theorem mem_parts {e part : Expr} (present : e.isAbsent = false) :
    part ∈ e.parts ↔ part = e ∨ ∃ child ∈ e.optional ++ e.required, part ∈ child.parts := by
  cases e with
  | absent => cases present
  | _ => simp [parts,optional,required,listParts_eq,bindingParts_eq]

theorem self_mem_parts {e : Expr} (present : e.isAbsent = false) : e ∈ e.parts :=
  (mem_parts present).mpr (.inl rfl)

theorem mem_parts_of_child {e child part : Expr} (inside : child ∈ e.optional ++ e.required)
    (member : part ∈ child.parts) : part ∈ e.parts := by
  cases e with
  | absent => cases inside
  | _ => exact (mem_parts rfl).mpr (.inr ⟨child,inside,member⟩)

/-- Induction over an expression whose parts all satisfy `Q`. -/
theorem parts_induct {P Q : Expr → Prop} (absent : P .absent)
    (step : ∀ e, e.isAbsent = false → Q e → (∀ child ∈ e.optional ++ e.required, P child) → P e)
    {e : Expr} (all : ∀ part ∈ e.parts, Q part) : P e := by
  induction e using children_induct with
  | step e ih =>
    have inner : ∀ child ∈ e.optional ++ e.required, P child := fun child inside =>
      ih child inside fun part member => all part (mem_parts_of_child inside member)
    by_cases missing : e.isAbsent = true
    · cases e with
      | absent => exact absent
      | _ => cases missing
    · have present : e.isAbsent = false := by simpa using missing
      exact step e present (all e (self_mem_parts present)) inner

/-- The names that an expression declares. -/
def binders : Expr → List Binder
  | .letIn _ bindings _ => bindings.map Prod.fst
  | .caseOf _ _ branches => branches.map Prod.fst
  | _ => []

def receiver : Expr → Expr
  | .dispatch _ receiver _ _ _ => receiver
  | _ => .absent

def operands : Expr → List Expr
  | .assign _ _ _ value => [value]
  | .unary _ _ operand => [operand]
  | .binary _ _ left right => [left,right]
  | .cond _ test yes no => [test,yes,no]
  | .loop _ test body => [test,body]
  | .block _ exprs => exprs
  | .letIn _ _ body => [body]
  | .caseOf _ scrutinee _ => [scrutinee]
  | .dispatch _ _ _ _ args => args
  | _ => []

def bindings : Expr → List (Binder × Expr)
  | .letIn _ bindings _ => bindings
  | .caseOf _ _ branches => branches
  | _ => []

def names : Expr → List String
  | .ident _ name _ => [name]
  | .assign _ name _ _ => [name]
  | .new _ className => [className]
  | .dispatch _ _ staticClass method _ => [method,staticClass]
  | _ => []

def content : Expr → Bytes
  | .constant _ (.string value) => value
  | _ => []

theorem binders_eq (e : Expr) : e.binders = e.bindings.map Prod.fst := by
  cases e <;> rfl

/-- What is directly inside an expression has one of these places. -/
theorem child_cases {e child : Expr} (inside : child ∈ e.optional ++ e.required) :
    child = e.receiver ∨ child ∈ e.operands ∨ child ∈ e.bindings.map Prod.snd := by
  cases e with
  | letIn info bindings body =>
    rcases List.mem_append.mp inside with inside | inside
    · exact .inr (.inr inside)
    · exact .inr (.inl inside)
  | caseOf info scrutinee branches =>
    rcases List.mem_cons.mp inside with rfl | inside
    · exact .inr (.inl (.head _))
    · exact .inr (.inr inside)
  | dispatch info receiver staticClass method args =>
    rcases List.mem_cons.mp inside with rfl | inside
    · exact .inl rfl
    · exact .inr (.inl inside)
  | _ => exact .inr (.inl inside)

end Expr

/-- Codes that have a meaning. -/
def Scope.isKnown : Scope → Bool
  | .other _ => false
  | _ => true

def ArithOp.isKnown : ArithOp → Bool
  | .other _ => false
  | _ => true

def RelOp.isKnown : RelOp → Bool
  | .other _ => false
  | _ => true

def Expr.codesKnown : Expr → Bool
  | .ident _ _ scope => scope.isKnown
  | .assign _ _ scope _ => scope.isKnown
  | .binary _ (.arith op) _ _ => op.isKnown
  | .binary _ (.compare op) _ _ => op.isKnown
  | _ => true

/-- Nothing that is required directly inside an expression is missing, and its codes have a
meaning. -/
structure Expr.Complete (e : Expr) : Prop where
  present : ∀ child ∈ e.required, child.isAbsent = false
  codes : e.codesKnown

instance (e : Expr) : Decidable e.Complete :=
  decidable_of_iff ((∀ child ∈ e.required, child.isAbsent = false) ∧ e.codesKnown)
    ⟨fun ⟨present,codes⟩ => ⟨present,codes⟩,fun ⟨present,codes⟩ => ⟨present,codes⟩⟩

def Expr.Intact (e : Expr) : Prop := ∀ part ∈ e.parts, part.Complete

theorem Expr.intact_iff {e : Expr} (present : e.isAbsent = false) :
    e.Intact ↔ e.Complete ∧ ∀ child ∈ e.optional ++ e.required, child.Intact := by
  simp only [Intact,mem_parts present]
  constructor
  · intro all
    exact ⟨all e (.inl rfl),fun child inside part member => all part (.inr ⟨child,inside,member⟩)⟩
  · rintro ⟨here,inner⟩ part (rfl | ⟨child,inside,member⟩)
    · exact here
    · exact inner child inside part member

def ClassDecl.parts (c : ClassDecl) : List Expr :=
  c.attributes.flatMap (·.2.parts) ++ c.methods.flatMap (·.body.parts)

def Program.parts (p : Program) : List Expr := p.classes.flatMap ClassDecl.parts

theorem ClassDecl.mem_parts {c : ClassDecl} {e : Expr} :
    e ∈ c.parts ↔ (∃ a ∈ c.attributes, e ∈ a.2.parts) ∨ ∃ m ∈ c.methods, e ∈ m.body.parts := by
  simp [parts]

structure Program.Complete (p : Program) : Prop where
  bodies : ∀ c ∈ p.classes, ∀ m ∈ c.methods, m.body.isAbsent = false
  parts : ∀ e ∈ p.parts, e.Complete

/-- Induction with a hypothesis for every record in a list. -/
theorem Wire.Expr.induct {P : Expr → Prop} (null : P .null)
    (node : ∀ fields receiver kids bindings, P receiver → (∀ kid ∈ kids, P kid) →
      (∀ b e, some (b,e) ∈ bindings → P e) → P (.node fields receiver kids bindings))
    (e : Expr) : P e :=
  @Expr.rec P (fun kids => ∀ kid ∈ kids, P kid) (fun bindings => ∀ b e, some (b,e) ∈ bindings → P e)
    (fun entry => ∀ b e, entry = some (b,e) → P e) (fun pair => P pair.2) null node
    (List.forall_mem_nil _) (fun _ _ first rest => List.forall_mem_cons.mpr ⟨first,rest⟩)
    (fun _ _ member => by cases member)
    (fun _ _ first rest b e member => (List.mem_cons.mp member).elim
      (fun same => first b e same.symm) (rest b e))
    (fun _ _ none => by cases none)
    (fun _ here _ _ same => by cases same; exact here)
    (fun _ _ here => here) e

end CoolBackend
