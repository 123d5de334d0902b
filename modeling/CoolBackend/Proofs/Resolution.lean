import CoolBackend.Proofs.Dispatching
import CoolBackend.Proofs.KnownClasses
import CoolBackend.Proofs.Lowerings
import CoolBackend.Proofs.PlannedDepths
import CoolBackend.Proofs.Verified

/-!
The verifier leaves three kinds of names to the code generator: the types of `case` branches, the
classes of `new`, and the static types of explicit receivers. Lowering verified code succeeds if all
of them have a class. If not, it stops at one that has none.
-/
namespace CoolBackend

open Verify

/-- A step that fails where a demanded name has no class, and only there. A result that it returns
satisfies `Q`. -/
def Resolves {α : Type} (table : ClassTable) (demands : String → Prop) (Q : α → Prop)
    (x : LowerM α) : Prop :=
  ∀ s, (∃ a t, x s = .ok a t ∧ Q a ∧ ∀ T, demands T → (table.find? T).isSome) ∨
    ∃ T t, x s = .error (.noLayout T) t ∧ demands T ∧ table.find? T = none

namespace Resolves

variable {α β : Type} {table : ClassTable} {demands more : String → Prop} {Q : α → Prop}
  {R : β → Prop}

theorem congr {x : LowerM α} (step : Resolves table demands Q x)
    (same : ∀ T, demands T ↔ more T) : Resolves table more Q x := by
  have equal : demands = more := funext fun T => propext (same T)
  rw [← equal]
  exact step

theorem bind {x : LowerM α} {f : α → LowerM β} (first : Resolves table demands Q x)
    (rest : ∀ a, Q a → Resolves table more R (f a)) :
    Resolves table (fun T => demands T ∨ more T) R (x >>= f) := by
  intro s
  rw [bind_run]
  rcases first s with ⟨a,t,run,holds,here⟩ | ⟨T,t,run,demanded,missing⟩
  · rw [run]
    rcases rest a holds t with ⟨b,u,run,holds,there⟩ | ⟨T,u,run,demanded,missing⟩
    · exact .inl ⟨b,u,run,holds,fun T either => either.elim (here T) (there T)⟩
    · exact .inr ⟨T,u,run,.inr demanded,missing⟩
  · rw [run]
    exact .inr ⟨T,t,rfl,.inl demanded,missing⟩

/-- A step that never fails demands nothing. -/
theorem of_runs {x : LowerM α} (runs : ∀ s, ∃ a t, x s = .ok a t ∧ Q a) :
    Resolves table (fun _ => False) Q x := by
  intro s
  obtain ⟨a,t,run,holds⟩ := runs s
  exact .inl ⟨a,t,run,holds,fun _ => False.elim⟩

theorem pure {a : α} (holds : Q a) : Resolves table (fun _ => False) Q (pure a) :=
  of_runs fun s => ⟨a,s,rfl,holds⟩

theorem newLabel (stem : String) : Resolves table (fun _ => False) (fun _ => True)
    (LowerM.newLabel stem) := of_runs fun _ => ⟨_,_,rfl,trivial⟩

theorem string (value : Bytes) : Resolves table (fun _ => False) (fun _ => True)
    (LowerM.string value) := of_runs fun _ => ⟨_,_,rfl,trivial⟩

theorem supply : Resolves table (fun _ => False) (fun _ => True) (get : LowerM Supply) :=
  of_runs fun _ => ⟨_,_,rfl,trivial⟩

theorem site (ctx : Context) (stem : String) (info : Info) :
    Resolves table (fun _ => False) (fun _ => True) (ctx.site stem info) :=
  of_runs fun _ => ⟨_,_,rfl,trivial⟩

theorem ofExcept_ok {x : Except InternalError α} {a : α} (value : x = .ok a) :
    Resolves table (fun _ => False) (fun _ => True) (ofExcept x) :=
  of_runs fun s => ⟨a,s,ofExcept_eq_ok.mpr ⟨value,rfl⟩,trivial⟩

theorem mapM {f : α → LowerM β} {needs : α → String → Prop} {xs : List α}
    (each : ∀ a ∈ xs, Resolves table (needs a) (fun _ => True) (f a)) :
    Resolves table (fun T => ∃ a ∈ xs, needs a T) (fun _ => True) (xs.mapM f) := by
  induction xs with
  | nil =>
    apply (pure trivial).congr
    simp
  | cons a rest ih =>
    obtain ⟨first,others⟩ := List.forall_mem_cons.mp each
    rw [List.mapM_cons]
    apply (first.bind fun _ _ => (ih others).bind fun _ _ => pure trivial).congr
    simp

end Resolves

theorem require_resolves {table : ClassTable} (name : String) :
    Resolves table (· = name) (fun c => c ∈ table.toList ∧ c.name = name)
      (ofExcept (table.require name)) := by
  intro s
  cases found : table.find? name with
  | none =>
    refine .inr ⟨name,s,?_,rfl,found⟩
    rw [ClassTable.require,found]
    rfl
  | some c =>
    refine .inl ⟨c,s,?_,ClassTable.mem_of_find? found,?_⟩
    · rw [ClassTable.require,found]
      rfl
    · rintro _ rfl
      rw [found]
      rfl

namespace Expr

/-- The names that lowering an expression looks up as classes of its own accord, without those that
its parts ask for. -/
def demands : Expr → List String
  | .caseOf _ _ branches => branches.map (·.1.type)
  | .new _ className => if className = selfType then [] else [className]
  | .dispatch _ receiver _ _ _ =>
    if receiver.isAbsent || receiver.staticType = "" || receiver.staticType = selfType then []
    else [receiver.staticType]
  | _ => []

def Demands (e : Expr) (T : String) : Prop := ∃ part ∈ e.parts, T ∈ part.demands

theorem Demands.present {e : Expr} {T : String} (asked : e.Demands T) : e.isAbsent = false := by
  cases e with
  | absent =>
    obtain ⟨part,member,-⟩ := asked
    cases member
  | _ => rfl

theorem demands_iff {e : Expr} {T : String} (present : e.isAbsent = false) :
    e.Demands T ↔ T ∈ e.demands ∨ ∃ child ∈ e.optional ++ e.required, child.Demands T := by
  simp only [Demands,mem_parts present]
  constructor
  · rintro ⟨part,rfl | ⟨child,inside,member⟩,asked⟩
    · exact .inl asked
    · exact .inr ⟨child,inside,part,member,asked⟩
  · rintro (asked | ⟨child,inside,part,member,asked⟩)
    · exact ⟨e,.inl rfl,asked⟩
    · exact ⟨part,.inr ⟨child,inside,member⟩,asked⟩

theorem Intact.required {e : Expr} (present : e.isAbsent = false) (intact : e.Intact) :
    ∀ child ∈ e.required, child.isAbsent = false ∧ child.Intact := by
  obtain ⟨complete,inner⟩ := (intact_iff present).mp intact
  exact fun child inside => ⟨complete.present child inside,
    inner child (List.mem_append_right _ inside)⟩

theorem Intact.optional {e : Expr} (present : e.isAbsent = false) (intact : e.Intact) :
    ∀ child ∈ e.optional, child.Intact := fun child inside =>
  ((intact_iff present).mp intact).2 child (List.mem_append_left _ inside)

end Expr

/-- The surroundings of an expression as the verifier and as lowering see them. -/
structure Surrounds (table : ClassTable) (ctx : Context) (sc : Verify.Scope) : Prop where
  classes : ctx.classes = table
  current : ctx.current ∈ table.toList
  className : sc.className = ctx.current.name
  formals : sc.formals = ctx.formals.map (·.name)
  locals : sc.locals = ctx.locals.map Prod.fst

def Expr.receiverType (receiver : Expr) : Option String :=
  if receiver.isAbsent then none else some receiver.staticType

namespace Surrounds

variable {table : ClassTable} {ctx : Context} {sc : Verify.Scope}
  (around : Surrounds table ctx sc)

include around

theorem bind (name : String) (depth : Nat) :
    Surrounds table (ctx.bind name depth) (sc.bind name) :=
  ⟨around.classes,around.current,around.className,around.formals,
    by rw [Scope.bind,Context.bind,around.locals]; rfl⟩

theorem part (k : Nat) : Surrounds table (ctx.part k) sc :=
  ⟨around.classes,around.current,around.className,around.formals,around.locals⟩

/-- The class of the receiver of a call. -/
theorem dynamic_class (info : Info) (receiver : Expr) (staticClass method : String)
    (args : List Expr) :
    (∃ d, (if receiver.isAbsent then .ok ctx.current else ctx.staticClass receiver.staticType :
        Except InternalError ClassEntry) = .ok d ∧ d ∈ table.toList ∧
      d.name = callTarget sc receiver.receiverType "" ∧
      ∀ T ∈ (Expr.dispatch info receiver staticClass method args).demands,
        (table.find? T).isSome) ∨
    ∃ T, (if receiver.isAbsent then .ok ctx.current else ctx.staticClass receiver.staticType :
        Except InternalError ClassEntry) = .error (.noLayout T) ∧
      T ∈ (Expr.dispatch info receiver staticClass method args).demands ∧
      table.find? T = none := by
  -- Only a type that is written out, and is not that of the receiver, is looked up.
  by_cases self : receiver.isAbsent
  · refine .inl ⟨ctx.current,by rw [if_pos self],around.current,?_,?_⟩
    · simp [callTarget,Expr.receiverType,self,around.className]
    · simp [Expr.demands,self]
  · by_cases unknown : receiver.staticType = "" ∨ receiver.staticType = selfType
    · refine .inl ⟨ctx.current,?_,around.current,?_,?_⟩
      · rw [if_neg self,Context.staticClass,if_pos (by simpa [or_comm] using unknown)]
      · simp [callTarget,Expr.receiverType,self,unknown,around.className]
      · rcases unknown with unknown | unknown
        · simp [Expr.demands,unknown]
        · simp [Expr.demands,unknown]
    · have asked : (Expr.dispatch info receiver staticClass method args).demands =
          [receiver.staticType] := by
        simp [Expr.demands,self,unknown]
      have lookup : (if receiver.isAbsent then .ok ctx.current
          else ctx.staticClass receiver.staticType : Except InternalError ClassEntry) =
          table.require receiver.staticType := by
        rw [if_neg self,Context.staticClass,if_neg (by simpa [or_comm] using unknown),
          around.classes]
      rw [lookup,asked]
      cases found : table.find? receiver.staticType with
      | none =>
        refine .inr ⟨receiver.staticType,?_,List.mem_singleton_self _,found⟩
        rw [ClassTable.require,found]
      | some d =>
        obtain ⟨member,name⟩ := ClassTable.mem_of_find? found
        refine .inl ⟨d,ClassTable.require_eq_ok.mpr found,member,?_,?_⟩
        · simp [callTarget,Expr.receiverType,self,unknown,name]
        · simp [found]

variable (ready : table.Ready) (named : ∀ c ∈ table.toList, c.name ≠ "")

include ready named

theorem resolve {span : Span} {name : String} {scope : Scope}
    (clean : Clean (checkVariable table.known sc span name scope)) :
    ∃ place, ctx.resolve name scope = .ok place := by
  cases scope with
  | attr =>
    rw [checkVariable,clean_unless rfl,around.className,
      ClassTable.hasAttribute_known named ready around.current] at clean
    rw [Context.resolve,around.classes]
    exact Location.ofAttribute_ok clean
  | formal =>
    rw [checkVariable,clean_unless rfl,around.formals,List.contains_iff_mem] at clean
    obtain ⟨f,member,same⟩ := List.mem_map.mp clean
    have found : (ctx.formals.findIdx? (·.name = name)).isSome := by
      rw [List.findIdx?_isSome,List.any_eq_true]
      exact ⟨f,member,decide_eq_true same⟩
    obtain ⟨i,found⟩ := Option.isSome_iff_exists.mp found
    refine ⟨⟨.frame,formalBase + wordSize * i⟩,?_⟩
    rw [Context.resolve,Location.ofFormal,found]
  | localVar =>
    rw [checkVariable,clean_unless rfl,around.locals,List.contains_iff_mem] at clean
    have found : (ctx.locals.lookup name).isSome := by
      rw [List.lookup_isSome_iff]
      obtain ⟨entry,member,same⟩ := List.mem_map.mp clean
      exact ⟨entry,member,by simp [same]⟩
    obtain ⟨depth,found⟩ := Option.isSome_iff_exists.mp found
    refine ⟨Location.ofDepth depth,?_⟩
    rw [Context.resolve,found]
  | unknown => cases clean_on.mp clean
  | other code => cases clean_on.mp clean

theorem slotOf {target : ClassEntry} {method : String} (member : target ∈ table.toList)
    (has : table.known.hasMethod target.name method) :
    ∃ slot, ctx.slotOf target method = .ok slot := by
  rw [ClassTable.hasMethod_known named ready member] at has
  obtain ⟨e,found⟩ := exists_find?_of_mem has
  refine ⟨e.slot,slotOf_eq_ok.mpr ?_⟩
  rw [around.classes]
  change ClassTable.slotIn? (table.entries target) method = _
  rw [ClassTable.slotIn?,found]
  rfl

/-- The class of a call, and in it the slot of the method. -/
theorem target_resolves (info : Info) {receiver : Expr} {staticClass method : String}
    (args : List Expr) (clean : Clean (checkCall table.known sc info.span receiver.receiverType
      staticClass method)) :
    Resolves table (· ∈ (Expr.dispatch info receiver staticClass method args).demands)
      (fun target => ∃ slot, ctx.slotOf target method = .ok slot)
      (ofExcept (ctx.target receiver staticClass)) := by
  obtain ⟨defined,has⟩ := clean_checkCall clean
  intro s
  rcases around.dynamic_class info receiver staticClass method args with
    ⟨d,dynamic,member,name,there⟩ | ⟨T,dynamic,asked,missing⟩
  · by_cases plain : staticClass = ""
    · subst plain
      rw [← name] at has
      refine .inl ⟨d,s,?_,around.slotOf ready named member has,there⟩
      rw [Context.target,dynamic]
      rfl
    · have same : callTarget sc receiver.receiverType staticClass = staticClass := by
        rw [callTarget.eq_def,if_neg plain]
      rw [same] at has defined
      rw [ClassTable.defines_known] at defined
      obtain ⟨c,found⟩ := Option.isSome_iff_exists.mp defined
      obtain ⟨memberC,nameC⟩ := ClassTable.mem_of_find? found
      rw [← nameC] at has
      refine .inl ⟨c,s,?_,around.slotOf ready named memberC has,there⟩
      rw [Context.target,dynamic,ok_bind,if_neg plain,around.classes,
        ClassTable.require_eq_ok.mpr found]
      rfl
  · refine .inr ⟨T,s,?_,asked,missing⟩
    rw [Context.target,dynamic]
    rfl

end Surrounds

/-- Lowering an expression that is there, complete and verified. -/
def Expr.Resolved (table : ClassTable) (e : Expr) : Prop :=
  e.isAbsent = false ∧ e.Intact → ∀ {ctx : Context} {sc : Verify.Scope}, Surrounds table ctx sc →
    ctx.Sees e.plan → Clean (checkExpr table.known e sc) →
    Resolves table e.Demands (fun _ => True) (e.lower ctx)

section Lists

variable {table : ClassTable} {ctx : Context} {sc : Verify.Scope}

theorem lowerAll_resolves {exprs : List Expr} {k : Nat}
    (inner : ∀ e ∈ exprs, e.Resolved table)
    (intact : ∀ e ∈ exprs, e.isAbsent = false ∧ e.Intact) (around : Surrounds table ctx sc)
    (seen : ctx.Sees (planAll k exprs)) (clean : Clean (checkExprs table.known exprs sc)) :
    Resolves table (fun T => ∃ e ∈ exprs, e.Demands T) (fun _ => True)
      (lowerAll exprs k ctx) := by
  induction exprs generalizing k with
  | nil =>
    apply (Resolves.pure trivial).congr
    simp
  | cons e rest ih =>
    obtain ⟨first,inner⟩ := List.forall_mem_cons.mp inner
    obtain ⟨here,intact⟩ := List.forall_mem_cons.mp intact
    obtain ⟨seenHere,seen⟩ := Context.sees_all.mp seen
    rw [checkExprs,clean_append] at clean
    rw [lowerAll]
    apply ((first here (around.part k) seenHere clean.1).bind fun _ _ =>
      (ih inner intact seen clean.2).bind fun _ _ => .pure trivial).congr
    simp

theorem lowerArgs_resolves {exprs : List Expr} {k : Nat}
    (inner : ∀ e ∈ exprs, e.Resolved table)
    (intact : ∀ e ∈ exprs, e.isAbsent = false ∧ e.Intact) (around : Surrounds table ctx sc)
    (seen : ctx.Sees (planAll k exprs)) (clean : Clean (checkExprs table.known exprs sc)) :
    Resolves table (fun T => ∃ e ∈ exprs, e.Demands T) (fun _ => True)
      (lowerArgs exprs k ctx) := by
  induction exprs generalizing k with
  | nil =>
    apply (Resolves.pure trivial).congr
    simp
  | cons e rest ih =>
    obtain ⟨first,inner⟩ := List.forall_mem_cons.mp inner
    obtain ⟨here,intact⟩ := List.forall_mem_cons.mp intact
    obtain ⟨seenHere,seen⟩ := Context.sees_all.mp seen
    rw [checkExprs,clean_append] at clean
    rw [lowerArgs]
    apply ((ih inner intact seen clean.2).bind fun _ _ =>
      (first here (around.part k) seenHere clean.1).bind fun _ _ => .pure trivial).congr
    simp [or_comm]

theorem defaultValue_runs (type : String) (s : Supply) :
    ∃ code t, defaultValue type s = .ok code t := by
  rw [defaultValue]
  split
  next => exact ⟨_,_,rfl⟩
  next =>
    split
    next => exact ⟨_,_,rfl⟩
    next =>
      split
      next => exact ⟨_,_,rfl⟩
      next => exact ⟨_,_,rfl⟩

/-- An expression that may be left out, where something takes its place that never fails. -/
theorem optional_resolves {e : Expr} {instead : LowerM Code} (inner : e.Resolved table)
    (intact : e.Intact) (around : Surrounds table ctx sc) (seen : ctx.Sees e.plan)
    (clean : Clean (checkExpr table.known e sc)) (runs : ∀ s, ∃ code t, instead s = .ok code t) :
    Resolves table e.Demands (fun _ => True)
      (if e.isAbsent then instead else e.lower ctx) := by
  by_cases missing : e.isAbsent
  · rw [if_pos missing]
    have draws (s : Supply) : ∃ code t, instead s = .ok code t ∧ True := by
      simpa using runs s
    apply (Resolves.of_runs draws).congr
    cases e with
    | absent => simp [Expr.Demands,Expr.parts]
    | _ => cases missing
  · rw [if_neg missing]
    exact inner ⟨by simpa using missing,intact⟩ around seen clean

theorem lowerBindings_resolves {bindings : List (Binder × Expr)} {i : Nat} {body : FramePlan}
    (inner : ∀ b ∈ bindings, b.2.Resolved table) (intact : ∀ b ∈ bindings, b.2.Intact)
    (around : Surrounds table ctx sc) (seen : ctx.Sees (planBindings i bindings body))
    (clean : Clean (checkBindings table.known bindings sc).1) :
    Resolves table (fun T => ∃ b ∈ bindings, b.2.Demands T)
      (fun r => Surrounds table r.2 (checkBindings table.known bindings sc).2 ∧ r.2.Sees body)
      (lowerBindings bindings i ctx) := by
  induction bindings generalizing i ctx sc with
  | nil =>
    rw [lowerBindings,checkBindings]
    apply (Resolves.pure (Q := fun r : List Code × Context =>
      Surrounds table r.2 sc ∧ r.2.Sees body) ⟨around,seen⟩).congr
    simp
  | cons b rest ih =>
    obtain ⟨b,init⟩ := b
    obtain ⟨first,inner⟩ := List.forall_mem_cons.mp inner
    obtain ⟨here,intact⟩ := List.forall_mem_cons.mp intact
    -- The variable is visible from the next binding on, so both scopes grow before the rest.
    rw [checkBindings] at clean ⊢
    simp only [clean_append] at clean
    rw [lowerBindings]
    obtain ⟨planned,seenInit,seen⟩ := Context.sees_binding.mp seen
    have value := optional_resolves first here (around.part i) seenInit clean.1.2
      (defaultValue_runs b.type)
    have depth : ctx.depthOf i b = .ok (scopeWords rest body.words) :=
      Context.depthOf_eq_ok.mpr planned
    rw [depth]
    apply (value.bind fun _ _ => (Resolves.ofExcept_ok rfl).bind fun _ same =>
      (ih inner intact (around.bind b.name _) seen clean.2).bind fun _ inside =>
        .pure inside).congr
    simp

theorem lowerBranches_resolves {branches : List (Binder × Expr)} {earlier : List String}
    (inner : ∀ b ∈ branches, b.2.Resolved table)
    {i : Nat} (intact : ∀ b ∈ branches, b.2.isAbsent = false ∧ b.2.Intact)
    (around : Surrounds table ctx sc) (seen : ctx.Sees (planBranches i branches))
    (clean : Clean (checkBranches table.known earlier branches sc)) :
    Resolves table (fun T => ∃ b ∈ branches, b.1.type = T ∨ b.2.Demands T) (fun _ => True)
      (lowerBranches branches i ctx) := by
  induction branches generalizing i earlier with
  | nil =>
    apply (Resolves.pure trivial).congr
    simp
  | cons b rest ih =>
    obtain ⟨b,body⟩ := b
    obtain ⟨first,inner⟩ := List.forall_mem_cons.mp inner
    obtain ⟨here,intact⟩ := List.forall_mem_cons.mp intact
    rw [checkBranches] at clean
    simp only [clean_append] at clean
    obtain ⟨planned,seenBody,seen⟩ := Context.sees_branch.mp seen
    have depth : ctx.depthOf i b = .ok body.words := Context.depthOf_eq_ok.mpr planned
    rw [lowerBranches,around.classes,depth]
    apply ((Resolves.newLabel "branch").bind fun _ _ => (require_resolves b.type).bind fun _ _ =>
      (Resolves.ofExcept_ok rfl).bind fun _ _ =>
        (first here ((around.bind b.name _).part (i + 1)) seenBody clean.1.2).bind fun _ _ =>
          (ih inner intact seen clean.2).bind fun _ _ => .pure trivial).congr
    intro T
    simp [eq_comm,or_assoc]

end Lists

namespace Expr

variable {table : ClassTable}

/-! One lemma for each kind of expression: it resolves if its parts do. -/

theorem resolved_constant (info : Info) (value : Constant) :
    (Expr.constant info value).Resolved table := by
  intro _ ctx sc _ _ _
  have runs (s : Supply) :
      ∃ code t, (Expr.constant info value).lower ctx s = .ok code t ∧ True := by
    cases value with
    | int | string | bool => exact ⟨_,_,rfl,trivial⟩
  apply (Resolves.of_runs runs).congr
  simp [Demands,parts,demands]

theorem resolved_unary (info : Info) (op : UnaryOp) {operand : Expr}
    (inner : operand.Resolved table) : (Expr.unary info op operand).Resolved table := by
  rintro ⟨-,intact⟩ ctx sc around seen clean
  have value := inner (intact.required rfl operand (by simp [required])) (around.part 0)
    (Context.sees_under.mp seen) clean
  have same : ∀ T, operand.Demands T ↔ (Expr.unary info op operand).Demands T := by
    intro T
    refine Iff.trans ?_ (demands_iff rfl).symm
    simp [demands,optional,required]
  cases op with
  | negate =>
    rw [lower]
    apply (value.bind fun _ _ => .pure trivial).congr
    simpa using same
  | not =>
    rw [lower]
    apply (value.bind fun _ _ => (Resolves.newLabel "not").bind fun _ _ => .pure trivial).congr
    simpa using same
  | isVoid =>
    rw [lower]
    apply (value.bind fun _ _ => (Resolves.newLabel "isvoid").bind fun _ _ => .pure trivial).congr
    simpa using same

theorem mnemonic_of_known {op : ArithOp} (known : op.isKnown) :
    ∃ mnemonic, op.mnemonic = .ok mnemonic := by
  cases op with
  | other code => cases known
  | _ => exact ⟨_,rfl⟩

theorem resolved_binary (info : Info) (op : BinaryOp) {left right : Expr}
    (inLeft : left.Resolved table) (inRight : right.Resolved table) :
    (Expr.binary info op left right).Resolved table := by
  rintro ⟨-,intact⟩ ctx sc around seen clean
  have inner := intact.required rfl
  rw [checkExpr,clean_append] at clean
  rw [plan,Context.sees_beside,Context.sees_under,Context.sees_under] at seen
  have first := inLeft (inner left (by simp [required])) (around.part 0) seen.1 clean.1
  have second := inRight (inner right (by simp [required])) (around.part 1) seen.2 clean.2
  have same : ∀ T, left.Demands T ∨ right.Demands T ↔
      (Expr.binary info op left right).Demands T := by
    intro T
    refine Iff.trans ?_ (demands_iff rfl).symm
    simp [demands,optional,required]
  cases op with
  | arith op =>
    obtain ⟨mnemonic,known⟩ := mnemonic_of_known ((intact_iff rfl).mp intact).1.codes
    rw [lower]
    apply ((Resolves.ofExcept_ok known).bind fun _ _ => first.bind fun _ _ =>
      second.bind fun _ _ => .pure trivial).congr
    simpa using same
  | compare op =>
    rw [lower]
    apply (first.bind fun _ _ => second.bind fun _ _ =>
      (Resolves.newLabel "compare").bind fun _ _ => .pure trivial).congr
    simpa using same
  | equal =>
    rw [lower]
    apply (first.bind fun _ _ => second.bind fun _ _ =>
      (Resolves.newLabel "eq").bind fun _ _ => .pure trivial).congr
    simpa using same

theorem resolved_cond (info : Info) {test yes no : Expr} (inTest : test.Resolved table)
    (inYes : yes.Resolved table) (inNo : no.Resolved table) :
    (Expr.cond info test yes no).Resolved table := by
  rintro ⟨-,intact⟩ ctx sc around seen clean
  have inner := intact.required rfl
  rw [checkExpr,clean_append,clean_append] at clean
  rw [lower]
  simp only [plan,Context.sees_beside,Context.sees_under] at seen
  have first := inTest (inner test (by simp [required])) (around.part 0) seen.1 clean.1.1
  have second := inYes (inner yes (by simp [required])) (around.part 1) seen.2.1 clean.1.2
  have third := inNo (inner no (by simp [required])) (around.part 2) seen.2.2 clean.2
  apply (first.bind fun _ _ => second.bind fun _ _ => third.bind fun _ _ =>
    (Resolves.newLabel "else").bind fun _ _ =>
      (Resolves.newLabel "endif").bind fun _ _ => .pure trivial).congr
  intro T
  refine Iff.trans ?_ (demands_iff rfl).symm
  simp [demands,optional,required]

theorem resolved_loop (info : Info) {test body : Expr} (inTest : test.Resolved table)
    (inBody : body.Resolved table) : (Expr.loop info test body).Resolved table := by
  rintro ⟨-,intact⟩ ctx sc around seen clean
  have inner := intact.required rfl
  rw [checkExpr,clean_append] at clean
  rw [lower]
  rw [plan,Context.sees_beside,Context.sees_under,Context.sees_under] at seen
  have first := inTest (inner test (by simp [required])) (around.part 0) seen.1 clean.1
  have second := inBody (inner body (by simp [required])) (around.part 1) seen.2 clean.2
  apply (first.bind fun _ _ => second.bind fun _ _ =>
    (Resolves.newLabel "while").bind fun _ _ =>
      (Resolves.newLabel "pool").bind fun _ _ => .pure trivial).congr
  intro T
  refine Iff.trans ?_ (demands_iff rfl).symm
  simp [demands,optional,required]

theorem resolved_block (info : Info) {exprs : List Expr} (inner : ∀ e ∈ exprs, e.Resolved table) :
    (Expr.block info exprs).Resolved table := by
  rintro ⟨-,intact⟩ ctx sc around seen clean
  rw [checkExpr,clean_append] at clean
  rw [lower]
  apply ((lowerAll_resolves inner (intact.required rfl) around seen clean.2).bind fun _ _ =>
    .pure trivial).congr
  intro T
  refine Iff.trans ?_ (demands_iff rfl).symm
  simp [demands,optional,required]

theorem resolved_let (info : Info) {bindings : List (Binder × Expr)} {body : Expr}
    (inBindings : ∀ b ∈ bindings, b.2.Resolved table) (inBody : body.Resolved table) :
    (Expr.letIn info bindings body).Resolved table := by
  rintro ⟨-,intact⟩ ctx sc around seen clean
  have inits : ∀ b ∈ bindings, b.2.Intact := fun b member =>
    intact.optional rfl b.2 (List.mem_map_of_mem member)
  rw [checkExpr] at clean
  simp only [clean_append] at clean
  rw [lower]
  have here := intact.required rfl body (by simp [required])
  apply ((lowerBindings_resolves inBindings inits around seen clean.1).bind fun _ inside =>
    (inBody here (inside.1.part bindings.length) (Context.sees_under.mp inside.2) clean.2).bind
      fun _ _ => .pure trivial).congr
  intro T
  refine Iff.trans ?_ (demands_iff rfl).symm
  simp only [demands,optional,required,List.mem_append,List.mem_map,List.mem_singleton]
  grind

theorem resolved_case (info : Info) {scrutinee : Expr} {branches : List (Binder × Expr)}
    (inScrutinee : scrutinee.Resolved table) (inBranches : ∀ b ∈ branches, b.2.Resolved table) :
    (Expr.caseOf info scrutinee branches).Resolved table := by
  rintro ⟨-,intact⟩ ctx sc around seen clean
  obtain ⟨here,bodies⟩ := List.forall_mem_cons.mp (intact.required rfl)
  rw [checkExpr,clean_append,clean_append] at clean
  rw [lower]
  rw [plan,Context.sees_beside,Context.sees_under] at seen
  have value := inScrutinee here (around.part 0) seen.1 clean.1.1
  have others := lowerBranches_resolves inBranches (List.forall_mem_map.mp bodies) around seen.2
    clean.2
  apply (value.bind fun _ _ => (Resolves.site ctx "case" info).bind fun _ _ =>
    (Resolves.newLabel "esac").bind fun _ _ => others.bind fun _ _ => .pure trivial).congr
  intro T
  refine Iff.trans ?_ (demands_iff rfl).symm
  simp only [demands,optional,required,List.nil_append,List.mem_cons,List.mem_map]
  grind

theorem resolved_new (info : Info) (className : String) :
    (Expr.new info className).Resolved table := by
  intro _ ctx sc around _ _
  rw [lower]
  by_cases self : className = selfType
  · rw [if_pos self]
    apply (Resolves.pure trivial).congr
    simp [Demands,parts,demands,self]
  · rw [if_neg self,around.classes]
    apply ((require_resolves className).bind fun _ _ => .pure trivial).congr
    simp [Demands,parts,demands,self]

variable (ready : table.Ready) (named : ∀ c ∈ table.toList, c.name ≠ "")

include ready named

theorem resolved_ident (info : Info) (name : String) (scope : Scope) :
    (Expr.ident info name scope).Resolved table := by
  intro _ ctx sc around _ clean
  have none : ∀ T, False ↔ (Expr.ident info name scope).Demands T := by
    simp [Demands,parts,demands]
  rw [checkExpr] at clean
  rw [lower]
  by_cases self : name = selfName
  · rw [if_pos self]
    exact (Resolves.pure trivial).congr none
  · rw [if_neg self] at clean ⊢
    obtain ⟨place,found⟩ := around.resolve ready named clean
    apply ((Resolves.ofExcept_ok found).bind fun _ _ => .pure trivial).congr
    simpa using none

theorem resolved_assign (info : Info) (name : String) (scope : Scope) {value : Expr}
    (inner : value.Resolved table) : (Expr.assign info name scope value).Resolved table := by
  rintro ⟨-,intact⟩ ctx sc around seen clean
  rw [checkExpr,clean_append] at clean
  obtain ⟨here,clean⟩ := clean
  by_cases self : name = selfName
  · rw [if_pos self] at here
    cases clean_on.mp here
  · rw [if_neg self] at here
    obtain ⟨place,found⟩ := around.resolve ready named here
    have source := inner (intact.required rfl value (by simp [required])) (around.part 0)
      (Context.sees_under.mp seen) clean
    rw [lower]
    apply (source.bind fun _ _ =>
      (Resolves.ofExcept_ok found).bind fun _ _ => .pure trivial).congr
    intro T
    refine Iff.trans ?_ (demands_iff rfl).symm
    simp [demands,optional,required]

theorem resolved_dispatch (info : Info) {receiver : Expr} (staticClass method : String)
    {args : List Expr} (inReceiver : receiver.Resolved table)
    (inArgs : ∀ e ∈ args, e.Resolved table) :
    (Expr.dispatch info receiver staticClass method args).Resolved table := by
  rintro ⟨-,intact⟩ ctx sc around seen clean
  rw [checkExpr,clean_append,clean_append] at clean
  have call := around.target_resolves ready named info args clean.2
  rw [plan,Context.sees_beside,Context.sees_under] at seen
  have object := optional_resolves inReceiver (intact.optional rfl receiver (by simp [optional]))
    (around.part 0) seen.1 clean.1.2 fun s => ⟨Code.loadSelf,s,pure_run _ s⟩
  rw [lower]
  apply ((lowerArgs_resolves inArgs (intact.required rfl) around seen.2 clean.1.1).bind fun _ _ =>
    object.bind fun _ _ => call.bind fun _ found =>
      (Resolves.ofExcept_ok found.choose_spec).bind fun _ _ =>
        (Resolves.site ctx "dispatch" info).bind fun _ _ => .pure trivial).congr
  intro T
  refine Iff.trans ?_ (demands_iff rfl).symm
  simp only [optional,required,List.singleton_append,List.mem_cons]
  grind

/-- Verified expressions fail to lower only for want of a class that they ask for. -/
theorem resolved (e : Expr) : e.Resolved table := by
  induction e using Expr.induct with
  | absent =>
    rintro ⟨missing,-⟩
    cases missing
  | constant info value => exact resolved_constant info value
  | ident info name scope => exact resolved_ident ready named info name scope
  | assign info name scope value ih => exact resolved_assign ready named info name scope ih
  | unary info op operand ih => exact resolved_unary info op ih
  | binary info op left right ihLeft ihRight => exact resolved_binary info op ihLeft ihRight
  | cond info test yes no ihTest ihYes ihNo => exact resolved_cond info ihTest ihYes ihNo
  | loop info test body ihTest ihBody => exact resolved_loop info ihTest ihBody
  | block info exprs ih => exact resolved_block info ih
  | letIn info bindings body ihBindings ihBody => exact resolved_let info ihBindings ihBody
  | caseOf info scrutinee branches ihScrutinee ihBranches =>
    exact resolved_case info ihScrutinee ihBranches
  | new info className => exact resolved_new info className
  | dispatch info receiver staticClass method args ihReceiver ihArgs =>
    exact resolved_dispatch ready named info staticClass method ihReceiver ihArgs

end Expr

end CoolBackend
