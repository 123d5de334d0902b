import CoolBackend.Proofs.Expressions
import CoolBackend.Proofs.Runs
import CoolBackend.Wire

/-!
The record of a program holds less than the program: of a span its line and column, of a scope or a
comparison without a name of its own the one that it stands for. What is left, the carried program,
has the same record, and it is the only program that can be read from it.
-/
namespace CoolBackend

def Position.carried (p : Position) : Position := { line := p.line, column := p.column }

def Span.carried (span : Span) : Span := Span.point span.start.line span.start.column

def Scope.carried : Scope → Scope
  | .other _ => .unknown
  | scope => scope

def RelOp.carried : RelOp → RelOp
  | .other _ => .less
  | op => op

def BinaryOp.carried : BinaryOp → BinaryOp
  | .compare op => .compare op.carried
  | op => op

def Info.carried (info : Info) : Info := { info with span := info.span.carried }

def Binder.carried (b : Binder) : Binder := { b with span := b.span.carried }

mutual

def Expr.carried : Expr → Expr
  | .absent => .absent
  | .constant info value => .constant info.carried value
  | .ident info name scope => .ident info.carried name scope.carried
  | .assign info name scope value => .assign info.carried name scope.carried value.carried
  | .unary info op operand => .unary info.carried op operand.carried
  | .binary info op left right => .binary info.carried op.carried left.carried right.carried
  | .cond info test yes no => .cond info.carried test.carried yes.carried no.carried
  | .loop info test body => .loop info.carried test.carried body.carried
  | .block info exprs => .block info.carried (carriedAll exprs)
  | .letIn info bindings body => .letIn info.carried (carriedBindings bindings) body.carried
  | .caseOf info scrutinee branches =>
    .caseOf info.carried scrutinee.carried (carriedBindings branches)
  | .new info className => .new info.carried className
  | .dispatch info receiver staticClass method args =>
    .dispatch info.carried receiver.carried staticClass method (carriedAll args)

def carriedAll : List Expr → List Expr
  | [] => []
  | e :: rest => e.carried :: carriedAll rest

def carriedBindings : List (Binder × Expr) → List (Binder × Expr)
  | [] => []
  | (b,e) :: rest => (b.carried,e.carried) :: carriedBindings rest

end

def MethodDecl.carried (m : MethodDecl) : MethodDecl :=
  { m with span := m.span.carried, formals := m.formals.map Binder.carried, body := m.body.carried }

def ClassDecl.carried (c : ClassDecl) : ClassDecl :=
  { c with
    span := c.span.carried
    attributes := carriedBindings c.attributes
    methods := c.methods.map MethodDecl.carried }

def Program.carried (p : Program) : Program := ⟨p.classes.map ClassDecl.carried⟩

@[simp] theorem Scope.name_carried (scope : Scope) : scope.carried.name = scope.name := by
  cases scope <;> rfl

@[simp] theorem RelOp.symbol_carried (op : RelOp) : op.carried.symbol = op.symbol := by
  cases op <;> rfl

@[simp] theorem Info.span_carried (info : Info) : info.carried.span = info.span.carried := rfl

@[simp] theorem Binder.span_carried (b : Binder) : b.carried.span = b.span.carried := rfl

@[simp] theorem Binder.name_carried (b : Binder) : b.carried.name = b.name := rfl

@[simp] theorem Binder.type_carried (b : Binder) : b.carried.type = b.type := rfl

@[simp] theorem ClassDecl.span_carried (c : ClassDecl) : c.carried.span = c.span.carried := rfl

@[simp] theorem ClassDecl.name_carried (c : ClassDecl) : c.carried.name = c.name := rfl

@[simp] theorem ClassDecl.parentName_carried (c : ClassDecl) :
    c.carried.parentName = c.parentName := rfl

theorem carriedAll_eq (exprs : List Expr) : carriedAll exprs = exprs.map Expr.carried := by
  induction exprs with
  | nil => rfl
  | cons e rest ih => rw [carriedAll,ih,List.map_cons]

theorem carriedBindings_eq (bindings : List (Binder × Expr)) :
    carriedBindings bindings = bindings.map fun b => (b.1.carried,b.2.carried) := by
  induction bindings with
  | nil => rfl
  | cons b rest ih => rw [carriedBindings,ih,List.map_cons]

theorem Expr.isAbsent_carried (e : Expr) : e.carried.isAbsent = e.isAbsent := by
  cases e <;> rw [Expr.carried] <;> rfl

theorem Expr.staticType_carried (e : Expr) : e.carried.staticType = e.staticType := by
  cases e <;> rw [Expr.carried] <;> rfl

def Expr.operatorKnown : Expr → Bool
  | .binary _ (.arith op) _ _ => op.isKnown
  | _ => true

/-- What the reader asks of an expression: nothing required directly inside it is missing, and an
arithmetic operator has a meaning. -/
structure Expr.Readable (e : Expr) : Prop where
  present : ∀ child ∈ e.required, child.isAbsent = false
  operator : e.operatorKnown

instance (e : Expr) : Decidable e.Readable :=
  decidable_of_iff ((∀ child ∈ e.required, child.isAbsent = false) ∧ e.operatorKnown)
    ⟨fun ⟨present,operator⟩ => ⟨present,operator⟩,fun ⟨present,operator⟩ => ⟨present,operator⟩⟩

structure Program.Readable (p : Program) : Prop where
  bodies : ∀ c ∈ p.classes, ∀ m ∈ c.methods, m.body.isAbsent = false
  parts : ∀ e ∈ p.parts, e.Readable

theorem Expr.Complete.readable {e : Expr} (complete : e.Complete) : e.Readable := by
  refine ⟨complete.present,?_⟩
  cases e with
  | binary info op left right =>
    cases op with
    | arith op => exact complete.codes
    | _ => rfl
  | _ => rfl

theorem Program.Complete.readable {p : Program} (complete : p.Complete) : p.Readable :=
  ⟨complete.bodies,fun e member => (complete.parts e member).readable⟩

namespace Wire

theorem isNull_ofExpr (e : CoolBackend.Expr) : (ofExpr e).isNull = e.isAbsent := by
  cases e <;> simp [ofExpr,Expr.isNull,Expr.isAbsent]

theorem ofExprs_eq (exprs : List CoolBackend.Expr) : ofExprs exprs = exprs.map ofExpr := by
  induction exprs with
  | nil => rfl
  | cons e rest ih => rw [ofExprs,ih,List.map_cons]

theorem ofBindings_eq (bindings : List (CoolBackend.Binder × CoolBackend.Expr)) :
    ofBindings bindings = bindings.map fun b => some (Binder.ofBinder b.1,ofExpr b.2) := by
  induction bindings with
  | nil => rfl
  | cons b rest ih => rw [ofBindings,ih,List.map_cons]

theorem ofExprs_carried {exprs : List CoolBackend.Expr}
    (each : ∀ e ∈ exprs, ofExpr e.carried = ofExpr e) :
    ofExprs (carriedAll exprs) = ofExprs exprs := by
  rw [ofExprs_eq,ofExprs_eq,carriedAll_eq,List.map_map]
  exact List.map_congr_left each

theorem ofBindings_carried {bindings : List (CoolBackend.Binder × CoolBackend.Expr)}
    (each : ∀ b ∈ bindings, ofExpr b.2.carried = ofExpr b.2) :
    ofBindings (carriedBindings bindings) = ofBindings bindings := by
  rw [ofBindings_eq,ofBindings_eq,carriedBindings_eq,List.map_map]
  refine List.map_congr_left fun b member => ?_
  rw [Function.comp_apply,each b member]
  rfl

/-- What is lost is not in the record. -/
theorem ofExpr_carried (e : CoolBackend.Expr) : ofExpr e.carried = ofExpr e := by
  induction e using CoolBackend.Expr.induct with
  | absent => rfl
  | constant info value => cases value <;> rfl
  | ident info name scope =>
    rw [CoolBackend.Expr.carried,ofExpr,ofExpr,Scope.name_carried]
    rfl
  | assign info name scope value ih =>
    rw [CoolBackend.Expr.carried,ofExpr,ofExpr,Scope.name_carried,ih]
    rfl
  | unary info op operand ih =>
    rw [CoolBackend.Expr.carried,ofExpr,ofExpr,ih]
    rfl
  | binary info op left right ihLeft ihRight =>
    have fields : BinaryOp.fields info.carried op.carried = BinaryOp.fields info op := by
      cases op with
      | compare op =>
        simp only [BinaryOp.carried,BinaryOp.fields,RelOp.symbol_carried]
        rfl
      | _ => rfl
    rw [CoolBackend.Expr.carried,ofExpr,ofExpr,fields,ihLeft,ihRight]
  | cond info test yes no ihTest ihYes ihNo =>
    rw [CoolBackend.Expr.carried,ofExpr,ofExpr,ihTest,ihYes,ihNo]
    rfl
  | loop info test body ihTest ihBody =>
    rw [CoolBackend.Expr.carried,ofExpr,ofExpr,ihTest,ihBody]
    rfl
  | block info exprs ih =>
    rw [CoolBackend.Expr.carried,ofExpr,ofExpr,ofExprs_carried ih]
    rfl
  | letIn info bindings body ihBindings ihBody =>
    rw [CoolBackend.Expr.carried,ofExpr,ofExpr,ofBindings_carried ihBindings,ihBody]
    rfl
  | caseOf info scrutinee branches ihScrutinee ihBranches =>
    rw [CoolBackend.Expr.carried,ofExpr,ofExpr,ofBindings_carried ihBranches,ihScrutinee]
    rfl
  | new info className => rfl
  | dispatch info receiver staticClass method args ihReceiver ihArgs =>
    rw [CoolBackend.Expr.carried,ofExpr,ofExpr,ofExprs_carried ihArgs,ihReceiver]
    rfl

theorem ofMethod_carried (m : MethodDecl) : Method.ofMethod m.carried = Method.ofMethod m := by
  simp only [Method.ofMethod,MethodDecl.carried,ofExpr_carried,List.map_map]
  rfl

theorem ofClass_carried (c : ClassDecl) : Class.ofClass c.carried = Class.ofClass c := by
  simp only [Class.ofClass,ClassDecl.carried,List.map_map,
    ofBindings_carried fun a _ => ofExpr_carried a.2,Function.comp_def,ofMethod_carried]
  rfl

theorem ofProgram_carried (p : CoolBackend.Program) :
    Program.ofProgram p.carried = Program.ofProgram p := by
  simp only [Program.ofProgram,Program.carried,List.map_map,Function.comp_def,ofClass_carried]

end Wire

theorem Program.encode_carried (p : Program) : p.carried.encode = p.encode := by
  rw [encode,encode,Wire.ofProgram_carried]

namespace Wire

section Programs

variable {sound : Prop}

theorem scopeOf_name (scope : Scope) : Gives sound (scopeOf scope.name) scope.carried := by
  cases scope <;> exact .inl rfl

theorem comparisonOf_symbol (op : RelOp) :
    Gives sound (comparisonOf op.symbol) op.carried := by
  cases op <;> exact .inl rfl

theorem arithmeticOf_symbol {op : ArithOp} (known : sound → op.isKnown) :
    Gives sound (arithmeticOf op.symbol) op := by
  cases op with
  | other code => exact .inr ⟨fun holds => Bool.noConfusion (known holds),_,rfl⟩
  | _ => exact .inl rfl

/-- Reading the record of an expression that may be left out. -/
def optionalOf (e : CoolBackend.Expr) : Except RecordError CoolBackend.Expr :=
  orAbsent (ofExpr e) (ofExpr e).toExpr

theorem optionalOf_present {e : CoolBackend.Expr} (present : e.isAbsent = false) :
    optionalOf e = (ofExpr e).toExpr := by
  rw [optionalOf,orAbsent,isNull_ofExpr,present]
  rfl

theorem toExpr_of_optional {e : CoolBackend.Expr} (gives : Gives sound (optionalOf e) e.carried)
    (present : sound → e.isAbsent = false) : Gives sound (ofExpr e).toExpr e.carried := by
  cases absent : e.isAbsent with
  | true =>
    cases e with
    | absent => exact .inr ⟨fun holds => Bool.noConfusion (present holds),_,rfl⟩
    | _ => cases absent
  | false => exact optionalOf_present absent ▸ gives

theorem toExprs_ofExprs {exprs : List CoolBackend.Expr}
    (each : ∀ e ∈ exprs, Gives sound (ofExpr e).toExpr e.carried) :
    Gives sound (toExprs (ofExprs exprs)) (carriedAll exprs) := by
  rw [carriedAll_eq]
  exact Gives.steps (G := fun exprs => toExprs (ofExprs exprs)) (m := fun _ e => e) rfl
    (fun _ _ => rfl) each

theorem toBindings_ofBindings {bindings : List (CoolBackend.Binder × CoolBackend.Expr)}
    (each : ∀ b ∈ bindings, Gives sound (optionalOf b.2) b.2.carried) :
    Gives sound (toBindings (ofBindings bindings)) (carriedBindings bindings) := by
  rw [carriedBindings_eq]
  exact Gives.steps (G := fun bindings => toBindings (ofBindings bindings))
    (m := fun b e => (b.1.carried,e)) rfl (fun _ _ => rfl) each

theorem toBranches_ofBindings {branches : List (CoolBackend.Binder × CoolBackend.Expr)}
    (each : ∀ b ∈ branches, Gives sound (ofExpr b.2).toExpr b.2.carried) :
    Gives sound (toBranches (ofBindings branches)) (carriedBindings branches) := by
  rw [carriedBindings_eq]
  exact Gives.steps (G := fun branches => toBranches (ofBindings branches))
    (m := fun b e => (b.1.carried,e)) rfl (fun _ _ => rfl) each

/-- One level of an expression comes back when what stands directly inside it does. -/
theorem toExpr_ofExpr {e : CoolBackend.Expr} (present : e.isAbsent = false)
    (known : sound → e.operatorKnown)
    (optional : ∀ child ∈ e.optional, Gives sound (optionalOf child) child.carried)
    (required : ∀ child ∈ e.required, Gives sound (ofExpr child).toExpr child.carried) :
    Gives sound (ofExpr e).toExpr e.carried := by
  cases e with
  | absent => cases present
  | constant info value => cases value <;> exact .inl rfl
  | ident info name scope => exact (scopeOf_name scope).bind (.inl rfl)
  | assign info name scope value =>
    exact (required value (.head _)).bind ((scopeOf_name scope).bind (.inl rfl))
  | unary info op operand =>
    have operand := required operand (.head _)
    cases op <;> exact operand.bind (.inl rfl)
  | binary info op left right =>
    have left := required left (.head _)
    have right := required right (.tail _ (.head _))
    cases op with
    | arith op => exact left.bind (right.bind ((arithmeticOf_symbol known).bind (.inl rfl)))
    | compare op => exact left.bind (right.bind ((comparisonOf_symbol op).bind (.inl rfl)))
    | equal => exact left.bind (right.bind (.inl rfl))
  | cond info test yes no =>
    have test := required test (.head _)
    have yes := required yes (.tail _ (.head _))
    have no := required no (.tail _ (.tail _ (.head _)))
    exact test.bind (yes.bind (no.bind (.inl rfl)))
  | loop info test body =>
    have test := required test (.head _)
    have body := required body (.tail _ (.head _))
    exact test.bind (body.bind (.inl rfl))
  | block info exprs => exact (toExprs_ofExprs required).bind (.inl rfl)
  | letIn info bindings body =>
    have body := required body (.head _)
    have found := toBindings_ofBindings fun b member => optional b.2 (List.mem_map_of_mem member)
    exact body.bind (found.bind (.inl rfl))
  | caseOf info scrutinee branches =>
    have scrutinee := required scrutinee (.head _)
    have found := toBranches_ofBindings fun b member =>
      required b.2 (.tail _ (List.mem_map_of_mem member))
    exact scrutinee.bind (found.bind (.inl rfl))
  | new info className => exact .inl rfl
  | dispatch info receiver staticClass method args =>
    exact (optional receiver (.head _)).bind ((toExprs_ofExprs required).bind (.inl rfl))

theorem optionalOf_carried (e : CoolBackend.Expr)
    (readable : ∀ part ∈ e.parts, sound → part.Readable) :
    Gives sound (optionalOf e) e.carried := by
  refine CoolBackend.Expr.parts_induct (P := fun e => Gives sound (optionalOf e) e.carried)
    (.inl rfl) (fun e present own inner => ?_) readable
  rw [optionalOf_present present]
  refine toExpr_ofExpr present (fun holds => (own holds).operator) ?_ ?_
  · exact fun child inside => inner child (List.mem_append_left _ inside)
  · exact fun child inside => toExpr_of_optional (inner child (List.mem_append_right _ inside))
      fun holds => (own holds).present child inside

theorem toFormals_map (formals : List CoolBackend.Binder) :
    toFormals (formals.map fun f => some (Binder.ofBinder f)) =
      .ok (formals.map CoolBackend.Binder.carried) := by
  induction formals with
  | nil => rfl
  | cons f rest ih =>
    rw [List.map_cons,toFormals,ih]
    rfl

theorem toAttributes_ofBindings {className : String}
    {attributes : List (CoolBackend.Binder × CoolBackend.Expr)}
    (each : ∀ a ∈ attributes, Gives sound (optionalOf a.2) a.2.carried) :
    Gives sound (toAttributes className (ofBindings attributes)) (carriedBindings attributes) := by
  rw [carriedBindings_eq]
  exact Gives.steps (G := fun attributes => toAttributes className (ofBindings attributes))
    (m := fun a e => (a.1.carried,e)) rfl (fun _ _ => rfl)
    fun a member => (each a member).mapError _

theorem toMethod_ofMethod {className : String} {m : MethodDecl}
    (body : Gives sound (ofExpr m.body).toExpr m.body.carried) :
    Gives sound ((Method.ofMethod m).toMethod className) m.carried := by
  have formals : Gives sound (toFormals (Method.ofMethod m).formals)
      (m.formals.map CoolBackend.Binder.carried) := .inl (toFormals_map m.formals)
  exact (body.mapError _).bind (formals.bind (.inl rfl))

theorem toMethods_map {className : String} {methods : List MethodDecl}
    (each : ∀ m ∈ methods, Gives sound ((Method.ofMethod m).toMethod className) m.carried) :
    Gives sound (toMethods className (methods.map fun m => some (Method.ofMethod m)))
      (methods.map MethodDecl.carried) := by
  exact Gives.steps
    (G := fun methods => toMethods className (methods.map fun m => some (Method.ofMethod m)))
    (m := fun _ m => m) rfl (fun _ _ => rfl) each

theorem toClass_ofClass {c : ClassDecl}
    (bodies : sound → ∀ m ∈ c.methods, m.body.isAbsent = false)
    (parts : sound → ∀ e ∈ c.parts, e.Readable) :
    Gives sound (Class.ofClass c).toClass c.carried := by
  have attributes : Gives sound (toAttributes c.name (ofBindings c.attributes))
      (carriedBindings c.attributes) := by
    refine toAttributes_ofBindings fun a member => optionalOf_carried a.2 fun e inside holds => ?_
    exact parts holds e (ClassDecl.mem_parts.mpr (.inl ⟨a,member,inside⟩))
  have methods : Gives sound (toMethods c.name (c.methods.map fun m => some (Method.ofMethod m)))
      (c.methods.map MethodDecl.carried) := by
    refine toMethods_map fun m member => toMethod_ofMethod ?_
    refine toExpr_of_optional (optionalOf_carried m.body fun e inside holds => ?_)
      fun holds => bodies holds m member
    exact parts holds e (ClassDecl.mem_parts.mpr (.inr ⟨m,member,inside⟩))
  exact attributes.bind (methods.bind (.inl rfl))

theorem toClasses_map {classes : List ClassDecl} (index : Nat)
    (each : ∀ c ∈ classes, Gives sound (Class.ofClass c).toClass c.carried) :
    Gives sound (toClasses index (classes.map fun c => some (Class.ofClass c)))
      (classes.map ClassDecl.carried) := by
  induction classes generalizing index with
  | nil => exact .inl rfl
  | cons c rest ih =>
    rw [List.map_cons,toClasses]
    exact ((each c (by simp)).mapError _).bind
      ((ih _ fun c member => each c (by simp [member])).bind (.inl rfl))

/-- A program comes back from its records as it is carried, and as no other. -/
theorem toProgram_carried (p : CoolBackend.Program) (readable : sound → p.Readable) :
    Gives sound (Program.ofProgram p).toProgram p.carried := by
  refine (toClasses_map 0 fun c member => ?_).bind (.inl rfl)
  refine toClass_ofClass (fun holds => (readable holds).bodies c member) fun holds e inside => ?_
  exact (readable holds).parts e (List.mem_flatMap.mpr ⟨c,member,inside⟩)

end Programs

end Wire

end CoolBackend
