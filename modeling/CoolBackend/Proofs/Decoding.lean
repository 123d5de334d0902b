import CoolBackend.Proofs.Expressions
import CoolBackend.Proofs.Runs
import CoolBackend.Wire

/-!
A program that was read from bytes is complete. The reader checks each record before it builds an
expression from it, so that nothing required is missing and no code is without a meaning.
-/
namespace CoolBackend.Wire

def Yields (record : Expr) : Prop :=
  ∀ e, record.toExpr = .ok e → e.isAbsent = false ∧ e.Intact

theorem scopeOf_known {name : String} {scope : Scope} (run : scopeOf name = .ok scope) :
    scope.isKnown := by
  rw [scopeOf] at run
  split at run
  next => cases run; rfl
  next =>
    split at run
    next found =>
      cases run
      have member := List.mem_of_find?_eq_some found
      revert member
      cases scope <;> simp [Scope.isKnown]
    next => cases run

theorem arithmeticOf_known {symbol : String} {op : ArithOp} (run : arithmeticOf symbol = .ok op) :
    op.isKnown := by
  rw [arithmeticOf] at run
  split at run
  next found =>
    cases run
    have member := List.mem_of_find?_eq_some found
    revert member
    cases op <;> simp [ArithOp.isKnown]
  next => cases run

theorem comparisonOf_known {symbol : String} {op : RelOp} (run : comparisonOf symbol = .ok op) :
    op.isKnown := by
  rw [comparisonOf] at run
  split at run
  next found =>
    cases run
    have member := List.mem_of_find?_eq_some found
    revert member
    cases op <;> simp [RelOp.isKnown]
  next => cases run

theorem intact_of_orAbsent {record : Expr} {e : CoolBackend.Expr} (yields : Yields record)
    (run : orAbsent record record.toExpr = .ok e) : e.Intact := by
  rw [orAbsent] at run
  split at run
  next =>
    cases run
    exact List.forall_mem_nil _
  next => exact (yields e run).2

theorem toExprs_origin {records : List Expr} {exprs : List CoolBackend.Expr}
    (run : toExprs records = .ok exprs) : exprs.length = records.length ∧
      ∀ e ∈ exprs, ∃ record ∈ records, record.toExpr = .ok e := by
  refine origins_of_steps (G := fun records exprs => toExprs records = .ok exprs) ?_ ?_ run
  · intro exprs run
    exact (Except.ok.inj run).symm
  · intro record records exprs run
    rw [toExprs] at run
    obtain ⟨e,here,run⟩ := except_bind_eq_ok.mp run
    obtain ⟨rest,there,run⟩ := except_bind_eq_ok.mp run
    exact ⟨e,rest,here,there,Except.ok.inj run⟩

def BindingOf (read : Expr → Except RecordError CoolBackend.Expr) (record : Binder × Expr)
    (b : CoolBackend.Binder × CoolBackend.Expr) : Prop :=
  b.1 = record.1.toBinder ∧ read record.2 = .ok b.2

theorem toBindings_origin {records : List (Option (Binder × Expr))}
    {bindings : List (CoolBackend.Binder × CoolBackend.Expr)}
    (run : toBindings records = .ok bindings) : bindings.length = records.length ∧
      ∀ b ∈ bindings, ∃ record, some record ∈ records ∧
        BindingOf (fun e => orAbsent e e.toExpr) record b := by
  refine entries_of_steps (G := fun records bindings => toBindings records = .ok bindings)
    (fun _ run => (Except.ok.inj run).symm) (fun _ _ run => by cases run) ?_ run
  intro record records bindings run
  rw [toBindings] at run
  obtain ⟨e,here,run⟩ := except_bind_eq_ok.mp run
  obtain ⟨rest,there,run⟩ := except_bind_eq_ok.mp run
  exact ⟨_,rest,⟨rfl,here⟩,there,Except.ok.inj run⟩

theorem toBranches_origin {records : List (Option (Binder × Expr))}
    {branches : List (CoolBackend.Binder × CoolBackend.Expr)}
    (run : toBranches records = .ok branches) : branches.length = records.length ∧
      ∀ b ∈ branches, ∃ record, some record ∈ records ∧ BindingOf Expr.toExpr record b := by
  refine entries_of_steps (G := fun records branches => toBranches records = .ok branches)
    (fun _ run => (Except.ok.inj run).symm) (fun _ _ run => by cases run) ?_ run
  intro record records branches run
  rw [toBranches] at run
  obtain ⟨e,here,run⟩ := except_bind_eq_ok.mp run
  obtain ⟨rest,there,run⟩ := except_bind_eq_ok.mp run
  exact ⟨_,rest,⟨rfl,here⟩,there,Except.ok.inj run⟩

theorem orAbsent_cases {record : Expr} {e : CoolBackend.Expr}
    (run : orAbsent record record.toExpr = .ok e) : e = .absent ∨ record.toExpr = .ok e := by
  rw [orAbsent] at run
  split at run
  next => exact .inl (Except.ok.inj run).symm
  next => exact .inr run

theorem orAbsent_of_toExpr {record : Expr} {e : CoolBackend.Expr}
    (run : record.toExpr = .ok e) : orAbsent record record.toExpr = .ok e := by
  cases record with
  | null => cases run
  | node => exact run

structure ReadFrom (f : Fields) (receiver : Expr) (kids : List Expr)
    (bindings : List (Option (Binder × Expr))) (e : CoolBackend.Expr) : Prop where
  present : e.isAbsent = false
  codes : e.codesKnown
  info : e.info = f.info
  names : ∀ s ∈ e.names, s = f.name ∨ s = f.className
  content : e.content = [] ∨ e.content = f.str
  receiver : e.receiver = .absent ∨ receiver.toExpr = .ok e.receiver
  operands : e.operands = [] ∨ toExprs kids = .ok e.operands
  bindings : e.bindings.length ≤ bindings.length ∧ ∀ b ∈ e.bindings, ∃ record,
    some record ∈ bindings ∧ BindingOf (fun e => orAbsent e e.toExpr) record b
  /-- Where there are bindings there is an operand as well. -/
  body : e.bindings ≠ [] → e.operands ≠ []
  /-- What is required was not left out. -/
  required : ∀ child ∈ e.required, ∃ record : Expr, record.toExpr = .ok child

section Reading

variable {f : Fields} {receiver : Expr} {kids : List Expr}
  {bindings : List (Option (Binder × Expr))} {e : CoolBackend.Expr}

theorem required_of_toExprs {exprs : List CoolBackend.Expr} (run : toExprs kids = .ok exprs) :
    ∀ child ∈ exprs, ∃ record : Expr, record.toExpr = .ok child := by
  intro child member
  obtain ⟨record,-,read⟩ := (toExprs_origin run).2 child member
  exact ⟨record,read⟩

/-- Expressions that have operands and nothing else inside them. -/
theorem readFrom_operands (plain : e.isAbsent = false ∧ e.info = f.info ∧ e.receiver = .absent ∧
      e.bindings = [] ∧ e.required = e.operands) (codes : e.codesKnown)
    (names : ∀ s ∈ e.names, s = f.name ∨ s = f.className)
    (content : e.content = [] ∨ e.content = f.str)
    (operands : e.operands = [] ∨ toExprs kids = .ok e.operands) :
    ReadFrom f receiver kids bindings e := by
  obtain ⟨present,info,alone,unbound,required⟩ := plain
  refine ⟨present,codes,info,names,content,.inl alone,operands,?_,absurd unbound,?_⟩
  · rw [unbound]
    exact ⟨Nat.zero_le _,List.forall_mem_nil _⟩
  · rw [required]
    rcases operands with none | read
    · rw [none]
      exact List.forall_mem_nil _
    · exact required_of_toExprs read

theorem readFrom_of_toExpr (run : (Expr.node f receiver kids bindings).toExpr = .ok e) :
    ReadFrom f receiver kids bindings e := by
  rw [Expr.toExpr.eq_def] at run
  simp only at run
  -- A kind that lacks operands has failed, so each case has the records that its kind needs.
  generalize Kind.ofName? f.kind = kind at run
  have nameless : ∀ s ∈ ([] : List String), s = f.name ∨ s = f.className := List.forall_mem_nil _
  have named : ∀ s ∈ [f.name], s = f.name ∨ s = f.className :=
    List.forall_mem_singleton.mpr (.inl rfl)
  have classed : ∀ s ∈ [f.className], s = f.name ∨ s = f.className :=
    List.forall_mem_singleton.mpr (.inr rfl)
  cases kind with
  | none => cases run
  | some kind =>
    cases kind with
    | int | bool =>
      cases run
      exact readFrom_operands ⟨rfl,rfl,rfl,rfl,rfl⟩ rfl nameless (.inl rfl) (.inl rfl)
    | string =>
      cases run
      exact readFrom_operands ⟨rfl,rfl,rfl,rfl,rfl⟩ rfl nameless (.inr rfl) (.inl rfl)
    | new =>
      cases run
      exact readFrom_operands ⟨rfl,rfl,rfl,rfl,rfl⟩ rfl classed (.inl rfl) (.inl rfl)
    | ident =>
      obtain ⟨scope,known,run⟩ := except_bind_eq_ok.mp run
      cases run
      exact readFrom_operands ⟨rfl,rfl,rfl,rfl,rfl⟩ (scopeOf_known known) named (.inl rfl) (.inl rfl)
    | block =>
      obtain ⟨exprs,inner,run⟩ := except_bind_eq_ok.mp run
      cases run
      exact readFrom_operands ⟨rfl,rfl,rfl,rfl,rfl⟩ rfl nameless (.inl rfl) (.inr inner)
    | dispatch =>
      obtain ⟨object,here,run⟩ := except_bind_eq_ok.mp run
      obtain ⟨args,inner,run⟩ := except_bind_eq_ok.mp run
      cases run
      exact ⟨rfl,rfl,rfl,List.forall_mem_cons.mpr ⟨.inl rfl,classed⟩,.inl rfl,orAbsent_cases here,
        .inr inner,⟨Nat.zero_le _,List.forall_mem_nil _⟩,absurd rfl,required_of_toExprs inner⟩
    | letIn =>
      simp only at run
      split at run
      next body =>
        obtain ⟨inside,here,run⟩ := except_bind_eq_ok.mp run
        obtain ⟨declared,inner,run⟩ := except_bind_eq_ok.mp run
        cases run
        have operands : toExprs [body] = .ok [inside] := by rw [toExprs,here]; rfl
        obtain ⟨length,origin⟩ := toBindings_origin inner
        exact ⟨rfl,rfl,rfl,nameless,.inl rfl,.inl rfl,.inr operands,⟨Nat.le_of_eq length,origin⟩,
          fun _ => List.cons_ne_nil _ _,required_of_toExprs operands⟩
      next => cases run
    | caseOf =>
      simp only at run
      split at run
      next scrutinee =>
        obtain ⟨inside,here,run⟩ := except_bind_eq_ok.mp run
        obtain ⟨branches,inner,run⟩ := except_bind_eq_ok.mp run
        cases run
        have operands : toExprs [scrutinee] = .ok [inside] := by rw [toExprs,here]; rfl
        obtain ⟨length,origin⟩ := toBranches_origin inner
        refine ⟨rfl,rfl,rfl,nameless,.inl rfl,.inl rfl,.inr operands,⟨Nat.le_of_eq length,?_⟩,
          fun _ => List.cons_ne_nil _ _,List.forall_mem_cons.mpr ⟨⟨scrutinee,here⟩,?_⟩⟩
        · intro b member
          obtain ⟨record,inside,same,read⟩ := origin b member
          exact ⟨record,inside,same,orAbsent_of_toExpr read⟩
        · refine List.forall_mem_map.mpr fun b member => ?_
          obtain ⟨record,-,-,read⟩ := origin b member
          exact ⟨record.2,read⟩
      next => cases run
    | assign =>
      simp only at run
      split at run
      next value =>
        obtain ⟨inside,here,run⟩ := except_bind_eq_ok.mp run
        obtain ⟨scope,known,run⟩ := except_bind_eq_ok.mp run
        cases run
        have operands : toExprs [value] = .ok [inside] := by rw [toExprs,here]; rfl
        exact readFrom_operands ⟨rfl,rfl,rfl,rfl,rfl⟩ (scopeOf_known known) named (.inl rfl)
          (.inr operands)
      next => cases run
    | negate | not | isVoid =>
      simp only at run
      split at run
      next operand =>
        obtain ⟨inside,here,run⟩ := except_bind_eq_ok.mp run
        cases run
        have operands : toExprs [operand] = .ok [inside] := by rw [toExprs,here]; rfl
        exact readFrom_operands ⟨rfl,rfl,rfl,rfl,rfl⟩ rfl nameless (.inl rfl) (.inr operands)
      next => cases run
    | arith =>
      simp only at run
      split at run
      next left right =>
        obtain ⟨first,here,run⟩ := except_bind_eq_ok.mp run
        obtain ⟨second,there,run⟩ := except_bind_eq_ok.mp run
        obtain ⟨op,known,run⟩ := except_bind_eq_ok.mp run
        cases run
        have operands : toExprs [left,right] = .ok [first,second] := by
          rw [toExprs,here,toExprs,there]
          rfl
        exact readFrom_operands ⟨rfl,rfl,rfl,rfl,rfl⟩ (arithmeticOf_known known) nameless (.inl rfl)
          (.inr operands)
      next => cases run
    | compare =>
      simp only at run
      split at run
      next left right =>
        obtain ⟨first,here,run⟩ := except_bind_eq_ok.mp run
        obtain ⟨second,there,run⟩ := except_bind_eq_ok.mp run
        obtain ⟨op,known,run⟩ := except_bind_eq_ok.mp run
        cases run
        have operands : toExprs [left,right] = .ok [first,second] := by
          rw [toExprs,here,toExprs,there]
          rfl
        exact readFrom_operands ⟨rfl,rfl,rfl,rfl,rfl⟩ (comparisonOf_known known) nameless (.inl rfl)
          (.inr operands)
      next => cases run
    | equal | loop =>
      simp only at run
      split at run
      next left right =>
        obtain ⟨first,here,run⟩ := except_bind_eq_ok.mp run
        obtain ⟨second,there,run⟩ := except_bind_eq_ok.mp run
        cases run
        have operands : toExprs [left,right] = .ok [first,second] := by
          rw [toExprs,here,toExprs,there]
          rfl
        exact readFrom_operands ⟨rfl,rfl,rfl,rfl,rfl⟩ rfl nameless (.inl rfl) (.inr operands)
      next => cases run
    | cond =>
      simp only at run
      split at run
      next test yes no =>
        obtain ⟨first,here,run⟩ := except_bind_eq_ok.mp run
        obtain ⟨second,there,run⟩ := except_bind_eq_ok.mp run
        obtain ⟨third,last,run⟩ := except_bind_eq_ok.mp run
        cases run
        have operands : toExprs [test,yes,no] = .ok [first,second,third] := by
          rw [toExprs,here,toExprs,there,toExprs,last]
          rfl
        exact readFrom_operands ⟨rfl,rfl,rfl,rfl,rfl⟩ rfl nameless (.inl rfl) (.inr operands)
      next => cases run

/-- A record without a kind is no expression. -/
theorem kind_of_toExpr (run : (Expr.node f receiver kids bindings).toExpr = .ok e) :
    f.kind ≠ "" := by
  intro blank
  rw [Expr.toExpr.eq_def] at run
  simp only [blank,show Kind.ofName? "" = none by decide] at run
  cases run

end Reading

theorem present_of_toExpr {record : Expr} {e : CoolBackend.Expr} (run : record.toExpr = .ok e) :
    e.isAbsent = false := by
  cases record with
  | null => cases run
  | node => exact (readFrom_of_toExpr run).present

theorem yields_node (f : Fields) (receiver : Expr) (kids : List Expr)
    (bindings : List (Option (Binder × Expr))) (inReceiver : Yields receiver)
    (inKids : ∀ kid ∈ kids, Yields kid) (inBindings : ∀ b e, some (b,e) ∈ bindings → Yields e) :
    Yields (.node f receiver kids bindings) := by
  intro e run
  have found := readFrom_of_toExpr run
  refine ⟨found.present,(CoolBackend.Expr.intact_iff found.present).mpr ⟨⟨?_,found.codes⟩,?_⟩⟩
  · intro child inside
    obtain ⟨record,read⟩ := found.required child inside
    exact present_of_toExpr read
  · intro child inside
    rcases CoolBackend.Expr.child_cases inside with rfl | inside | inside
    · rcases found.receiver with none | read
      · rw [none]
        exact List.forall_mem_nil _
      · exact (inReceiver _ read).2
    · rcases found.operands with none | read
      · rw [none] at inside
        cases inside
      · obtain ⟨kid,among,read⟩ := (toExprs_origin read).2 child inside
        exact (inKids kid among child read).2
    · obtain ⟨b,member,rfl⟩ := List.mem_map.mp inside
      obtain ⟨record,among,-,read⟩ := found.bindings.2 b member
      exact intact_of_orAbsent (inBindings _ _ among) read

theorem yields (record : Expr) : Yields record := by
  induction record using Expr.induct with
  | null =>
    intro e run
    cases run
  | node f receiver kids bindings inReceiver inKids inBindings =>
    exact yields_node f receiver kids bindings inReceiver inKids inBindings

theorem toAttributes_origin {className : String} {records : List (Option (Binder × Expr))}
    {attributes : List (CoolBackend.Binder × CoolBackend.Expr)}
    (run : toAttributes className records = .ok attributes) :
    attributes.length = records.length ∧ ∀ a ∈ attributes, ∃ record, some record ∈ records ∧
      BindingOf (fun e => orAbsent e e.toExpr) record a := by
  refine entries_of_steps
    (G := fun records attributes => toAttributes className records = .ok attributes)
    (fun _ run => (Except.ok.inj run).symm) (fun _ _ run => by cases run) ?_ run
  intro record records attributes run
  rw [toAttributes] at run
  obtain ⟨e,here,run⟩ := except_bind_eq_ok.mp run
  obtain ⟨rest,there,run⟩ := except_bind_eq_ok.mp run
  exact ⟨_,rest,⟨rfl,mapError_eq_ok.mp here⟩,there,Except.ok.inj run⟩

theorem toFormals_origin {records : List (Option Binder)} {formals : List CoolBackend.Binder}
    (run : toFormals records = .ok formals) : formals.length = records.length ∧
      ∀ f ∈ formals, ∃ record, some record ∈ records ∧ f = record.toBinder := by
  refine entries_of_steps (G := fun records formals => toFormals records = .ok formals)
    (fun _ run => (Except.ok.inj run).symm) (fun _ _ run => by cases run) ?_ run
  intro record records formals run
  rw [toFormals] at run
  obtain ⟨rest,there,run⟩ := except_bind_eq_ok.mp run
  exact ⟨_,rest,rfl,there,Except.ok.inj run⟩

theorem toMethods_origin {className : String} {records : List (Option Method)}
    {methods : List MethodDecl} (run : toMethods className records = .ok methods) :
    methods.length = records.length ∧
      ∀ m ∈ methods, ∃ record, some record ∈ records ∧ record.toMethod className = .ok m := by
  refine entries_of_steps (G := fun records methods => toMethods className records = .ok methods)
    (fun _ run => (Except.ok.inj run).symm) (fun _ _ run => by cases run) ?_ run
  intro record records methods run
  rw [toMethods] at run
  obtain ⟨m,here,run⟩ := except_bind_eq_ok.mp run
  obtain ⟨rest,there,run⟩ := except_bind_eq_ok.mp run
  exact ⟨m,rest,here,there,Except.ok.inj run⟩

theorem toClasses_origin {index : Nat} {records : List (Option Class)} {classes : List ClassDecl}
    (run : toClasses index records = .ok classes) : classes.length = records.length ∧
      ∀ c ∈ classes, ∃ record, some record ∈ records ∧ record.toClass = .ok c := by
  -- Every class is read with its own position.
  refine entries_of_steps
    (G := fun records classes => ∃ index, toClasses index records = .ok classes)
    (fun _ ⟨_,run⟩ => (Except.ok.inj run).symm) (fun _ _ ⟨_,run⟩ => by cases run) ?_ ⟨index,run⟩
  rintro record records classes ⟨index,run⟩
  rw [toClasses] at run
  obtain ⟨c,here,run⟩ := except_bind_eq_ok.mp run
  obtain ⟨rest,there,run⟩ := except_bind_eq_ok.mp run
  exact ⟨c,rest,mapError_eq_ok.mp here,⟨_,there⟩,Except.ok.inj run⟩

theorem toMethod_intact {className : String} {record : Method} {m : MethodDecl}
    (run : record.toMethod className = .ok m) : m.body.isAbsent = false ∧ m.body.Intact := by
  rw [Method.toMethod] at run
  obtain ⟨body,read,run⟩ := except_bind_eq_ok.mp run
  obtain ⟨formals,-,run⟩ := except_bind_eq_ok.mp run
  cases run
  exact yields record.body body (mapError_eq_ok.mp read)

theorem toClass_intact {record : Class} {c : ClassDecl} (run : record.toClass = .ok c) :
    (∀ a ∈ c.attributes, a.2.Intact) ∧
      ∀ m ∈ c.methods, m.body.isAbsent = false ∧ m.body.Intact := by
  rw [Class.toClass] at run
  obtain ⟨attributes,inner,run⟩ := except_bind_eq_ok.mp run
  obtain ⟨methods,bodies,run⟩ := except_bind_eq_ok.mp run
  cases run
  constructor
  · intro a member
    obtain ⟨record,-,-,read⟩ := (toAttributes_origin inner).2 a member
    exact intact_of_orAbsent (yields record.2) read
  · intro m member
    obtain ⟨record,-,read⟩ := (toMethods_origin bodies).2 m member
    exact toMethod_intact read

theorem toProgram_complete {record : Program} {p : CoolBackend.Program}
    (run : record.toProgram = .ok p) : p.Complete := by
  obtain ⟨classes,read,run⟩ := except_bind_eq_ok.mp run
  cases run
  constructor
  · intro c declared m member
    obtain ⟨record,-,read⟩ := (toClasses_origin read).2 c declared
    exact ((toClass_intact read).2 m member).1
  · intro e member
    obtain ⟨c,declared,member⟩ := List.mem_flatMap.mp member
    obtain ⟨record,-,read⟩ := (toClasses_origin read).2 c declared
    have intact := toClass_intact read
    rcases ClassDecl.mem_parts.mp member with ⟨a,among,inside⟩ | ⟨m,among,inside⟩
    · exact intact.1 a among e inside
    · exact (intact.2 m among).2 e inside

end CoolBackend.Wire

namespace CoolBackend

theorem Program.decode_eq_ok {bytes : Bytes} {p : Program} :
    Program.decode bytes = .ok p ↔ ∃ item record, Cbor.parse bytes = .ok item ∧
      Wire.readProgram item = .ok record ∧ record.toProgram = .ok p := by
  simp only [decode,except_bind_eq_ok,mapError_eq_ok]
  constructor
  · rintro ⟨item,parsed,record,read,program⟩
    exact ⟨item,record,parsed,read,program⟩
  · rintro ⟨item,record,parsed,read,program⟩
    exact ⟨item,parsed,record,read,program⟩

/-- Nothing is missing from a program that was read. -/
theorem Program.complete_of_decode {bytes : Bytes} {p : Program}
    (decoded : Program.decode bytes = .ok p) : p.Complete := by
  obtain ⟨item,record,-,-,program⟩ := Program.decode_eq_ok.mp decoded
  exact Wire.toProgram_complete program

end CoolBackend
