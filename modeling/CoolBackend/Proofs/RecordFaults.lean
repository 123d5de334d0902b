import CoolBackend.Proofs.Decoding
import Mathlib.Data.List.Basic

/-!
What is wrong with the records of a program, in the order in which they are read. Reading ends at
the first fault: it is reported, unless it is a null entry in a list of attributes, methods, formals or
bindings, which ends the reading without a report.
-/
namespace CoolBackend

/-- The faults of a list that may have gaps, each of which is a fault as well. -/
def faultsAmong {ε α : Type} (gap : ε) (faults : α → List ε) : List (Option α) → List ε :=
  List.flatMap fun
    | none => [gap]
    | some a => faults a

theorem mem_faultsAmong {ε α : Type} {gap e : ε} {faults : α → List ε} {list : List (Option α)}
    (member : e ∈ faultsAmong gap faults list) :
    none ∈ list ∨ ∃ a, some a ∈ list ∧ e ∈ faults a := by
  obtain ⟨entry,inside,fault⟩ := List.mem_flatMap.mp member
  cases entry with
  | none => exact .inl inside
  | some a => exact .inr ⟨a,inside,fault⟩

/-- A reading that ends at the first of its faults, and gives a result if there is none. -/
def Stops {ε α : Type} (faults : List ε) (read : Except ε α) : Prop :=
  match faults with
  | [] => ∃ a, read = .ok a
  | first :: _ => read = .error first

namespace Stops

variable {ε ε' α β : Type} {faults more : List ε} {read : Except ε α}

theorem bind {next : α → Except ε β} (here : Stops faults read)
    (later : ∀ a, read = .ok a → Stops more (next a)) : Stops (faults ++ more) (read >>= next) := by
  cases faults with
  | nil =>
    obtain ⟨a,rfl⟩ := here
    exact later a rfl
  | cons first rest =>
    cases here
    rfl

theorem result {f : α → β} (here : Stops faults read) :
    Stops faults (read >>= fun a => .ok (f a)) := by
  have both : Stops (faults ++ []) (read >>= fun a => .ok (f a)) :=
    here.bind fun a _ => ⟨f a,rfl⟩
  rwa [List.append_nil] at both

theorem mapError (here : Stops faults read) (place : ε → ε') :
    Stops (faults.map place) (read.mapError place) := by
  cases faults with
  | nil =>
    obtain ⟨a,rfl⟩ := here
    exact ⟨a,rfl⟩
  | cons first rest =>
    cases here
    rfl

/-- A reading fails in a given way if and only if its first fault is that one. -/
theorem eq_error_iff (here : Stops faults read) {e : ε} :
    read = .error e ↔ faults.head? = some e := by
  cases faults with
  | nil =>
    obtain ⟨a,rfl⟩ := here
    simp
  | cons first rest =>
    cases here
    simp

/-- A list is read entry by entry, up to its first gap. -/
theorem entries {γ : Type} {gap : ε} {faults : α → List ε} {read : α → Except ε β}
    {g : α → β → γ} {readAll : List (Option α) → Except ε (List γ)} (nil : readAll [] = .ok [])
    (stop : ∀ rest, readAll (none :: rest) = .error gap)
    (step : ∀ a rest, readAll (some a :: rest) =
      (read a >>= fun b => readAll rest >>= fun made => .ok (g a b :: made)))
    {list : List (Option α)} (each : ∀ a, some a ∈ list → Stops (faults a) (read a)) :
    Stops (faultsAmong gap faults list) (readAll list) := by
  induction list with
  | nil => exact ⟨_,nil⟩
  | cons entry rest ih =>
    have later := ih fun a member => each a (.tail _ member)
    cases entry with
    | none => exact stop rest
    | some a =>
      rw [step]
      exact (each a (.head _)).bind fun _ _ => later.result

end Stops

namespace Wire

/-- The fault that a check finds. -/
def faultOf {ε α : Type} : Except ε α → List ε
  | .ok _ => []
  | .error e => [e]

theorem stops_faultOf {ε α : Type} (check : Except ε α) : Stops (faultOf check) check := by
  cases check with
  | ok a => exact ⟨a,rfl⟩
  | error e => rfl

def unlessNull (record : Expr) (faults : List RecordError) : List RecordError :=
  if record.isNull then [] else faults

/-- The faults of an expression with operands, which are only looked at if their number is right. -/
def Fields.given (f : Fields) (want : Nat) (kids : List Expr) (faults : List RecordError) :
    List RecordError :=
  if kids.length = want then faults else [.operands f.kind f.pos.line want kids.length]

mutual

def Expr.faults : Expr → List RecordError
  | .null => [.missingExpression]
  | .node f receiver kids bindings =>
    match Kind.ofName? f.kind with
    | none => [.unknownKind f.kind f.pos.line]
    | some .int | some .string | some .bool | some .new => []
    | some .ident => faultOf (scopeOf f.scope)
    | some .block => faultsIn kids
    | some .dispatch => unlessNull receiver receiver.faults ++ faultsIn kids
    | some .letIn => f.given 1 kids (faultsIn kids ++ bindingFaults bindings)
    | some .caseOf => f.given 1 kids (faultsIn kids ++ branchFaults bindings)
    | some .assign => f.given 1 kids (faultsIn kids ++ faultOf (scopeOf f.scope))
    | some .negate | some .not | some .isVoid => f.given 1 kids (faultsIn kids)
    | some .arith => f.given 2 kids (faultsIn kids ++ faultOf (arithmeticOf f.op))
    | some .compare => f.given 2 kids (faultsIn kids ++ faultOf (comparisonOf f.op))
    | some .equal | some .loop => f.given 2 kids (faultsIn kids)
    | some .cond => f.given 3 kids (faultsIn kids)

def faultsIn : List Expr → List RecordError
  | [] => []
  | e :: rest => e.faults ++ faultsIn rest

def bindingFaults : List (Option (Binder × Expr)) → List RecordError
  | [] => []
  | none :: rest => .nullEntry :: bindingFaults rest
  | some (_,e) :: rest => unlessNull e e.faults ++ bindingFaults rest

def branchFaults : List (Option (Binder × Expr)) → List RecordError
  | [] => []
  | none :: rest => .nullEntry :: branchFaults rest
  | some (_,e) :: rest => e.faults ++ branchFaults rest

end

theorem stops_orAbsent {record : Expr} (stops : Stops record.faults record.toExpr) :
    Stops (unlessNull record record.faults) (orAbsent record record.toExpr) := by
  rw [unlessNull,orAbsent]
  split
  next => exact ⟨_,rfl⟩
  next => exact stops

theorem stops_toExprs {kids : List Expr} (each : ∀ kid ∈ kids, Stops kid.faults kid.toExpr) :
    Stops (faultsIn kids) (toExprs kids) := by
  induction kids with
  | nil => exact ⟨_,rfl⟩
  | cons kid rest ih =>
    obtain ⟨here,each⟩ := List.forall_mem_cons.mp each
    rw [faultsIn,toExprs]
    exact here.bind fun _ _ => (ih each).result

theorem bindingFaults_eq (bindings : List (Option (Binder × Expr))) :
    bindingFaults bindings =
      faultsAmong .nullEntry (fun b => unlessNull b.2 b.2.faults) bindings := by
  induction bindings with
  | nil => rfl
  | cons entry rest ih =>
    cases entry with
    | none => rw [bindingFaults,ih]; rfl
    | some => rw [bindingFaults,ih]; rfl

theorem branchFaults_eq (bindings : List (Option (Binder × Expr))) :
    branchFaults bindings = faultsAmong .nullEntry (fun b => b.2.faults) bindings := by
  induction bindings with
  | nil => rfl
  | cons entry rest ih =>
    cases entry with
    | none => rw [branchFaults,ih]; rfl
    | some => rw [branchFaults,ih]; rfl

theorem stops_toBindings {bindings : List (Option (Binder × Expr))}
    (each : ∀ b e, some (b,e) ∈ bindings → Stops e.faults e.toExpr) :
    Stops (bindingFaults bindings) (toBindings bindings) := by
  rw [bindingFaults_eq]
  exact Stops.entries (g := fun record e => (record.1.toBinder,e)) rfl (fun _ => rfl)
    (fun _ _ => rfl) fun binding member => stops_orAbsent (each _ _ member)

theorem stops_toBranches {bindings : List (Option (Binder × Expr))}
    (each : ∀ b e, some (b,e) ∈ bindings → Stops e.faults e.toExpr) :
    Stops (branchFaults bindings) (toBranches bindings) := by
  rw [branchFaults_eq]
  exact Stops.entries (g := fun record e => (record.1.toBinder,e)) rfl (fun _ => rfl)
    (fun _ _ => rfl) fun binding member => each _ _ member

section Operands

variable {f : Fields} {kids : List Expr} {faults : List RecordError} {α : Type}

theorem stops_given {want : Nat} {read : Except RecordError α}
    (right : kids.length = want → Stops faults read)
    (wrong : kids.length ≠ want → read = f.wrongOperands want kids) :
    Stops (f.given want kids faults) read := by
  rw [Fields.given]
  split
  next length => exact right length
  next length => exact wrong length

theorem stops_given_one {read : Expr → Except RecordError α}
    (one : ∀ kid, kids = [kid] → Stops faults (read kid)) :
    Stops (f.given 1 kids faults) (match kids with
      | [kid] => read kid
      | kids => f.wrongOperands 1 kids) := by
  refine stops_given (fun length => ?_) fun length => ?_
  · obtain ⟨kid,rfl⟩ := List.length_eq_one_iff.mp length
    exact one kid rfl
  · split
    next => exact absurd rfl length
    next => rfl

theorem stops_given_two {read : Expr → Expr → Except RecordError α}
    (two : ∀ left right, kids = [left,right] → Stops faults (read left right)) :
    Stops (f.given 2 kids faults) (match kids with
      | [left,right] => read left right
      | kids => f.wrongOperands 2 kids) := by
  refine stops_given (fun length => ?_) fun length => ?_
  · obtain ⟨left,right,rfl⟩ := List.length_eq_two.mp length
    exact two left right rfl
  · split
    next => exact absurd rfl length
    next => rfl

theorem stops_given_three {read : Expr → Expr → Expr → Except RecordError α}
    (three : ∀ test yes no, kids = [test,yes,no] → Stops faults (read test yes no)) :
    Stops (f.given 3 kids faults) (match kids with
      | [test,yes,no] => read test yes no
      | kids => f.wrongOperands 3 kids) := by
  refine stops_given (fun length => ?_) fun length => ?_
  · obtain ⟨test,yes,no,rfl⟩ := List.length_eq_three.mp length
    exact three test yes no rfl
  · split
    next => exact absurd rfl length
    next => rfl

end Operands

/-- A record is read up to its first fault. -/
theorem stops_node {f : Fields} {receiver : Expr} {kids : List Expr}
    {bindings : List (Option (Binder × Expr))} (inReceiver : Stops receiver.faults receiver.toExpr)
    (inKids : ∀ kid ∈ kids, Stops kid.faults kid.toExpr)
    (inBindings : ∀ b e, some (b,e) ∈ bindings → Stops e.faults e.toExpr) :
    Stops (Expr.node f receiver kids bindings).faults
      (Expr.node f receiver kids bindings).toExpr := by
  rw [Expr.faults.eq_def,Expr.toExpr.eq_def]
  simp only
  generalize Kind.ofName? f.kind = kind
  cases kind with
  | none => rfl
  | some kind =>
    cases kind with
    | int | string | bool | new => exact ⟨_,rfl⟩
    | ident => exact (stops_faultOf _).result
    | block => exact (stops_toExprs inKids).result
    | dispatch => exact (stops_orAbsent inReceiver).bind fun _ _ => (stops_toExprs inKids).result
    | letIn =>
      refine stops_given_one ?_
      rintro body rfl
      simp only [faultsIn,List.append_nil]
      exact (inKids body (.head _)).bind fun _ _ => (stops_toBindings inBindings).result
    | caseOf =>
      refine stops_given_one ?_
      rintro scrutinee rfl
      simp only [faultsIn,List.append_nil]
      exact (inKids scrutinee (.head _)).bind fun _ _ => (stops_toBranches inBindings).result
    | assign =>
      refine stops_given_one ?_
      rintro value rfl
      simp only [faultsIn,List.append_nil]
      exact (inKids value (.head _)).bind fun _ _ => (stops_faultOf _).result
    | negate | not | isVoid =>
      refine stops_given_one ?_
      rintro operand rfl
      simp only [faultsIn,List.append_nil]
      exact (inKids operand (.head _)).result
    | arith | compare =>
      refine stops_given_two ?_
      rintro left right rfl
      simp only [faultsIn,List.append_nil,List.append_assoc]
      exact (inKids left (.head _)).bind fun _ _ =>
        (inKids right (.tail _ (.head _))).bind fun _ _ => (stops_faultOf _).result
    | equal | loop =>
      refine stops_given_two ?_
      rintro first second rfl
      simp only [faultsIn,List.append_nil]
      exact (inKids first (.head _)).bind fun _ _ => (inKids second (.tail _ (.head _))).result
    | cond =>
      refine stops_given_three ?_
      rintro test yes no rfl
      simp only [faultsIn,List.append_nil]
      exact (inKids test (.head _)).bind fun _ _ =>
        (inKids yes (.tail _ (.head _))).bind fun _ _ =>
          (inKids no (.tail _ (.tail _ (.head _)))).result

theorem stops_toExpr (record : Expr) : Stops record.faults record.toExpr := by
  induction record using Expr.induct with
  | null => rfl
  | node f receiver kids bindings inReceiver inKids inBindings =>
    exact stops_node inReceiver inKids inBindings

def Method.faults (className : String) (m : Method) : List ClassError :=
  m.body.faults.map (inFeature (.inMethod className m.name)) ++
    faultsAmong .nullEntry (fun _ => []) m.formals

def Class.faults (c : Class) : List ClassError :=
  faultsAmong .nullEntry (fun a => (unlessNull a.2 a.2.faults).map
    (inFeature (.inAttribute c.name a.1.name))) c.attributes ++
  faultsAmong .nullEntry (Method.faults c.name) c.methods

/-- The faults of classes from position `index` on. -/
def classFaults (index : Nat) : List (Option Class) → List (Nat × ClassError)
  | [] => []
  | none :: rest => (index,.missingClass) :: classFaults (index + 1) rest
  | some c :: rest => c.faults.map (index,·) ++ classFaults (index + 1) rest

theorem stops_toMethod (className : String) (m : Method) :
    Stops (m.faults className) (m.toMethod className) := by
  have formals : Stops (faultsAmong .nullEntry (fun _ => []) m.formals) (toFormals m.formals) :=
    Stops.entries (g := fun _ (b : CoolBackend.Binder) => b) rfl (fun _ => rfl) (fun _ _ => rfl)
      fun b _ => stops_faultOf (.ok b.toBinder)
  exact ((stops_toExpr m.body).mapError _).bind fun _ _ => formals.result

theorem stops_toClass (c : Class) : Stops c.faults c.toClass := by
  have attributes : Stops (faultsAmong .nullEntry (fun a => (unlessNull a.2 a.2.faults).map
      (inFeature (.inAttribute c.name a.1.name))) c.attributes)
      (toAttributes c.name c.attributes) :=
    Stops.entries (g := fun a e => (a.1.toBinder,e)) rfl (fun _ => rfl) (fun _ _ => rfl)
      fun a _ => (stops_orAbsent (stops_toExpr a.2)).mapError _
  have methods : Stops (faultsAmong .nullEntry (Method.faults c.name) c.methods)
      (toMethods c.name c.methods) :=
    Stops.entries (g := fun _ (m : MethodDecl) => m) rfl (fun _ => rfl) (fun _ _ => rfl)
      fun m _ => stops_toMethod c.name m
  exact attributes.bind fun _ _ => methods.result

theorem stops_toClasses (index : Nat) (classes : List (Option Class)) :
    Stops (classFaults index classes) (toClasses index classes) := by
  induction classes generalizing index with
  | nil => exact ⟨_,rfl⟩
  | cons entry rest ih =>
    cases entry with
    | none => rfl
    | some c => exact ((stops_toClass c).mapError _).bind fun _ _ => (ih (index + 1)).result

inductive Expr.HasGap : Expr → Prop
  | here {f receiver kids bindings} (gap : none ∈ bindings) :
    HasGap (.node f receiver kids bindings)
  | inReceiver {f receiver kids bindings} (inside : HasGap receiver) :
    HasGap (.node f receiver kids bindings)
  | inKid {f receiver kids bindings kid} (member : kid ∈ kids) (inside : HasGap kid) :
    HasGap (.node f receiver kids bindings)
  | inBinding {f receiver kids bindings b e} (member : some (b,e) ∈ bindings) (inside : HasGap e) :
    HasGap (.node f receiver kids bindings)

inductive Class.HasGap (c : Class) : Prop
  | attribute (gap : none ∈ c.attributes)
  | method (gap : none ∈ c.methods)
  | formal {m} (member : some m ∈ c.methods) (gap : none ∈ m.formals)
  | inAttribute {a} (member : some a ∈ c.attributes) (inside : a.2.HasGap)
  | inMethod {m} (member : some m ∈ c.methods) (inside : m.body.HasGap)

theorem not_mem_codes (f : Fields) : .nullEntry ∉ faultOf (scopeOf f.scope) ∧
    .nullEntry ∉ faultOf (arithmeticOf f.op) ∧ .nullEntry ∉ faultOf (comparisonOf f.op) := by
  refine ⟨?_,?_,?_⟩
  · rw [scopeOf]
    split
    next => simp [faultOf]
    next => split <;> simp [faultOf]
  · rw [arithmeticOf]
    split <;> simp [faultOf]
  · rw [comparisonOf]
    split <;> simp [faultOf]

theorem mem_given {f : Fields} {want : Nat} {kids : List Expr} {faults : List RecordError}
    (member : .nullEntry ∈ f.given want kids faults) : .nullEntry ∈ faults := by
  rw [Fields.given] at member
  split at member
  next => exact member
  next => simp at member

theorem mem_unlessNull {record : Expr} {e : RecordError}
    (member : e ∈ unlessNull record record.faults) : e ∈ record.faults := by
  rw [unlessNull] at member
  split at member
  next => cases member
  next => exact member

theorem mem_faultsIn {kids : List Expr} {e : RecordError} (member : e ∈ faultsIn kids) :
    ∃ kid ∈ kids, e ∈ kid.faults := by
  induction kids with
  | nil => cases member
  | cons kid rest ih =>
    rw [faultsIn,List.mem_append] at member
    rcases member with here | later
    · exact ⟨kid,.head _,here⟩
    · obtain ⟨other,among,fault⟩ := ih later
      exact ⟨other,.tail _ among,fault⟩

/-- The lists in which the faults of a record are found. -/
theorem mem_faults_node {f : Fields} {receiver : Expr} {kids : List Expr}
    {bindings : List (Option (Binder × Expr))}
    (member : .nullEntry ∈ (Expr.node f receiver kids bindings).faults) :
    .nullEntry ∈ receiver.faults ∨ .nullEntry ∈ faultsIn kids ∨
      .nullEntry ∈ bindingFaults bindings ∨ .nullEntry ∈ branchFaults bindings := by
  obtain ⟨scope,arithmetic,comparison⟩ := not_mem_codes f
  rw [Expr.faults.eq_def] at member
  simp only at member
  generalize Kind.ofName? f.kind = kind at member
  cases kind with
  | none => simp at member
  | some kind =>
    cases kind with
    | int | string | bool | new => cases member
    | ident => exact absurd member scope
    | block => exact .inr (.inl member)
    | dispatch =>
      rcases List.mem_append.mp member with object | args
      · exact .inl (mem_unlessNull object)
      · exact .inr (.inl args)
    | letIn =>
      rcases List.mem_append.mp (mem_given member) with body | bound
      · exact .inr (.inl body)
      · exact .inr (.inr (.inl bound))
    | caseOf =>
      rcases List.mem_append.mp (mem_given member) with scrutinee | bound
      · exact .inr (.inl scrutinee)
      · exact .inr (.inr (.inr bound))
    | assign =>
      rcases List.mem_append.mp (mem_given member) with value | code
      · exact .inr (.inl value)
      · exact absurd code scope
    | arith =>
      rcases List.mem_append.mp (mem_given member) with operands | code
      · exact .inr (.inl operands)
      · exact absurd code arithmetic
    | compare =>
      rcases List.mem_append.mp (mem_given member) with operands | code
      · exact .inr (.inl operands)
      · exact absurd code comparison
    | negate | not | isVoid | equal | loop | cond => exact .inr (.inl (mem_given member))

/-- A null entry that is a fault is a gap. -/
theorem hasGap_of_fault {record : Expr} (member : .nullEntry ∈ record.faults) : record.HasGap := by
  induction record using Expr.induct with
  | null => simp [Expr.faults] at member
  | node f receiver kids bindings inReceiver inKids inBindings =>
    rcases mem_faults_node member with object | operands | bound | bound
    · exact .inReceiver (inReceiver object)
    · obtain ⟨kid,among,fault⟩ := mem_faultsIn operands
      exact .inKid among (inKids kid among fault)
    · rw [bindingFaults_eq] at bound
      rcases mem_faultsAmong bound with gap | ⟨b,among,fault⟩
      · exact .here gap
      · exact .inBinding among (inBindings b.1 b.2 among (mem_unlessNull fault))
    · rw [branchFaults_eq] at bound
      rcases mem_faultsAmong bound with gap | ⟨b,among,fault⟩
      · exact .here gap
      · exact .inBinding among (inBindings b.1 b.2 among fault)

theorem mem_inFeature {place : RecordError → ClassError} (placed : ∀ e, place e ≠ .nullEntry)
    {faults : List RecordError} (member : .nullEntry ∈ faults.map (inFeature place)) :
    .nullEntry ∈ faults := by
  obtain ⟨e,among,same⟩ := List.mem_map.mp member
  cases e with
  | nullEntry => exact among
  | _ => exact absurd same (placed _)

theorem Class.hasGap_of_fault {c : Class} (member : .nullEntry ∈ c.faults) : c.HasGap := by
  rcases List.mem_append.mp member with inAttributes | inMethods
  · rcases mem_faultsAmong inAttributes with gap | ⟨a,among,fault⟩
    · exact .attribute gap
    · have inside := mem_inFeature (by simp) fault
      exact .inAttribute among (Wire.hasGap_of_fault (mem_unlessNull inside))
  · rcases mem_faultsAmong inMethods with gap | ⟨m,among,fault⟩
    · exact .method gap
    · rcases List.mem_append.mp fault with body | formal
      · exact .inMethod among (Wire.hasGap_of_fault (mem_inFeature (by simp) body))
      · rcases mem_faultsAmong formal with gap | ⟨_,-,none⟩
        · exact .formal among gap
        · cases none

theorem mem_classFaults {index place : Nat} {classes : List (Option Class)} {e : ClassError}
    (member : (place,e) ∈ classFaults index classes) :
    e = .missingClass ∨ ∃ c, some c ∈ classes ∧ e ∈ c.faults := by
  induction classes generalizing index with
  | nil => cases member
  | cons entry rest ih =>
    have later (there : (place,e) ∈ classFaults (index + 1) rest) :
        e = .missingClass ∨ ∃ c, some c ∈ entry :: rest ∧ e ∈ c.faults := by
      rcases ih there with missing | ⟨c,among,fault⟩
      · exact .inl missing
      · exact .inr ⟨c,.tail _ among,fault⟩
    cases entry with
    | none =>
      rcases List.mem_cons.mp member with here | there
      · cases here
        exact .inl rfl
      · exact later there
    | some c =>
      rcases List.mem_append.mp member with here | there
      · obtain ⟨fault,among,same⟩ := List.mem_map.mp here
        cases same
        exact .inr ⟨c,.head _,among⟩
      · exact later there

/-- A program with a null in a list of a class, or inside one. -/
def Program.HasGap (p : Program) : Prop := ∃ c, some c ∈ p.classes ∧ c.HasGap

/-- All that is wrong with the records of a program, in the order of reading. -/
def Program.faults (p : Program) : List DecodeError :=
  (classFaults 0 p.classes).map DecodeError.ofClass

theorem Program.stops_toProgram (p : Program) :
    Stops p.faults (p.toProgram.mapError DecodeError.ofClass) :=
  (stops_toClasses 0 p.classes).result.mapError _

theorem Program.hasGap_of_fault {p : Program} (member : .nullEntry ∈ p.faults) : p.HasGap := by
  obtain ⟨⟨index,e⟩,among,same⟩ := List.mem_map.mp member
  have null : e = .nullEntry := by
    cases e with
    | nullEntry => rfl
    | _ => cases same
  subst null
  rcases mem_classFaults among with missing | ⟨c,inside,fault⟩
  · cases missing
  · exact ⟨c,inside,Class.hasGap_of_fault fault⟩

def recordsOf (bytes : Bytes) : Except Cbor.Fault Program := do
  let item ← Cbor.parse bytes
  readProgram item

end Wire

namespace Program

theorem decode_eq (bytes : Bytes) : decode bytes =
    ((Wire.recordsOf bytes).mapError .malformed >>= fun records =>
      records.toProgram.mapError DecodeError.ofClass) := by
  rw [decode,Wire.recordsOf]
  cases Cbor.parse bytes with
  | error => rfl
  | ok => rfl

/-- Bytes that hold records are decoded up to the first fault of these. -/
theorem stops_decode {bytes : Bytes} {records : Wire.Program}
    (holds : Wire.recordsOf bytes = .ok records) : Stops records.faults (decode bytes) := by
  rw [decode_eq,holds]
  exact records.stops_toProgram

/-- Decoding ends at the first fault of the records that the bytes hold: without a report if and
only if that is a null entry, and never so if no list has a gap. -/
theorem decoding_stops_at_first_fault (bytes : Bytes) :
    (decode bytes = .error .nullEntry ↔ ∃ records, Wire.recordsOf bytes = .ok records ∧
      records.faults.head? = some .nullEntry) ∧
    ∀ records, Wire.recordsOf bytes = .ok records →
      Stops records.faults (decode bytes) ∧ (.nullEntry ∈ records.faults → records.HasGap) := by
  refine ⟨⟨fun ended => ?_,?_⟩,fun records holds => ⟨stops_decode holds,records.hasGap_of_fault⟩⟩
  · cases holds : Wire.recordsOf bytes with
    | error fault =>
      rw [decode_eq,holds] at ended
      cases ended
    | ok records => exact ⟨records,rfl,(stops_decode holds).eq_error_iff.mp ended⟩
  · rintro ⟨records,holds,first⟩
    exact (stops_decode holds).eq_error_iff.mpr first

end Program

/-- A `let` whose second variable is null, in the first of two classes. The second one is null as
well. -/
def gapped : Wire.Program where
  classes :=
    [ some {
        attributes := [some ({ name := "count" },.null)]
        methods := [some {
          formals := [some { name := "n" }]
          body := .node { kind := "let" } .null [.node { kind := "bool" } .null [] []]
            [some ({ name := "k" },.null),none] }] },
      none ]

def gappedBytes : Bytes :=
  let text (s : String) : Bytes := (Cbor.Item.ofText s).encode
  [0xa1] ++ text "classes" ++ [0x82,0xa2] ++
    text "attrs" ++ [0x81,0xa1] ++ text "name" ++ text "count" ++
    text "methods" ++ [0x81,0xa2] ++
      text "formals" ++ [0x81,0xa1] ++ text "name" ++ text "n" ++
      text "body" ++ [0xa3] ++ text "kind" ++ text "let" ++
        text "kids" ++ [0x81,0xa1] ++ text "kind" ++ text "bool" ++
        text "bindings" ++ [0x82,0xa1] ++ text "name" ++ text "k" ++ [0xf6] ++
    [0xf6]

theorem gapped_unreported : Wire.recordsOf gappedBytes = .ok gapped ∧
    gapped.faults = [.nullEntry,.inClass 1 .missingClass] ∧
    Program.decode gappedBytes = .error .nullEntry := by
  have holds : Wire.recordsOf gappedBytes = .ok gapped := rfl
  have faults : gapped.faults = [.nullEntry,.inClass 1 .missingClass] := rfl
  have first : gapped.faults.head? = some .nullEntry := by rw [faults]; rfl
  exact ⟨holds,faults,(Program.decoding_stops_at_first_fault _).1.mpr ⟨gapped,holds,first⟩⟩

/-- One class whose only attribute is null: nothing is reported. -/
theorem null_attribute_unreported :
    Program.decode ([0xa1,0x67] ++ Bytes.ofText "classes" ++ [0x81,0xa1,0x65] ++
      Bytes.ofText "attrs" ++ [0x81,0xf6]) = .error .nullEntry := rfl

end CoolBackend
