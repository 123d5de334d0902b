import CoolBackend.Proofs.Expressions
import CoolBackend.Proofs.Lowerings
import CoolBackend.Proofs.Tables

/-!
Lowering makes code out of the codes of parts, and draws labels and literals in between. A relation
between the supply before, the code and the supply after it that is kept by each of these steps
holds of everything that lowering makes.
-/
namespace CoolBackend

inductive Chain (P : Supply → Code → Supply → Prop) : Supply → List Code → Supply → Prop where
  | nil (s : Supply) : Chain P s [] s
  | cons {s u t : Supply} {code : Code} {rest : List Code} (first : P s code u)
      (others : Chain P u rest t) : Chain P s (code :: rest) t

theorem Chain.append {P : Supply → Code → Supply → Prop} {s u t : Supply} {codes rest : List Code}
    (first : Chain P s codes u) (others : Chain P u rest t) : Chain P s (codes ++ rest) t := by
  induction first with
  | nil => exact others
  | cons here _ ih => exact .cons here (ih others)

/-- Branches of a `case` that were lowered one after another, with their tests. Each test leads to
the branch that it was made for. -/
inductive BranchChain (P : Supply → Code → Supply → Prop) :
    Supply → List (Nat × String) → List (BranchHead × Code) → Supply → Prop where
  | nil (s : Supply) : BranchChain P s [] [] s
  | cons {s u t : Supply} {body : Code} {tests : List (Nat × String)}
      {branches : List (BranchHead × Code)} (tags : List Nat) (slot : Location)
      (first : P (s.newLabel "branch").2 body u) (others : BranchChain P u tests branches t) :
      BranchChain P s (tags.map (·,(s.newLabel "branch").1) ++ tests)
        (({ label := (s.newLabel "branch").1, slot },body) :: branches) t

/-- A relation that holds of code if it holds of the parts that it was made from, in the order in
which lowering draws. -/
structure LoweringInvariant (classes : ClassTable) (P : Supply → Code → Supply → Prop) : Prop where
  literal {s t : Supply} {label : String} (value : Constant)
    (drawn : LowerM.constant value s = .ok label t) : P s (.loadLiteral label) t
  void (s : Supply) : P s .loadVoid s
  self (s : Supply) : P s .loadSelf s
  var (s : Supply) (source : Location) : P s (.loadVar source) s
  store {s t : Supply} {value : Code} (target : Location) (barrier : Bool) (inner : P s value t) :
    P s (.storeVar value target barrier) t
  arithmetic {s u t : Supply} {left right : Code} {op : ArithOp} {mnemonic : String}
    (known : op.mnemonic = .ok mnemonic) (first : P s left u) (second : P u right t) :
    P s (.arithmetic mnemonic left right) t
  negate {s t : Supply} {operand : Code} (inner : P s operand t) : P s (.negate operand) t
  compare {s u t : Supply} {left right : Code} (op : RelOp) (first : P s left u)
    (second : P u right t) :
    P s (.compare op.mnemonic left right (t.newLabel "compare").1) (t.newLabel "compare").2
  equality {s u t : Supply} {left right : Code} (first : P s left u) (second : P u right t) :
    P s (.equality left right (t.newLabel "eq").1) (t.newLabel "eq").2
  predicate {s t : Supply} {operand : Code} (kind : Test) (inner : P s operand t) :
    P s (.predicate kind operand (t.newLabel kind.template).1) (t.newLabel kind.template).2
  cond {s u v t : Supply} {test yes no : Code} (first : P s test u) (second : P u yes v)
    (third : P v no t) :
    P s (.cond test yes no (t.newLabel "else").1 ((t.newLabel "else").2.newLabel "endif").1)
      ((t.newLabel "else").2.newLabel "endif").2
  loop {s u t : Supply} {test body : Code} (first : P s test u) (second : P u body t) :
    P s (.loop test body (t.newLabel "while").1 ((t.newLabel "while").2.newLabel "pool").1)
      ((t.newLabel "while").2.newLabel "pool").2
  sequence {s t : Supply} {steps : List Code} (inner : Chain P s steps t) : P s (.sequence steps) t
  letIn {s u t : Supply} {stores : List Code} {body : Code} (first : Chain P s stores u)
    (second : P u body t) : P s (.letIn stores body) t
  newObject (s : Supply) {c : ClassEntry} (known : c ∈ classes.toList) : P s (.newObject c.name) s
  newSelf (s : Supply) : P s .newSelf s
  dispatch {s u v t : Supply} {args : List Code} {receiver : Code} {staticClass : Option String}
    {file : String} (offset : Nat) (source : Bytes) (line : Int64) (first : Chain P s args u)
    (second : P u receiver v)
    (drawn : LowerM.string source (v.newLabel "dispatch").2 = .ok file t)
    (known : ∀ name ∈ staticClass, ∃ c ∈ classes.toList, c.name = name) :
    P s (.dispatch args receiver staticClass offset
      { label := (v.newLabel "dispatch").1, file, line }) t
  caseOf {s u v t : Supply} {scrutinee : Code} {file : String} {tests : List (Nat × String)}
    {branches : List (BranchHead × Code)} (source : Bytes) (line : Int64) (first : P s scrutinee u)
    (drawn : LowerM.string source (u.newLabel "case").2 = .ok file v)
    (second : BranchChain P (v.newLabel "esac").2 tests branches t) :
    P s (.caseOf scrutinee { label := (u.newLabel "case").1, file, line } tests branches
      (v.newLabel "esac").1) t

/-- A site has a fresh label and the constant of its source file. -/
theorem Context.site_run {ctx : Context} {stem : String} {info : Info} {s t : Supply} {site : Site}
    (run : ctx.site stem info s = .ok site t) : ∃ source line,
      LowerM.string source (s.newLabel stem).2 = .ok site.file t ∧
        site = { label := (s.newLabel stem).1, file := site.file, line } := by
  rw [Context.site,bind_run,newLabel_run] at run
  obtain ⟨file,_,drawn,final⟩ := bind_eq_ok.mp run
  cases final
  exact ⟨_,_,drawn,rfl⟩

namespace LoweringInvariant

variable {classes : ClassTable} {P : Supply → Code → Supply → Prop}

theorem default_value (rules : LoweringInvariant classes P) {type : String} {s t : Supply}
    {code : Code} (run : defaultValue type s = .ok code t) : P s code t := by
  unfold defaultValue at run
  split at run
  · obtain ⟨label,_,drawn,final⟩ := bind_eq_ok.mp run
    cases final
    exact rules.literal (.int 0) drawn
  · split at run
    · cases run
      exact rules.literal (.bool false) rfl
    · split at run
      · obtain ⟨label,_,drawn,final⟩ := bind_eq_ok.mp run
        cases final
        exact rules.literal (.string []) drawn
      · cases run
        exact rules.void _

/-- What lowering an expression makes, in contexts over the same classes. -/
def Keeps (classes : ClassTable) (P : Supply → Code → Supply → Prop) (e : Expr) : Prop :=
  ∀ {ctx : Context} {s t : Supply} {code : Code}, e.lower ctx s = .ok code t →
    ctx.classes = classes → P s code t

theorem lowered_all {exprs : List Expr} (each : ∀ e ∈ exprs, Keeps classes P e) {k : Nat}
    {ctx : Context} {s t : Supply} {codes : List Code} (table : ctx.classes = classes)
    (run : lowerAll exprs k ctx s = .ok codes t) : Chain P s codes t := by
  induction exprs generalizing k s codes with
  | nil =>
    rw [lowerAll] at run
    cases run
    exact .nil _
  | cons e rest ih =>
    obtain ⟨here,each⟩ := List.forall_mem_cons.mp each
    obtain ⟨_,_,u,first,others,rfl⟩ := lowerAll_cons run
    exact .cons (here first table) (ih each others)

theorem lowered_args {args : List Expr} (each : ∀ e ∈ args, Keeps classes P e) {k : Nat}
    {ctx : Context} {s t : Supply} {codes : List Code} (table : ctx.classes = classes)
    (run : lowerArgs args k ctx s = .ok codes t) : Chain P s codes t := by
  induction args generalizing k t codes with
  | nil =>
    rw [lowerArgs] at run
    cases run
    exact .nil _
  | cons e rest ih =>
    obtain ⟨here,each⟩ := List.forall_mem_cons.mp each
    obtain ⟨_,_,u,others,first,rfl⟩ := lowerArgs_cons run
    exact (ih each others).append (.cons (here first table) (.nil _))

/-- The bindings only add to the variables of the context. -/
theorem lowered_bindings (rules : LoweringInvariant classes P) {bindings : List (Binder × Expr)}
    (each : ∀ b ∈ bindings, Keeps classes P b.2) {i : Nat} {ctx inner : Context} {s t : Supply}
    {stores : List Code} (table : ctx.classes = classes)
    (run : lowerBindings bindings i ctx s = .ok (stores,inner) t) :
    Chain P s stores t ∧ inner.classes = classes := by
  induction bindings generalizing i ctx s stores with
  | nil =>
    rw [lowerBindings] at run
    cases run
    exact ⟨.nil _,table⟩
  | cons b rest ih =>
    obtain ⟨here,each⟩ := List.forall_mem_cons.mp each
    obtain ⟨value,depth,_,u,first,-,others,rfl⟩ := lowerBindings_cons run
    have bound : (ctx.bind b.1.name depth).classes = classes := table
    have made : P s value u := by
      split at first
      · exact rules.default_value first
      · exact here first table
    obtain ⟨chain,same⟩ := ih each bound others
    exact ⟨.cons (rules.store _ _ made) chain,same⟩

theorem lowered_branches {branches : List (Binder × Expr)}
    (each : ∀ b ∈ branches, Keeps classes P b.2) {i : Nat} {ctx : Context} {s t : Supply}
    {tests : List (Nat × String)} {codes : List (BranchHead × Code)}
    (table : ctx.classes = classes) (run : lowerBranches branches i ctx s = .ok (tests,codes) t) :
    BranchChain P s tests codes t := by
  induction branches generalizing i s tests codes with
  | nil =>
    rw [lowerBranches] at run
    cases run
    exact .nil _
  | cons b rest ih =>
    obtain ⟨here,each⟩ := List.forall_mem_cons.mp each
    obtain ⟨_,depth,_,_,_,u,-,-,first,others,rfl,rfl⟩ := lowerBranches_cons run
    have bound : ((ctx.bind b.1.name depth).part (i + 1)).classes = classes := table
    exact .cons _ _ (here first bound) (ih each others)

/-- A call that names a class names one of the table. -/
theorem target_known {ctx : Context} {receiver : Expr} {staticClass : String} {target : ClassEntry}
    (found : ctx.target receiver staticClass = .ok target) (named : staticClass ≠ "") :
    target ∈ ctx.classes.toList := by
  obtain ⟨_,-,found⟩ := except_bind_eq_ok.mp found
  rw [if_neg named] at found
  exact (ClassTable.mem_of_find? (ClassTable.require_eq_ok.mp found)).1

/-- What the steps of lowering keep holds of everything that lowering makes. -/
theorem lowered (rules : LoweringInvariant classes P) (e : Expr) : Keeps classes P e := by
  induction e using Expr.induct with
  | absent => exact fun run => absurd run lower_absent
  | constant info value =>
    intro ctx s t code run table
    rw [Expr.lower] at run
    obtain ⟨label,_,drawn,final⟩ := bind_eq_ok.mp run
    cases final
    exact rules.literal value drawn
  | ident info name scope =>
    intro ctx s t code run table
    obtain ⟨rfl,⟨-,rfl⟩ | ⟨-,source,-,rfl⟩⟩ := lower_ident run
    · exact rules.self _
    · exact rules.var _ source
  | assign info name scope value ih =>
    intro ctx s t code run table
    obtain ⟨_,target,inner,-,rfl⟩ := lower_assign run
    exact rules.store target _ (ih inner table)
  | unary info op operand ih =>
    intro ctx s t code run table
    obtain ⟨_,u,inner,made⟩ := lower_unary run
    cases op with
    | negate =>
      obtain ⟨rfl,rfl⟩ := made
      exact rules.negate (ih inner table)
    | not =>
      obtain ⟨rfl,rfl⟩ := made
      exact rules.predicate .not (ih inner table)
    | isVoid =>
      obtain ⟨rfl,rfl⟩ := made
      exact rules.predicate .isVoid (ih inner table)
  | binary info op left right ihLeft ihRight =>
    intro ctx s t code run table
    obtain ⟨_,_,u,v,first,second,made⟩ := lower_binary run
    cases op with
    | arith op =>
      obtain ⟨mnemonic,known,rfl,rfl⟩ := made
      exact rules.arithmetic known (ihLeft first table) (ihRight second table)
    | compare op =>
      obtain ⟨rfl,rfl⟩ := made
      exact rules.compare op (ihLeft first table) (ihRight second table)
    | equal =>
      obtain ⟨rfl,rfl⟩ := made
      exact rules.equality (ihLeft first table) (ihRight second table)
  | cond info test yes no ihTest ihYes ihNo =>
    intro ctx s t code run table
    obtain ⟨_,_,_,u,v,w,first,second,third,rfl,rfl⟩ := lower_cond run
    exact rules.cond (ihTest first table) (ihYes second table) (ihNo third table)
  | loop info test body ihTest ihBody =>
    intro ctx s t code run table
    obtain ⟨_,_,u,v,first,second,rfl,rfl⟩ := lower_loop run
    exact rules.loop (ihTest first table) (ihBody second table)
  | block info exprs ih =>
    intro ctx s t code run table
    obtain ⟨_,steps,rfl⟩ := lower_block run
    exact rules.sequence (lowered_all ih table steps)
  | letIn info bindings body ihBindings ihBody =>
    intro ctx s t code run table
    obtain ⟨_,_,_,u,bound,last,rfl⟩ := lower_let run
    obtain ⟨stores,same⟩ := rules.lowered_bindings ihBindings table bound
    exact rules.letIn stores (ihBody last same)
  | caseOf info scrutinee branches ihScrutinee ihBranches =>
    intro ctx s t code run table
    obtain ⟨_,site,_,_,u,v,first,placed,second,rfl⟩ := lower_case run
    obtain ⟨source,line,drawn,same⟩ := Context.site_run placed
    rw [same]
    exact rules.caseOf source line (ihScrutinee first table) drawn
      (lowered_branches ihBranches table second)
  | new info className =>
    intro ctx s t code run table
    rw [Expr.lower] at run
    split at run
    · cases run
      exact rules.newSelf _
    · obtain ⟨c,_,required,final⟩ := bind_eq_ok.mp run
      obtain ⟨found,rfl⟩ := ofExcept_eq_ok.mp required
      cases final
      rw [ClassTable.require_eq_ok,table] at found
      exact rules.newObject _ (ClassTable.mem_of_find? found).1
  | dispatch info receiver staticClass method args ihReceiver ihArgs =>
    intro ctx s t code run table
    obtain ⟨_,receiverCode,target,_,site,u,v,first,second,found,-,placed,rfl⟩ := lower_dispatch run
    obtain ⟨source,line,drawn,same⟩ := Context.site_run placed
    rw [same]
    have called : P u receiverCode v := by
      split at second
      · cases second
        exact rules.self _
      · exact ihReceiver second table
    refine rules.dispatch _ source line (lowered_args ihArgs table first) called drawn ?_
    intro name given
    split at given
    next => cases given
    next named =>
      cases given
      exact ⟨target,table ▸ target_known found named,rfl⟩

end LoweringInvariant

end CoolBackend
