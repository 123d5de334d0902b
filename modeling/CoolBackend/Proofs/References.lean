import CoolBackend.Proofs.LiteralLabels
import CoolBackend.Proofs.Reading
import CoolBackend.Proofs.StackDiscipline

/-!
Which symbols code refers to. A branch leads to a label of the same piece of code. What is loaded or
called is a constant, a part of a class of the table, or a routine of the runtime system.
-/
namespace CoolBackend

open Assembly

def runtimeSymbols : List String :=
  Builtin.all.flatMap (fun b => b.methods.map (b.name ++ "." ++ ·)) ++
    ["equality_test","_dispatch_abort","_case_abort","_case_abort2","_GenGC_Assign"] ++
    [GcMode.off,.generational,.stopAndCopy].flatMap fun gc => [gc.initializer,gc.collector]

inductive Known (classes : ClassTable) (pool : LiteralPool) : String → Prop where
  | constant {label : String} (member : label ∈ pool.labels) : Known classes pool label
  | bool {label : String} (member : label ∈ Literal.bools.map Literal.label) :
      Known classes pool label
  | prototype {c : ClassEntry} (member : c ∈ classes.toList) :
      Known classes pool (c.name ++ "_protObj")
  | init {c : ClassEntry} (member : c ∈ classes.toList) : Known classes pool (c.name ++ "_init")
  | table {c : ClassEntry} (member : c ∈ classes.toList) : Known classes pool (c.name ++ "_dispTab")
  | objects : Known classes pool "class_objTab"
  | runtime {name : String} (member : name ∈ runtimeSymbols) : Known classes pool name

theorem Known.later {classes : ClassTable} {pool later : LiteralPool} {name : String}
    (known : Known classes pool name) (grows : pool.Grows later) : Known classes later name := by
  cases known with
  | constant member => exact .constant (grows.labels member)
  | bool member => exact .bool member
  | prototype member => exact .prototype member
  | init member => exact .init member
  | table member => exact .table member
  | objects => exact .objects
  | runtime member => exact .runtime member

namespace Assembly

/-- An instruction that loads the addresses of and calls only what is known. -/
@[simp] def Instruction.Fetches (known : String → Prop) : Instruction → Prop
  | la _ label | jal label => known label
  | compute mnemonic _ _ _ | branch mnemonic _ _ _ => isMnemonic mnemonic
  | _ => True

@[simp] def Line.Fetches (known : String → Prop) : Line → Prop
  | instruction i => i.Fetches known
  | directive _ _ => False
  | blank | label _ => True

def Fetching (known : String → Prop) (lines : List Line) : Prop := ∀ l ∈ lines, l.Fetches known

section Fetching

variable {known : String → Prop} {lines rest : List Line}

@[simp] theorem fetching_nil : Fetching known [] := List.forall_mem_nil _

@[simp] theorem fetching_append :
    Fetching known (lines ++ rest) ↔ Fetching known lines ∧ Fetching known rest :=
  List.forall_mem_append

@[simp] theorem fetching_cons {l : Line} :
    Fetching known (l :: rest) ↔ l.Fetches known ∧ Fetching known rest := List.forall_mem_cons

@[simp] theorem fetching_block : Fetching known (block lines) ↔ Fetching known lines :=
  forall_mem_block trivial

theorem Fetching.later {known' : String → Prop} (fetching : Fetching known lines)
    (wider : ∀ name, known name → known' name) : Fetching known' lines := by
  intro l member
  have here := fetching l member
  cases l with
  | instruction i =>
    cases i with
    | la | jal => exact wider _ here
    | _ => exact here
  | _ => exact here

end Fetching

end Assembly

theorem newLabel_literals (s : Supply) (stem : String) :
    (s.newLabel stem).2.literals = s.literals := rfl

structure Links (classes : ClassTable) (s : Supply) (code : Code) (t : Supply) : Prop where
  grows : s.literals.Grows t.literals
  lines : Fetching (Known classes t.literals) code.lines

namespace Links

variable {classes : ClassTable} {s u t : Supply} {code : Code} {codes : List Code}

theorem later (links : Links classes s code u) (grows : u.literals.Grows t.literals) :
    Fetching (Known classes t.literals) code.lines :=
  links.lines.later fun _ known => known.later grows

theorem chain (steps : Chain (Links classes) s codes t) :
    s.literals.Grows t.literals ∧ ∀ c ∈ codes, Fetching (Known classes t.literals) c.lines := by
  induction steps with
  | nil => exact ⟨.refl _,List.forall_mem_nil _⟩
  | cons first _ ih =>
    exact ⟨first.grows.trans ih.1,List.forall_mem_cons.mpr ⟨first.later ih.1,ih.2⟩⟩

theorem linesOf {known : String → Prop} (each : ∀ c ∈ codes, Fetching known c.lines) :
    Fetching known (Code.linesOf codes) := Code.forall_mem_linesOf each

theorem pushLines {known : String → Prop} (each : ∀ c ∈ codes, Fetching known c.lines) :
    Fetching known (Code.pushLines codes) :=
  Code.forall_mem_pushLines trivial (by simp [Code.push]) each

theorem branchLines {tests : List (Nat × String)} {branches : List (BranchHead × Code)}
    (steps : BranchChain (Links classes) s tests branches t) (endLabel : String) :
    s.literals.Grows t.literals ∧
      Fetching (Known classes t.literals) (Code.branchLines endLabel branches) := by
  induction steps with
  | nil => exact ⟨.refl _,fetching_nil⟩
  | cons tags slot first _ ih =>
    obtain ⟨grows,rest⟩ := ih
    refine ⟨first.grows.trans grows,?_⟩
    simp [Code.branchLines,first.later grows,rest]

end Links

theorem fetching_checkVoid {classes : ClassTable} {pool : LiteralPool} {site : Site}
    {handler : String} (file : site.file ∈ pool.labels) (routine : handler ∈ runtimeSymbols) :
    Fetching (Known classes pool) (Code.checkVoid site handler) := by
  simp [Code.checkVoid,Known.constant file,Known.runtime routine]

theorem fetching_tests {known : String → Prop} (none : Prop) [Decidable none]
    (tests : List (Nat × String)) :
    Fetching known (if none then [] else block (Code.testLines tests)) := by
  split
  · exact fetching_nil
  · exact fetching_block.mpr (Code.forall_mem_testLines (fun _ _ => trivial) tests)

theorem fetching_storeTo {classes : ClassTable} {pool : LiteralPool} (base : Register)
    (offset : Int) (barrier : Bool) :
    Fetching (Known classes pool) (code (Code.storeTo base offset barrier)) := by
  have assign : Known classes pool "_GenGC_Assign" := .runtime (by decide)
  cases barrier <;> simp [Code.storeTo,assign]

/-- Everything that lowering makes fetches only what is known. -/
theorem links (classes : ClassTable) : LoweringInvariant classes (Links classes) := by
  have copy {pool : LiteralPool} : Known classes pool "Object.copy" := .runtime (by decide)
  have yes {pool : LiteralPool} : Known classes pool Literal.trueLabel := .bool (by decide)
  have no {pool : LiteralPool} : Known classes pool Literal.falseLabel := .bool (by decide)
  constructor
  case literal =>
    intro s t label value drawn
    obtain ⟨requests,member⟩ := constant_drawn drawn
    refine ⟨requests.grows,?_⟩
    have known : Known classes t.literals label := member.elim .constant .bool
    simp [Code.lines,known]
  case void => exact fun s => ⟨.refl _,by simp [Code.lines]⟩
  case self => exact fun s => ⟨.refl _,by simp [Code.lines]⟩
  case var =>
    exact fun s source => ⟨.refl _,by simp [Code.lines]⟩
  case store =>
    intro s t value target barrier inner
    refine ⟨inner.grows,?_⟩
    simp only [Code.lines,fetching_append,fetching_block]
    exact ⟨inner.lines,fetching_storeTo _ _ _⟩
  case arithmetic =>
    intro s u t left right op mnemonic known first second
    have word : isMnemonic mnemonic := by
      cases op <;> cases known <;> decide
    refine ⟨first.grows.trans second.grows,?_⟩
    simp [Code.lines,Code.push,Code.pop,first.later second.grows,second.lines,copy,word]
  case negate =>
    intro s t operand inner
    refine ⟨inner.grows,?_⟩
    simp [Code.lines,inner.lines,copy]
  case compare =>
    intro s u t left right op first second
    have word : isMnemonic op.mnemonic := by
      unfold RelOp.mnemonic
      split <;> decide
    refine ⟨first.grows.trans second.grows,?_⟩
    simp [Code.lines,Code.push,Code.pop,newLabel_literals,first.later second.grows,second.lines,
      yes,no,word]
  case equality =>
    intro s u t left right first second
    have test : Known classes t.literals "equality_test" := .runtime (by decide)
    have word : isMnemonic "beq" := by decide
    refine ⟨first.grows.trans second.grows,?_⟩
    simp [Code.lines,Code.push,Code.pop,newLabel_literals,first.later second.grows,second.lines,
      yes,no,word,test]
  case predicate =>
    intro s t operand kind inner
    refine ⟨inner.grows,?_⟩
    cases kind <;> simp [Code.lines,newLabel_literals,inner.lines,yes,no]
  case cond =>
    intro s u v t test yes no first second third
    refine ⟨(first.grows.trans second.grows).trans third.grows,?_⟩
    simp [Code.lines,newLabel_literals,first.later (second.grows.trans third.grows),
      second.later third.grows,third.lines]
  case loop =>
    intro s u t test body first second
    refine ⟨first.grows.trans second.grows,?_⟩
    simp [Code.lines,newLabel_literals,first.later second.grows,second.lines]
  case sequence =>
    intro s t steps inner
    obtain ⟨grows,each⟩ := Links.chain inner
    exact ⟨grows,Links.linesOf each⟩
  case letIn =>
    intro s u t stores body first second
    obtain ⟨grows,each⟩ := Links.chain first
    refine ⟨grows.trans second.grows,?_⟩
    simp only [Code.lines,fetching_append,fetching_block]
    exact ⟨(Links.linesOf each).later fun _ known => known.later second.grows,second.lines⟩
  case newObject =>
    intro s c member
    refine ⟨.refl _,?_⟩
    simp [Code.lines,copy,Known.prototype member,Known.init member]
  case newSelf =>
    intro s
    have word : isMnemonic "addu" := by decide
    refine ⟨.refl _,?_⟩
    simp [Code.lines,Code.pop,copy,word,Known.objects]
  case dispatch =>
    intro s u v t args receiver staticClass file offset source line first second drawn named
    obtain ⟨pushed,each⟩ := Links.chain first
    obtain ⟨requests,member⟩ := string_drawn drawn
    have later : v.literals.Grows t.literals := requests.grows
    refine ⟨(pushed.trans second.grows).trans later,?_⟩
    simp only [Code.lines,fetching_append,fetching_block]
    refine ⟨⟨⟨?_,second.later later⟩,fetching_checkVoid member (by decide)⟩,?_⟩
    · exact (Links.pushLines each).later fun _ known => known.later (second.grows.trans later)
    · cases staticClass with
      | none => simp [Code.callThrough]
      | some name =>
        obtain ⟨c,inside,rfl⟩ := named name rfl
        simp [Code.callThrough,Known.table inside]
  case caseOf =>
    intro s u v t scrutinee file tests branches source line first drawn second
    obtain ⟨requests,member⟩ := string_drawn drawn
    obtain ⟨grows,bodies⟩ := Links.branchLines second (v.newLabel "esac").1
    have later : u.literals.Grows t.literals := requests.grows.trans grows
    have abort : Known classes t.literals "_case_abort" := .runtime (by decide)
    refine ⟨first.grows.trans later,?_⟩
    simp only [Code.lines,fetching_append,fetching_block]
    exact ⟨⟨⟨⟨⟨⟨first.later later,fetching_checkVoid (grows.labels member) (by decide)⟩,by simp⟩,
      fetching_tests _ _⟩,by simpa using abort⟩,bodies⟩,by simp⟩

/-- A branch leads to a label of the lines that it stands in. -/
theorem Assembly.Level.target_defined {lines : List Line} (level : Level lines) {i : Instruction}
    {name : String} (member : .instruction i ∈ lines) (leads : i.target? = some name) :
    name ∈ labelsIn lines := by
  obtain ⟨n,here⟩ := List.mem_iff_getElem?.mp member
  rcases (level 0 .entry StackState.held_entry).jumps i name _ (annotated_at here) leads with
    found | outside
  · obtain ⟨k,at_k,-⟩ := of_mem_annotated found
    exact List.mem_filterMap.mpr ⟨.label name,List.mem_of_getElem? at_k,rfl⟩
  · cases outside

end CoolBackend
