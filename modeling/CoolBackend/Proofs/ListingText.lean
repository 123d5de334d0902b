import CoolBackend.Proofs.ImageText
import CoolBackend.Proofs.Listing

/-!
Texts that are joined out of other texts are texts of listings, and so are those that the templates
make of listings. The text of every piece of code is that of its lines.
-/
namespace CoolBackend.Assembly

def below (lines : List Line) : String := String.join (lines.map fun l => "\n" ++ l.text)

@[simp] theorem below_nil : below [] = "" := rfl

theorem below_cons (l : Line) (rest : List Line) :
    below (l :: rest) = "\n" ++ (l.text ++ below rest) := by
  simp [below,String.join_cons,String.append_assoc]

@[simp] theorem below_append (lines rest : List Line) :
    below (lines ++ rest) = below lines ++ below rest := by
  simp [below,String.join_append]

@[simp] theorem joined_nil : joined [] = "" := rfl

theorem joined_cons (l : Line) (rest : List Line) :
    joined (l :: rest) = l.text ++ below rest := by
  induction rest generalizing l with
  | nil => simp [joined]
  | cons m rest ih =>
    have step : joined (l :: m :: rest) = l.text ++ "\n" ++ joined (m :: rest) := by
      simp [joined,String.intercalate_cons_cons]
    rw [step,ih,below_cons]
    simp only [String.append_assoc]

theorem joined_append {lines : List Line} (some : lines ≠ []) (rest : List Line) :
    joined (lines ++ rest) = joined lines ++ below rest := by
  cases lines with
  | nil => exact absurd rfl some
  | cons l lines => simp [joined_cons,String.append_assoc]

theorem below_eq {lines : List Line} (some : lines ≠ []) : below lines = "\n" ++ joined lines := by
  cases lines with
  | nil => exact absurd rfl some
  | cons l lines => simp [joined_cons,below_cons]

theorem block_ne_nil (lines : List Line) : block lines ≠ [] := by
  cases lines with
  | nil => simp [block]
  | cons l rest => simp [block]

theorem block_eq {lines : List Line} (some : lines ≠ []) : block lines = lines := by
  simp [block,some]

theorem subset_block (lines : List Line) : lines ⊆ block lines := by
  by_cases empty : lines = []
  · subst empty
    exact List.nil_subset _
  · rw [block_eq empty]
    exact List.Subset.refl _

theorem forall_mem_block {P : Line → Prop} (blank : P .blank) {lines : List Line} :
    (∀ l ∈ block lines, P l) ↔ ∀ l ∈ lines, P l := by
  by_cases empty : lines = []
  · subst empty
    simpa [block] using blank
  · rw [block_eq empty]

@[simp] theorem code_nil : code [] = [] := rfl

@[simp] theorem code_cons (i : Instruction) (rest : List Instruction) :
    code (i :: rest) = .instruction i :: code rest := rfl

@[simp] theorem code_append (instructions rest : List Instruction) :
    code (instructions ++ rest) = code instructions ++ code rest := List.map_append

@[simp] theorem joined_block (lines : List Line) : joined (block lines) = joined lines := by
  by_cases empty : lines = []
  · subst empty; rfl
  · rw [block_eq empty]

@[simp] theorem joined_block_append (lines rest : List Line) :
    joined (block lines ++ rest) = joined lines ++ below rest := by
  rw [joined_append (block_ne_nil lines),joined_block]

@[simp] theorem below_block (lines : List Line) : below (block lines) = "\n" ++ joined lines := by
  rw [below_eq (block_ne_nil lines),joined_block]

theorem Line.text_eq_empty {l : Line} : l.text = "" ↔ l = .blank := by
  have written (mnemonic : String) (operands : List String) : statement mnemonic operands ≠ "" := by
    cases operands <;> simp [statement]
  cases l <;> simp [text,written]

/-- Only a listing without lines, and one with a single blank line, has no text. -/
theorem joined_eq_empty {lines : List Line} :
    joined lines = "" ↔ lines = [] ∨ lines = [.blank] := by
  cases lines with
  | nil => simp
  | cons l rest =>
    cases rest with
    | nil => simp [joined_cons,Line.text_eq_empty]
    | cons m rest => simp [joined_cons,below_cons]

/-- Texts of listings one below the other. A listing without lines takes no line. -/
theorem joinLines_joined {listings : List (List Line)}
    (solid : ∀ lines ∈ listings, lines ≠ [.blank]) :
    joinLines (listings.map joined) = joined listings.flatten := by
  -- What follows the first text, whether or not the texts in between are empty.
  have rest (others : List (List Line)) (solid : ∀ lines ∈ others, lines ≠ [.blank]) :
      String.join (((others.map joined).filter (· ≠ "")).map ("\n" ++ ·)) =
        below others.flatten := by
    induction others with
    | nil => rfl
    | cons lines others ih =>
      obtain ⟨first,solid⟩ := List.forall_mem_cons.mp solid
      by_cases empty : lines = []
      · simpa [empty] using ih solid
      · have text : joined lines ≠ "" := by simp [joined_eq_empty,empty,first]
        simpa [text,String.join_cons,below_eq empty] using ih solid
  have whole (text : String) (texts : List String) :
      "\n".intercalate (text :: texts) = text ++ String.join (texts.map ("\n" ++ ·)) := by
    induction texts generalizing text with
    | nil => simp
    | cons next texts ih =>
      simp [String.intercalate_cons_cons,ih,String.join_cons,String.append_assoc]
  induction listings with
  | nil => rfl
  | cons lines others ih =>
    obtain ⟨first,solid⟩ := List.forall_mem_cons.mp solid
    by_cases empty : lines = []
    · simpa [empty,joinLines,joinNonEmpty] using ih solid
    · have text : joined lines ≠ "" := by simp [joined_eq_empty,empty,first]
      rw [List.flatten_cons,joined_append empty,← rest others solid,← whole]
      simp [joinLines,joinNonEmpty,text]

@[simp] theorem spaced_singleton (lines : List Line) : spaced [lines] = lines := by
  simp [spaced,List.intercalate]

theorem spaced_cons {lines : List Line} {others : List (List Line)} (some : others ≠ []) :
    spaced (lines :: others) = lines ++ .blank :: spaced others := by
  cases others with
  | nil => exact absurd rfl some
  | cons next others => simp [spaced,List.intercalate]

theorem spaced_ne_nil {lines : List Line} (some : lines ≠ []) (others : List (List Line)) :
    spaced (lines :: others) ≠ [] := by
  cases others with
  | nil => simpa using some
  | cons next others => simp [spaced_cons]

/-- Texts of listings with a blank line between them. -/
theorem joinSpaced_joined {listings : List (List Line)}
    (solid : ∀ lines ∈ listings, lines ≠ [] ∧ lines ≠ [.blank]) :
    joinSpaced (listings.map joined) = joined (spaced listings) := by
  have kept : (listings.map joined).filter (· ≠ "") = listings.map joined := by
    rw [List.filter_eq_self]
    intro text member
    obtain ⟨lines,among,rfl⟩ := List.mem_map.mp member
    have written := solid lines among
    simp [joined_eq_empty,written]
  rw [joinSpaced,joinNonEmpty,kept]
  clear kept
  induction listings with
  | nil => rfl
  | cons lines others ih =>
    obtain ⟨⟨first,-⟩,solid⟩ := List.forall_mem_cons.mp solid
    cases others with
    | nil => simp
    | cons next others =>
      have more : next :: others ≠ [] := List.cons_ne_nil _ _
      have rest := spaced_ne_nil (solid next List.mem_cons_self).1 others
      have step : "\n\n".intercalate ((lines :: next :: others).map joined) =
          joined lines ++ "\n\n" ++ "\n\n".intercalate ((next :: others).map joined) := by
        simp [String.intercalate_cons_cons]
      have gap : ("\n\n" : String) = "\n" ++ "\n" := rfl
      rw [step,ih solid,spaced_cons more,joined_append first,below_cons,below_eq rest,gap]
      simp only [Line.text,String.append_assoc,String.empty_append]

@[simp] theorem valuesOf_nil {α : Type} (key : String) :
    valuesOf ([] : List (String × α)) key = [] := rfl

@[simp] theorem valuesOf_cons {α : Type} (b : String × α) (rest : List (String × α))
    (key : String) : valuesOf (b :: rest) key =
      if b.1 = key then b.2 :: valuesOf rest key else valuesOf rest key := by
  by_cases same : b.1 = key
  · simp [valuesOf,same]
  · simp [valuesOf,same]

@[simp] theorem valuesOf_append {α : Type} (bindings rest : List (String × α)) (key : String) :
    valuesOf (bindings ++ rest) key = valuesOf bindings key ++ valuesOf rest key := by
  simp [valuesOf]

@[simp] theorem valuesOf_map {α β : Type} (name : String) (f : α → β) (xs : List α)
    (key : String) : valuesOf (xs.map fun x => (name,f x)) key =
      if name = key then xs.map f else [] := by
  induction xs with
  | nil => simp
  | cons x rest ih =>
    by_cases same : name = key
    · simpa [same] using ih
    · simpa [same] using ih

@[simp] theorem renderBindings_append (group : Group) (bindings rest : List (String × Value)) :
    renderBindings group (bindings ++ rest) =
      renderBindings group bindings ++ renderBindings group rest := by
  induction bindings with
  | nil => rfl
  | cons b bindings ih => simp [renderBindings,ih]

@[simp] theorem renderBindings_map {α : Type} (group : Group) (name : String) (f : α → Value)
    (xs : List α) : renderBindings group (xs.map fun x => (name,f x)) =
      xs.map fun x => (name,(f x).render group) := by
  induction xs with
  | nil => rfl
  | cons x rest ih => simp [renderBindings,ih]

/-- A fragment whose template writes a listing. -/
theorem render_listing {name : String} {template : Template} {bindings : List (String × Value)}
    (texts : List (String × String)) {lines : List Line}
    (found : Spim.group.find? name = some template)
    (rendered : renderBindings Spim.group bindings = texts.map fun b => (b.1,.ok b.2))
    (text : Template.render (valuesOf texts) template = joined lines) :
    (Value.fragment name bindings).render Spim.group = .ok (joined lines) := by
  rw [render_fragment found rendered,text]

/-- A sequence of fragments that write listings. -/
theorem render_sequenceOf {values : List Value} (listings : List (List Line))
    (each : values.map (Value.render Spim.group) = listings.map fun lines => .ok (joined lines))
    (solid : ∀ lines ∈ listings, lines ≠ [.blank]) :
    (Code.sequenceOf values).render Spim.group = .ok (joined listings.flatten) := by
  have rendered : renderBindings Spim.group (values.map ("e",·)) =
      (listings.map fun lines => ("e",joined lines)).map fun b => (b.1,.ok b.2) := by
    have pairs := congrArg (List.map (Prod.mk "e")) each
    have own := renderBindings_map Spim.group "e" id values
    simpa [Function.comp_def] using own.trans (by simpa [Function.comp_def] using pairs)
  refine render_listing _ rfl rendered ?_
  simp [Spim.sequence,Template.render,Part.render,joinLines_joined solid]

/-- The text of an instruction behind other text, with its known parts together. -/
def Instruction.textAfter (start : String) : Instruction → String
  | la target label => start ++ "\tla\t" ++ target.name ++ " " ++ label
  | li target value => start ++ "\tli\t" ++ target.name ++ " " ++ toString value
  | move target source => start ++ "\tmove\t" ++ target.name ++ " " ++ source.name
  | lw target offset base =>
    start ++ "\tlw\t" ++ target.name ++ " " ++ toString offset ++ ("(" ++ base.name ++ ")")
  | sw source offset base =>
    start ++ "\tsw\t" ++ source.name ++ " " ++ toString offset ++ ("(" ++ base.name ++ ")")
  | addiu target source amount =>
    start ++ "\taddiu\t" ++ target.name ++ " " ++ source.name ++ " " ++ toString amount
  | sll target source amount =>
    start ++ "\tsll\t" ++ target.name ++ " " ++ source.name ++ " " ++ toString amount
  | neg target source => start ++ "\tneg\t" ++ target.name ++ " " ++ source.name
  | compute mnemonic target left right =>
    start ++ "\t" ++ mnemonic ++ ("\t" ++ target.name ++ " " ++ left.name ++ " " ++ right.name)
  | b label => start ++ "\tb\t" ++ label
  | beqz source label => start ++ "\tbeqz\t" ++ source.name ++ " " ++ label
  | bnez source label => start ++ "\tbnez\t" ++ source.name ++ " " ++ label
  | branch mnemonic left right label =>
    start ++ "\t" ++ mnemonic ++ ("\t" ++ left.name ++ " " ++ right.name ++ " ") ++ label
  | beqTag source tag label =>
    start ++ "\tbeq\t" ++ source.name ++ " " ++ toString (tag : Int) ++ " " ++ label
  | jal label => start ++ "\tjal\t" ++ label
  | jalr target _ => start ++ "\tjalr\t" ++ target.name
  | jr target => start ++ "\tjr\t" ++ target.name

theorem Instruction.textAfter_eq (start : String) (i : Instruction) :
    i.textAfter start = start ++ (Line.instruction i).text := by
  apply String.toList_inj.mp
  cases i <;> simp [textAfter,Line.text,statement,mnemonic,operands,address]

theorem joined_instruction (i : Instruction) (rest : List Line) :
    joined (.instruction i :: rest) = i.textAfter "" ++ below rest := by
  rw [joined_cons,i.textAfter_eq,String.empty_append]

theorem below_instruction (i : Instruction) (rest : List Line) :
    below (.instruction i :: rest) = i.textAfter "\n" ++ below rest := by
  rw [below_cons,i.textAfter_eq,String.append_assoc]

theorem joined_label (name : String) (rest : List Line) :
    joined (.label name :: rest) = name ++ ":" ++ below rest := by
  rw [joined_cons,Line.text]

theorem below_label (name : String) (rest : List Line) :
    below (.label name :: rest) = "\n" ++ name ++ ":" ++ below rest := by
  rw [below_cons,Line.text]
  simp only [String.append_assoc]

/-- Two texts that a template holds apart. -/
theorem fused {first second both : String} (same : first ++ second = both) (rest : String) :
    first ++ (second ++ rest) = both ++ rest := by
  rw [← String.append_assoc,same]

theorem ne_blank_of_mem {lines : List Line} {i : Instruction} (member : .instruction i ∈ lines) :
    lines ≠ [.blank] := by
  rintro rfl
  simp at member

end CoolBackend.Assembly

namespace CoolBackend

open Assembly

theorem Base.name_toRegister (base : Base) : base.toRegister.name = base.register := by
  cases base <;> rfl

namespace Code

theorem linesOf_eq (codes : List Code) : linesOf codes = (codes.map lines).flatten := by
  induction codes with
  | nil => rfl
  | cons c rest ih => simp [linesOf,ih]

theorem pushLines_eq (args : List Code) :
    pushLines args = (args.map fun c => block c.lines ++ code push).flatten := by
  induction args with
  | nil => rfl
  | cons c rest ih => simp [pushLines,ih]

theorem testLines_eq (tests : List (Nat × String)) : testLines tests =
    (tests.map fun (tag,target) => code [.beqTag .t2 tag target]).flatten := by
  induction tests with
  | nil => rfl
  | cons t rest ih => simpa [testLines] using ih

/-- The lines of one branch of a `case`. -/
def branchListing (endLabel : String) (branch : BranchHead × Code) : List Line :=
  [.label branch.1.label] ++ code [.sw .a0 branch.1.slot.offset .fp] ++ block branch.2.lines ++
    code [.b endLabel]

theorem branchLines_eq (endLabel : String) (branches : List (BranchHead × Code)) :
    branchLines endLabel branches = (branches.map (branchListing endLabel)).flatten := by
  induction branches with
  | nil => rfl
  | cons b rest ih => simp [branchLines,branchListing,ih]

section Members

variable {P : Line → Prop} {codes : List Code} {c : Code}

theorem subset_linesOf (member : c ∈ codes) : c.lines ⊆ linesOf codes := by
  intro l here
  rw [linesOf_eq,← List.flatMap_def]
  exact List.mem_flatMap.mpr ⟨c,member,here⟩

theorem subset_pushLines (member : c ∈ codes) : c.lines ⊆ pushLines codes := by
  intro l here
  rw [pushLines_eq,← List.flatMap_def]
  exact List.mem_flatMap.mpr ⟨c,member,List.mem_append_left _ (subset_block _ here)⟩

theorem forall_mem_linesOf (each : ∀ c ∈ codes, ∀ l ∈ c.lines, P l) :
    ∀ l ∈ linesOf codes, P l := by
  rw [linesOf_eq,← List.flatMap_def]
  exact List.forall_mem_flatMap.mpr each

theorem forall_mem_pushLines (blank : P .blank) (pushed : ∀ l ∈ code push, P l)
    (each : ∀ c ∈ codes, ∀ l ∈ c.lines, P l) : ∀ l ∈ pushLines codes, P l := by
  rw [pushLines_eq,← List.flatMap_def]
  refine List.forall_mem_flatMap.mpr fun c member => List.forall_mem_append.mpr ⟨?_,pushed⟩
  exact (forall_mem_block blank).mpr (each c member)

theorem forall_mem_testLines (each : ∀ tag target, P (.instruction (.beqTag .t2 tag target)))
    (tests : List (Nat × String)) : ∀ l ∈ testLines tests, P l := by
  rw [testLines,code,List.map_map]
  exact List.forall_mem_map.mpr fun test _ => each test.1 test.2

end Members

mutual

/-- No piece of code is a blank line: one that has any lines has a text. -/
theorem lines_ne_blank : (c : Code) → c.lines ≠ [.blank]
  | .loadLiteral _ => by simp [lines]
  | .loadVoid => by simp [lines]
  | .loadSelf => by simp [lines]
  | .loadVar _ => by simp [lines]
  | .storeVar _ target _ => ne_blank_of_mem (i := .sw .a0 target.offset target.base.toRegister)
      (by simp [lines,storeTo])
  | .arithmetic _ _ _ => ne_blank_of_mem (i := .jal "Object.copy") (by simp [lines])
  | .negate _ => ne_blank_of_mem (i := .jal "Object.copy") (by simp [lines])
  | .compare _ _ _ _ => ne_blank_of_mem (i := .lw .t2 12 .a0) (by simp [lines])
  | .equality _ _ _ => ne_blank_of_mem (i := .move .t2 .a0) (by simp [lines])
  | .predicate _ _ label => ne_blank_of_mem (i := .beqz .t1 label) (by simp [lines])
  | .cond _ _ _ _ endLabel => ne_blank_of_mem (i := .b endLabel) (by simp [lines])
  | .loop _ _ loopLabel _ => ne_blank_of_mem (i := .b loopLabel) (by simp [lines])
  | .sequence steps => linesOf_ne_blank steps
  | .letIn stores body => by
    intro single
    have size := congrArg List.length single
    have first := List.length_pos_iff.mpr (block_ne_nil (linesOf stores))
    have second := List.length_pos_iff.mpr (block_ne_nil body.lines)
    simp [lines] at size
    omega
  | .newObject _ => by simp [lines]
  | .newSelf => by simp [lines]
  | .dispatch args _ _ _ _ =>
    ne_blank_of_mem (i := .jalr .t1 args.length) (by simp [lines,callThrough])
  | .caseOf _ _ _ _ _ => ne_blank_of_mem (i := .jal "_case_abort") (by simp [lines])

theorem linesOf_ne_blank : (codes : List Code) → linesOf codes ≠ [.blank]
  | [] => by simp [linesOf]
  | c :: rest => by
    have first := c.lines_ne_blank
    have others := linesOf_ne_blank rest
    intro single
    rcases List.append_eq_singleton_iff.mp single with ⟨-,same⟩ | ⟨same,-⟩
    · exact others same
    · exact first same

end

-- What the templates and the texts of lines are made of.
attribute [local simp] Template.render Part.render joinLines_singleton joined_instruction
  below_instruction joined_label below_label Instruction.textAfter String.append_assoc push pop
  storeTo checkVoid callThrough Base.name_toRegister renderBindings Value.render outcomeBindings
  siteBindings barrierBindings

/-- Numbers that the templates hold. -/
theorem repr_literals : Int.repr 0 = "0" ∧ Int.repr 3 = "3" ∧ Int.repr 4 = "4" ∧ Int.repr 8 = "8" ∧
    Int.repr 12 = "12" ∧ Int.repr (-4) = "-4" ∧ Int.repr (-12) = "-12" :=
  ⟨rfl,rfl,rfl,rfl,rfl,rfl,rfl⟩

theorem register_names : Register.zero.name = "$zero" ∧ Register.a0.name = "$a0" ∧
    Register.a1.name = "$a1" ∧ Register.t1.name = "$t1" ∧ Register.t2.name = "$t2" ∧
    Register.s0.name = "$s0" ∧ Register.fp.name = "$fp" ∧ Register.sp.name = "$sp" ∧
    Register.ra.name = "$ra" := ⟨rfl,rfl,rfl,rfl,rfl,rfl,rfl,rfl,rfl⟩

attribute [local simp] repr_literals register_names

theorem render_caseTests (tests : List (Nat × String)) :
    (tests.map fun (tag,target) => caseTest tag target).map (Value.render Spim.group) =
      tests.map fun (tag,target) => .ok (joined (code [.beqTag .t2 tag target])) := by
  rw [List.map_map]
  apply List.map_congr_left
  rintro ⟨tag,target⟩ -
  exact render_listing [("tag",toString (tag : Int)),("target",target)] rfl rfl
    (by simp [Spim.caseTest])

mutual

/-- The text of a piece of code is that of its lines. -/
theorem render_toValue : (c : Code) → c.toValue.render Spim.group = .ok (joined c.lines)
  | .loadLiteral label => render_listing [("value",label)] rfl rfl
      (by simp [Spim.loadLiteral,lines])
  | .loadVoid => render_listing [] rfl rfl (by simp [Spim.loadVoid,lines])
  | .loadSelf => render_listing [] rfl rfl (by simp [Spim.loadSelf,lines])
  | .loadVar source => render_listing [("offset",toString source.offset),
      ("base",source.base.register)] rfl rfl (by simp [Spim.loadVar,lines])
  | .storeVar value target barrier => by
    have inner := value.render_toValue
    refine render_listing ([("expr",joined value.lines),("offset",toString target.offset),
      ("base",target.base.register)] ++ if barrier then [("gcAssign","1")] else []) rfl ?_ ?_
    · cases barrier <;> simp [inner]
    · have sw := fused (rfl : "\n" ++ "\tsw\t$a0 " = "\n\tsw\t$a0 ")
      cases barrier <;> simp [Spim.storeVar,lines,sw]
  | .arithmetic mnemonic left right => by
    have first := left.render_toValue
    have second := right.render_toValue
    exact render_listing [("leftExpr",joined left.lines),
      ("rightExpr",joined right.lines),("op",mnemonic)] rfl (by simp [first,second])
      (by simp [Spim.arithmetic,lines])
  | .negate operand => by
    have inner := operand.render_toValue
    exact render_listing [("expr",joined operand.lines)] rfl (by simp [inner])
      (by simp [Spim.negate,lines])
  | .compare mnemonic left right label => by
    have first := left.render_toValue
    have second := right.render_toValue
    exact render_listing [("leftExpr",joined left.lines),
      ("rightExpr",joined right.lines),("op",mnemonic),("trueConst",Literal.trueLabel),
      ("falseConst",Literal.falseLabel),("label",label)] rfl (by simp [first,second])
      (by simp [Spim.compare,lines])
  | .equality left right label => by
    have first := left.render_toValue
    have second := right.render_toValue
    exact render_listing [("leftExpr",joined left.lines),
      ("rightExpr",joined right.lines),("trueConst",Literal.trueLabel),
      ("falseConst",Literal.falseLabel),("label",label)] rfl (by simp [first,second])
      (by simp [Spim.equality,lines])
  | .predicate .not operand label => by
    have inner := operand.render_toValue
    exact render_listing [("expr",joined operand.lines),("trueConst",Literal.trueLabel),
      ("falseConst",Literal.falseLabel),("label",label)] rfl (by simp [inner])
      (by simp [Spim.notTest,lines])
  | .predicate .isVoid operand label => by
    have inner := operand.render_toValue
    exact render_listing [("expr",joined operand.lines),("trueConst",Literal.trueLabel),
      ("falseConst",Literal.falseLabel),("label",label)] rfl (by simp [inner])
      (by simp [Spim.isvoid,lines])
  | .cond test yes no elseLabel endLabel => by
    have first := test.render_toValue
    have second := yes.render_toValue
    have third := no.render_toValue
    exact render_listing [("condExpr",joined test.lines),("thenExpr",joined yes.lines),
      ("elseExpr",joined no.lines),("elseLabel",elseLabel),("endLabel",endLabel)] rfl
      (by simp [first,second,third]) (by simp [Spim.cond,lines])
  | .loop test body loopLabel endLabel => by
    have first := test.render_toValue
    have second := body.render_toValue
    exact render_listing [("condExpr",joined test.lines),("body",joined body.lines),
      ("loopLabel",loopLabel),("endLabel",endLabel)] rfl (by simp [first,second])
      (by simp [Spim.loop,lines])
  | .sequence steps => by
    rw [toValue,lines,linesOf_eq]
    refine render_sequenceOf _ ?_ ?_
    · simpa [Function.comp_def] using render_toValues steps
    · simpa using fun c _ => c.lines_ne_blank
  | .letIn stores body => by
    have inits : (sequenceOf (toValues stores)).render Spim.group =
        .ok (joined (linesOf stores)) := by
      rw [linesOf_eq]
      exact render_sequenceOf _ (by simpa [Function.comp_def] using render_toValues stores)
        (by simpa using fun c _ => c.lines_ne_blank)
    have inner := body.render_toValue
    exact render_listing [("inits",joined (linesOf stores)),("body",joined body.lines)]
      rfl (by simp [inits,inner]) (by simp [Spim.letIn,lines])
  | .newObject className => render_listing [("className",className)] rfl rfl
      (by simp [Spim.newObject,lines])
  | .newSelf => render_listing [] rfl rfl (by simp [Spim.newSelfType,lines])
  | .dispatch args receiver staticClass offset site => by
    have inner := receiver.render_toValue
    have params :
        (sequenceOf (toPushes args)).render Spim.group = .ok (joined (pushLines args)) := by
      rw [pushLines_eq]
      exact render_sequenceOf _ (by simpa [Function.comp_def] using render_toPushes args)
        (by simpa using fun c _ => ne_blank_of_mem (i := .sw .a0 0 .sp) (by simp))
    have la := fused (rfl : "\n" ++ "\tla\t$t1 " = "\n\tla\t$t1 ")
    have lw := fused (rfl : "\n" ++ "\tlw\t$t1 8($a0)" = "\n\tlw\t$t1 8($a0)")
    refine render_listing (
      (if args.isEmpty then [] else [("params",joined (pushLines args))]) ++
      [("receiver",joined receiver.lines)] ++ (staticClass.map fun c => ("staticClass",c)).toList ++
      [("offset",toString (offset : Int)),("label",site.label),("fileName",site.file),
        ("line",toString site.line.toInt)]) rfl ?_ ?_
    · cases args <;> cases staticClass <;> simp_all
    · cases args with
      | nil => cases staticClass <;> simp [Spim.dispatch,lines,pushLines,la,lw]
      | cons c rest =>
        have first : joined (pushLines (c :: rest) ++ (block receiver.lines ++
            (checkVoid site "_dispatch_abort" ++
              code (callThrough staticClass offset (rest.length + 1))))) =
            joined (pushLines (c :: rest)) ++ below (block receiver.lines ++
              (checkVoid site "_dispatch_abort" ++
                code (callThrough staticClass offset (rest.length + 1)))) :=
          joined_append (by simp [pushLines,block_ne_nil]) _
        cases staticClass <;> simp_all [Spim.dispatch,lines]
  | .caseOf scrutinee site tests branches endLabel => by
    have inner := scrutinee.render_toValue
    have guards : (sequenceOf (tests.map fun (tag,target) => caseTest tag target)).render
        Spim.group = .ok (joined (testLines tests)) := by
      rw [testLines_eq]
      refine render_sequenceOf _ (by simpa [Function.comp_def] using render_caseTests tests) ?_
      exact List.forall_mem_map.mpr fun _ _ => by simp
    have bodies : (sequenceOf (toBranches endLabel branches)).render Spim.group =
        .ok (joined (branchLines endLabel branches)) := by
      rw [branchLines_eq]
      refine render_sequenceOf _
        (by simpa [Function.comp_def] using render_toBranches endLabel branches) ?_
      exact List.forall_mem_map.mpr fun _ _ => by simp [branchListing]
    refine render_listing ([("expr",joined scrutinee.lines),("label",site.label),
      ("fileName",site.file),("line",toString site.line.toInt)] ++
      (if branches.isEmpty then [] else [("tests",joined (testLines tests)),
        ("branches",joined (branchLines endLabel branches))]) ++ [("endLabel",endLabel)]) rfl ?_ ?_
    · cases branches <;> simp_all
    · cases branches with
      | nil => simp [Spim.caseOf,lines,branchLines]
      | cons b rest =>
        have some : branchLines endLabel (b :: rest) ≠ [] := by simp [branchLines]
        simp [Spim.caseOf,lines,below_eq some]

theorem render_toValues : (codes : List Code) →
    (toValues codes).map (Value.render Spim.group) = codes.map fun c => .ok (joined c.lines)
  | [] => rfl
  | c :: rest => by simp [toValues,c.render_toValue,render_toValues rest]

theorem render_toPushes : (args : List Code) → (toPushes args).map (Value.render Spim.group) =
    args.map fun c => .ok (joined (block c.lines ++ code push))
  | [] => rfl
  | c :: rest => by
    have inner := c.render_toValue
    have first : (Value.fragment "push" [("expr",c.toValue)]).render Spim.group =
        .ok (joined (block c.lines ++ code push)) :=
      render_listing [("expr",joined c.lines)] rfl (by simp [inner]) (by simp [Spim.push])
    rw [toPushes,List.map_cons,List.map_cons,first,render_toPushes rest]

theorem render_toBranches (endLabel : String) : (branches : List (BranchHead × Code)) →
    (toBranches endLabel branches).map (Value.render Spim.group) =
      branches.map fun b => .ok (joined (branchListing endLabel b))
  | [] => rfl
  | (head,body) :: rest => by
    have inner := body.render_toValue
    have first : (Value.fragment "caseBranch" [("label",.text head.label),
        ("offset",.int head.slot.offset),("body",body.toValue),("endLabel",.text endLabel)]).render
        Spim.group = .ok (joined (branchListing endLabel (head,body))) :=
      render_listing [("label",head.label),("offset",toString head.slot.offset),
        ("body",joined body.lines),("endLabel",endLabel)] rfl (by simp [inner])
        (by simp [Spim.caseBranch,branchListing])
    rw [toBranches,List.map_cons,List.map_cons,first,render_toBranches endLabel rest]

end

end Code

end CoolBackend
