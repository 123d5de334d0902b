import CoolBackend.Assemble

/-!
The lines of an assembly text as data: labels, instructions and directives. Lowered code, the
routines around it, the tables and whole images are lists of such lines. A blank line stands where a
template leaves room for code that turns out to be empty.
-/
namespace CoolBackend.Assembly

inductive Register where
  | zero
  | a0
  | a1
  | t1
  | t2
  | s0
  | fp
  | sp
  | ra
  deriving DecidableEq

def Register.name : Register → String
  | zero => "$zero"
  | a0 => "$a0"
  | a1 => "$a1"
  | t1 => "$t1"
  | t2 => "$t2"
  | s0 => "$s0"
  | fp => "$fp"
  | sp => "$sp"
  | ra => "$ra"

/-- The instructions that programs consist of. A `jalr` knows how many arguments the routine that it
calls takes off the stack, which its text does not show. -/
inductive Instruction where
  | la (target : Register) (label : String)
  | li (target : Register) (value : Int)
  | move (target source : Register)
  | lw (target : Register) (offset : Int) (base : Register)
  | sw (source : Register) (offset : Int) (base : Register)
  | addiu (target source : Register) (amount : Int)
  | sll (target source : Register) (amount : Int)
  | neg (target source : Register)
  | compute (mnemonic : String) (target left right : Register)
  | b (label : String)
  | beqz (source : Register) (label : String)
  | bnez (source : Register) (label : String)
  | branch (mnemonic : String) (left right : Register) (label : String)
  | beqTag (source : Register) (tag : Nat) (label : String)
  | jal (label : String)
  | jalr (target : Register) (arguments : Nat)
  | jr (target : Register)
  deriving DecidableEq

namespace Instruction

def mnemonic : Instruction → String
  | la _ _ => "la"
  | li _ _ => "li"
  | move _ _ => "move"
  | lw _ _ _ => "lw"
  | sw _ _ _ => "sw"
  | addiu _ _ _ => "addiu"
  | sll _ _ _ => "sll"
  | neg _ _ => "neg"
  | compute mnemonic _ _ _ => mnemonic
  | b _ => "b"
  | beqz _ _ => "beqz"
  | bnez _ _ => "bnez"
  | branch mnemonic _ _ _ => mnemonic
  | beqTag _ _ _ => "beq"
  | jal _ => "jal"
  | jalr _ _ => "jalr"
  | jr _ => "jr"

def address (offset : Int) (base : Register) : String :=
  toString offset ++ "(" ++ base.name ++ ")"

def operands : Instruction → List String
  | la target label => [target.name,label]
  | li target value => [target.name,toString value]
  | move target source => [target.name,source.name]
  | lw target offset base => [target.name,address offset base]
  | sw source offset base => [source.name,address offset base]
  | addiu target source amount => [target.name,source.name,toString amount]
  | sll target source amount => [target.name,source.name,toString amount]
  | neg target source => [target.name,source.name]
  | compute _ target left right => [target.name,left.name,right.name]
  | b label => [label]
  | beqz source label => [source.name,label]
  | bnez source label => [source.name,label]
  | branch _ left right label => [left.name,right.name,label]
  | beqTag source tag label => [source.name,toString (tag : Int),label]
  | jal label => [label]
  | jalr target _ => [target.name]
  | jr target => [target.name]

def target? : Instruction → Option String
  | b label | beqz _ label | bnez _ label | branch _ _ _ label | beqTag _ _ label => some label
  | _ => none

def symbol? : Instruction → Option String
  | la _ label | jal label => some label
  | i => i.target?

end Instruction

inductive Line where
  | blank
  | label (name : String)
  | instruction (i : Instruction)
  | directive (name : String) (operands : List String)
  deriving DecidableEq

def statement (mnemonic : String) : List String → String
  | [] => "\t" ++ mnemonic
  | operands => "\t" ++ mnemonic ++ "\t" ++ " ".intercalate operands

namespace Line

def text : Line → String
  | blank => ""
  | label name => name ++ ":"
  | instruction i => statement i.mnemonic i.operands
  | directive name operands => statement name operands

def word (operand : String) : Line := directive ".word" [operand]

def label? : Line → Option String
  | label name => some name
  | _ => none

end Line

def joined (lines : List Line) : String := "\n".intercalate (lines.map Line.text)

def block (lines : List Line) : List Line := if lines.isEmpty then [.blank] else lines

def spaced (listings : List (List Line)) : List Line := [Line.blank].intercalate listings

def code (instructions : List Instruction) : List Line := instructions.map .instruction

def labelsIn (lines : List Line) : List String := lines.filterMap Line.label?

end CoolBackend.Assembly

namespace CoolBackend

open Assembly

def Base.toRegister : Base → Register
  | receiver => .s0
  | frame => .fp

namespace Code

def push : List Instruction := [.sw .a0 0 .sp,.addiu .sp .sp (-4)]

def pop : List Instruction := [.lw .t1 4 .sp,.addiu .sp .sp 4]

def storeTo (base : Register) (offset : Int) (barrier : Bool) : List Instruction :=
  .sw .a0 offset base ::
    if barrier then [.addiu .a1 base offset,.jal "_GenGC_Assign"] else []

/-- Goes to the label of the site unless `$a0` is void, in which case `handler` reports the site. -/
def checkVoid (site : Site) (handler : String) : List Line :=
  code [.bnez .a0 site.label,.la .a0 site.file,.li .t1 site.line.toInt,.jal handler] ++
    [.label site.label]

/-- Calls the method at an offset of a dispatch table: that of a given class, or that of the object
in `$a0`. -/
def callThrough (staticClass : Option String) (offset arguments : Nat) : List Instruction :=
  [(match staticClass with
      | some c => .la .t1 (c ++ "_dispTab")
      | none => .lw .t1 8 .a0),
    .lw .t1 offset .t1,.jalr .t1 arguments]

def testLines (tests : List (Nat × String)) : List Line :=
  code (tests.map fun (tag,target) => .beqTag .t2 tag target)

mutual

def lines : Code → List Line
  | .loadLiteral label => code [.la .a0 label]
  | .loadVoid => code [.move .a0 .zero]
  | .loadSelf => code [.move .a0 .s0]
  | .loadVar source => code [.lw .a0 source.offset source.base.toRegister]
  | .storeVar value target barrier =>
    block value.lines ++ code (storeTo target.base.toRegister target.offset barrier)
  | .arithmetic mnemonic left right =>
    block left.lines ++ code push ++ block right.lines ++ code [.jal "Object.copy"] ++ code pop ++
      code [.lw .t1 12 .t1,.lw .t2 12 .a0,.compute mnemonic .t1 .t1 .t2,.sw .t1 12 .a0]
  | .negate operand =>
    block operand.lines ++
      code [.jal "Object.copy",.lw .t1 12 .a0,.neg .t1 .t1,.sw .t1 12 .a0]
  | .compare mnemonic left right label =>
    block left.lines ++ code push ++ block right.lines ++ code pop ++
      code [.lw .t1 12 .t1,.lw .t2 12 .a0,.la .a0 Literal.trueLabel,
        .branch mnemonic .t1 .t2 label,.la .a0 Literal.falseLabel] ++ [.label label]
  | .equality left right label =>
    block left.lines ++ code push ++ block right.lines ++ code pop ++
      code [.move .t2 .a0,.la .a0 Literal.trueLabel,.branch "beq" .t1 .t2 label,
        .la .a1 Literal.falseLabel,.jal "equality_test"] ++ [.label label]
  | .predicate kind operand label =>
    block operand.lines ++
      code [(match kind with
          | .not => .lw .t1 12 .a0
          | .isVoid => .move .t1 .a0),
        .la .a0 Literal.trueLabel,.beqz .t1 label,.la .a0 Literal.falseLabel] ++ [.label label]
  | .cond test yes no elseLabel endLabel =>
    block test.lines ++ code [.lw .t1 12 .a0,.beqz .t1 elseLabel] ++ block yes.lines ++
      code [.b endLabel] ++ [.label elseLabel] ++ block no.lines ++ [.label endLabel]
  | .loop test body loopLabel endLabel =>
    [.label loopLabel] ++ block test.lines ++ code [.lw .t1 12 .a0,.beqz .t1 endLabel] ++
      block body.lines ++ code [.b loopLabel] ++ [.label endLabel] ++ code [.move .a0 .zero]
  | .sequence steps => linesOf steps
  | .letIn stores body => block (linesOf stores) ++ block body.lines
  | .newObject className =>
    code [.la .a0 (className ++ "_protObj"),.jal "Object.copy",.jal (className ++ "_init")]
  | .newSelf =>
    code ([.la .t1 "class_objTab",.lw .t2 0 .s0,.sll .t2 .t2 3,.compute "addu" .t1 .t1 .t2,
      .sw .t1 0 .sp,.addiu .sp .sp (-4),.lw .a0 0 .t1,.jal "Object.copy"] ++ pop ++
      [.lw .t1 4 .t1,.jalr .t1 0])
  | .dispatch args receiver staticClass offset site =>
    pushLines args ++ block receiver.lines ++ checkVoid site "_dispatch_abort" ++
      code (callThrough staticClass offset args.length)
  | .caseOf scrutinee site tests branches endLabel =>
    block scrutinee.lines ++ checkVoid site "_case_abort2" ++ code [.lw .t2 0 .a0] ++
      (if branches.isEmpty then [] else block (testLines tests)) ++ code [.jal "_case_abort"] ++
      branchLines endLabel branches ++ [.label endLabel]

def linesOf : List Code → List Line
  | [] => []
  | c :: rest => c.lines ++ linesOf rest

def pushLines : List Code → List Line
  | [] => []
  | c :: rest => block c.lines ++ code push ++ pushLines rest

def branchLines (endLabel : String) : List (BranchHead × Code) → List Line
  | [] => []
  | (head,body) :: rest =>
    [.label head.label] ++ code [.sw .a0 head.slot.offset .fp] ++ block body.lines ++
      code [.b endLabel] ++ branchLines endLabel rest

end

end Code

def prologueCode (frameWords : Nat) : List Instruction :=
  [.addiu .sp .sp (-12),.sw .fp 12 .sp,.sw .s0 8 .sp,.sw .ra 4 .sp,.addiu .fp .sp 4,
    .move .s0 .a0] ++
  if frameWords = 0 then [] else [.addiu .sp .sp (-(frameWords * wordSize : Nat))]

def epilogueCode (frameWords formals : Nat) : List Instruction :=
  (if frameWords = 0 then [] else [.addiu .sp .sp (frameWords * wordSize : Nat)]) ++
  [.lw .fp 12 .sp,.lw .s0 8 .sp,.lw .ra 4 .sp,
    .addiu .sp .sp (formalBase + wordSize * formals : Nat),.jr .ra]

def AttributeStore.lines (s : AttributeStore) : List Line :=
  block s.value.lines ++ code (Code.storeTo .s0 s.offset s.barrier)

def InitRoutine.lines (r : InitRoutine) : List Line :=
  [.label (r.className ++ "_init")] ++ code (prologueCode r.frameWords) ++
    code ((r.parent.map fun parent => .jal (parent ++ "_init")).toList) ++
    r.stores.flatMap AttributeStore.lines ++ code [.move .a0 .s0] ++
    code (epilogueCode r.frameWords 0)

def MethodRoutine.lines (r : MethodRoutine) : List Line :=
  [.label (r.className ++ "." ++ r.method)] ++ code (prologueCode r.frameWords) ++
    block r.body.lines ++ code (epilogueCode r.frameWords r.formals)

def textLines (length text : String) : List Line :=
  [.word length,.directive ".asciiz" ["\"" ++ text ++ "\""],.directive ".align" ["2"]]

/-- An object in the data section, behind the word that marks it for the collector. -/
def objectLines (label : String) (tag : Nat) (size : Int) (table : String) (slots : List Line) :
    List Line :=
  [.word "-1",.label label,.word (toString (tag : Int)),.word (toString size),.word table] ++ slots

def Literal.lines : Literal → List Line
  | int label value =>
    objectLines label Builtin.intTag 4 "Int_dispTab" [.word (toString value.toInt)]
  | l@(string label value length) =>
    objectLines label Builtin.stringTag l.size "String_dispTab" (textLines length (escape value))
  | bool label value =>
    objectLines label Builtin.boolTag 4 "Bool_dispTab"
      [.word (toString (if value then 1 else 0 : Int))]

def PrototypeSlot.lines : PrototypeSlot → List Line
  | word value => [.word value]
  | emptyString length => textLines length ""

def Prototype.lines (p : Prototype) : List Line :=
  objectLines (p.className ++ "_protObj") p.tag p.words (p.className ++ "_dispTab")
    (p.slots.flatMap PrototypeSlot.lines)

def DispatchTable.lines (t : DispatchTable) : List Line :=
  [.label (t.className ++ "_dispTab")] ++ block (t.labels.map .word)

namespace Image

def globals (names : List String) : List Line := names.map fun name => .directive ".globl" [name]

def variableLines (name value : String) : List Line := [.label name,.word value]

def header (options : Options) : List Line :=
  [.directive ".data" [],.directive ".align" ["2"]] ++
    globals ["class_nameTab","Main_protObj","Int_protObj","String_protObj","bool_const0",
      "bool_const1","_int_tag","_bool_tag","_string_tag"] ++
    variableLines "_int_tag" (toString (Builtin.intTag : Int)) ++
    variableLines "_bool_tag" (toString (Builtin.boolTag : Int)) ++
    variableLines "_string_tag" (toString (Builtin.stringTag : Int)) ++
    globals ["_MemMgr_INITIALIZER"] ++ variableLines "_MemMgr_INITIALIZER" options.gc.initializer ++
    globals ["_MemMgr_COLLECTOR"] ++ variableLines "_MemMgr_COLLECTOR" options.gc.collector ++
    globals ["_MemMgr_TEST"] ++
    variableLines "_MemMgr_TEST" (toString (if options.gcTest then 1 else 0 : Int))

def classObjects (p : Prototype) : List Line :=
  [.word (p.className ++ "_protObj"),.word (p.className ++ "_init")]

def dataLines (image : Image) : List Line :=
  block (image.literals.flatMap Literal.lines) ++ block (Literal.bools.flatMap Literal.lines) ++
    [.label "class_nameTab"] ++ block (image.classNames.map .word) ++
    [.label "class_objTab"] ++ block (image.prototypes.flatMap classObjects) ++
    block (image.prototypes.flatMap Prototype.lines) ++
    block (image.dispatchTables.flatMap DispatchTable.lines) ++
    globals ["heap_start"] ++ variableLines "heap_start" "0"

def textSection (image : Image) : List Line :=
  [.directive ".text" []] ++
    globals ["Main_init","Int_init","String_init","Bool_init","Main.main"] ++
    block (spaced (image.inits.map InitRoutine.lines)) ++
    block (spaced (image.methods.map MethodRoutine.lines)) ++ [.blank]

/-- The lines of a whole program. The last one is empty: every other line is ended. -/
def lines (image : Image) : List Line :=
  header image.options ++ image.dataLines ++ image.textSection

end Image

end CoolBackend
