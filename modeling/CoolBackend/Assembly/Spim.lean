import CoolBackend.Assembly.Template

/-!
A value is left in `$a0`; `$s0` is the receiver, `$fp` the frame, `$t1` and `$t2` are scratch. No
template but `program` ends its last line, so that lists of fragments join with line breaks.
-/
namespace CoolBackend.Assembly.Spim

def program : Template :=
  [ .text "\t.data",
    .text "\n\t.align\t2",
    .text "\n\t.globl\tclass_nameTab",
    .text "\n\t.globl\tMain_protObj",
    .text "\n\t.globl\tInt_protObj",
    .text "\n\t.globl\tString_protObj",
    .text "\n\t.globl\tbool_const0",
    .text "\n\t.globl\tbool_const1",
    .text "\n\t.globl\t_int_tag",
    .text "\n\t.globl\t_bool_tag",
    .text "\n\t.globl\t_string_tag",
    .text "\n_int_tag:",
    .text "\n\t.word\t", .hole "intTag",
    .text "\n_bool_tag:",
    .text "\n\t.word\t", .hole "boolTag",
    .text "\n_string_tag:",
    .text "\n\t.word\t", .hole "stringTag",
    .text "\n\t.globl\t_MemMgr_INITIALIZER",
    .text "\n_MemMgr_INITIALIZER:",
    .text "\n\t.word\t", .hole "gcInit",
    .text "\n\t.globl\t_MemMgr_COLLECTOR",
    .text "\n_MemMgr_COLLECTOR:",
    .text "\n\t.word\t", .hole "gcCollect",
    .text "\n\t.globl\t_MemMgr_TEST",
    .text "\n_MemMgr_TEST:",
    .text "\n\t.word\t", .hole "gcTest",
    .text "\n", .hole "literalConsts",
    .text "\n", .hole "boolConsts",
    .text "\nclass_nameTab:",
    .text "\n", .hole "classNames",
    .text "\nclass_objTab:",
    .text "\n", .hole "classObjects",
    .text "\n", .hole "protObjs",
    .text "\n", .hole "dispTabs",
    .text "\n\t.globl\theap_start",
    .text "\nheap_start:",
    .text "\n\t.word\t0",
    .text "\n\t.text",
    .text "\n\t.globl\tMain_init",
    .text "\n\t.globl\tInt_init",
    .text "\n\t.globl\tString_init",
    .text "\n\t.globl\tBool_init",
    .text "\n\t.globl\tMain.main",
    .text "\n", .spaced "inits",
    .text "\n", .spaced "methods",
    .text "\n" ]

def sequence : Template :=
  [ .hole "e" ]

def sequenceSpaced : Template :=
  [ .spaced "e" ]

def attrib : Template :=
  [ .text "\t.word\t", .hole "initVal" ]

def attribString : Template :=
  [ .text "\t.word\t", .hole "length",
    .text "\n\t.asciiz\t\"", .hole "value", .text "\"",
    .text "\n\t.align\t2" ]

def intLiteral : Template :=
  [ .text "\t.word\t-1",
    .text "\n", .hole "name", .text ":",
    .text "\n\t.word\t", .hole "tag",
    .text "\n\t.word\t4",
    .text "\n\t.word\tInt_dispTab",
    .text "\n\t.word\t", .hole "value" ]

def stringLiteral : Template :=
  [ .text "\t.word\t-1",
    .text "\n", .hole "name", .text ":",
    .text "\n\t.word\t", .hole "tag",
    .text "\n\t.word\t", .hole "size",
    .text "\n\t.word\tString_dispTab",
    .text "\n\t.word\t", .hole "length",
    .text "\n\t.asciiz\t\"", .hole "value", .text "\"",
    .text "\n\t.align\t2" ]

def boolLiteral : Template :=
  [ .text "\t.word\t-1",
    .text "\n", .hole "name", .text ":",
    .text "\n\t.word\t", .hole "tag",
    .text "\n\t.word\t4",
    .text "\n\t.word\tBool_dispTab",
    .text "\n\t.word\t", .hole "value" ]

def protObj : Template :=
  [ .text "\t.word\t-1",
    .text "\n", .hole "className", .text "_protObj:",
    .text "\n\t.word\t", .hole "classId",
    .text "\n\t.word\t", .hole "classDim",
    .text "\n\t.word\t", .hole "className", .text "_dispTab",
    .ifBound "attribs" [.text "\n", .hole "attribs"] [] ]

def dispatchTable : Template :=
  [ .hole "className", .text "_dispTab:",
    .text "\n", .hole "methods" ]

def prologue : Template :=
  [ .text "\taddiu\t$sp $sp -12",
    .text "\n\tsw\t$fp 12($sp)",
    .text "\n\tsw\t$s0 8($sp)",
    .text "\n\tsw\t$ra 4($sp)",
    .text "\n\taddiu\t$fp $sp 4",
    .text "\n\tmove\t$s0 $a0",
    .ifBound "frame" [.text "\n\taddiu\t$sp $sp -", .hole "frame"] [] ]

def epilogue : Template :=
  [ .ifBound "frame" [.text "\taddiu\t$sp $sp ", .hole "frame", .text "\n"] [],
    .text "\tlw\t$fp 12($sp)",
    .text "\n\tlw\t$s0 8($sp)",
    .text "\n\tlw\t$ra 4($sp)",
    .text "\n\taddiu\t$sp $sp ", .hole "pop",
    .text "\n\tjr\t$ra" ]

def init : Template :=
  [ .hole "className", .text "_init:",
    .text "\n", .hole "prologue",
    .ifBound "parent" [.text "\n\tjal\t", .hole "parent", .text "_init"] [],
    .ifBound "attrInit" [.text "\n", .hole "attrInit"] [],
    .text "\n\tmove\t$a0 $s0",
    .text "\n", .hole "epilogue" ]

def attrInit : Template :=
  [ .hole "initExpr",
    .text "\n\tsw\t$a0 ", .hole "offset", .text "($s0)",
    .ifBound "gcAssign"
      [ .text "\n\taddiu\t$a1 $s0 ", .hole "offset",
        .text "\n\tjal\t_GenGC_Assign" ] [] ]

def methodDeclare : Template :=
  [ .hole "className", .text ".", .hole "methodName", .text ":",
    .text "\n", .hole "prologue",
    .text "\n", .hole "body",
    .text "\n", .hole "epilogue" ]

def loadLiteral : Template :=
  [ .text "\tla\t$a0 ", .hole "value" ]

def loadVoid : Template :=
  [ .text "\tmove\t$a0 $zero" ]

def loadSelf : Template :=
  [ .text "\tmove\t$a0 $s0" ]

def loadVar : Template :=
  [ .text "\tlw\t$a0 ", .hole "offset", .text "(", .hole "base", .text ")" ]

def storeVar : Template :=
  [ .ifBound "expr" [.hole "expr", .text "\n"] [],
    .text "\tsw\t$a0 ", .hole "offset", .text "(", .hole "base", .text ")",
    .ifBound "gcAssign"
      [ .text "\n\taddiu\t$a1 ", .hole "base", .text " ", .hole "offset",
        .text "\n\tjal\t_GenGC_Assign" ] [] ]

def push : Template :=
  [ .hole "expr",
    .text "\n\tsw\t$a0 0($sp)",
    .text "\n\taddiu\t$sp $sp -4" ]

def arithmetic : Template :=
  [ .hole "leftExpr",
    .text "\n\tsw\t$a0 0($sp)",
    .text "\n\taddiu\t$sp $sp -4",
    .text "\n", .hole "rightExpr",
    .text "\n\tjal\tObject.copy",
    .text "\n\tlw\t$t1 4($sp)",
    .text "\n\taddiu\t$sp $sp 4",
    .text "\n\tlw\t$t1 12($t1)",
    .text "\n\tlw\t$t2 12($a0)",
    .text "\n\t", .hole "op", .text "\t$t1 $t1 $t2",
    .text "\n\tsw\t$t1 12($a0)" ]

def negate : Template :=
  [ .hole "expr",
    .text "\n\tjal\tObject.copy",
    .text "\n\tlw\t$t1 12($a0)",
    .text "\n\tneg\t$t1 $t1",
    .text "\n\tsw\t$t1 12($a0)" ]

def compare : Template :=
  [ .hole "leftExpr",
    .text "\n\tsw\t$a0 0($sp)",
    .text "\n\taddiu\t$sp $sp -4",
    .text "\n", .hole "rightExpr",
    .text "\n\tlw\t$t1 4($sp)",
    .text "\n\taddiu\t$sp $sp 4",
    .text "\n\tlw\t$t1 12($t1)",
    .text "\n\tlw\t$t2 12($a0)",
    .text "\n\tla\t$a0 ", .hole "trueConst",
    .text "\n\t", .hole "op", .text "\t$t1 $t2 ", .hole "label",
    .text "\n\tla\t$a0 ", .hole "falseConst",
    .text "\n", .hole "label", .text ":" ]

def equality : Template :=
  [ .hole "leftExpr",
    .text "\n\tsw\t$a0 0($sp)",
    .text "\n\taddiu\t$sp $sp -4",
    .text "\n", .hole "rightExpr",
    .text "\n\tlw\t$t1 4($sp)",
    .text "\n\taddiu\t$sp $sp 4",
    .text "\n\tmove\t$t2 $a0",
    .text "\n\tla\t$a0 ", .hole "trueConst",
    .text "\n\tbeq\t$t1 $t2 ", .hole "label",
    .text "\n\tla\t$a1 ", .hole "falseConst",
    .text "\n\tjal\tequality_test",
    .text "\n", .hole "label", .text ":" ]

def notTest : Template :=
  [ .hole "expr",
    .text "\n\tlw\t$t1 12($a0)",
    .text "\n\tla\t$a0 ", .hole "trueConst",
    .text "\n\tbeqz\t$t1 ", .hole "label",
    .text "\n\tla\t$a0 ", .hole "falseConst",
    .text "\n", .hole "label", .text ":" ]

def isvoid : Template :=
  [ .hole "expr",
    .text "\n\tmove\t$t1 $a0",
    .text "\n\tla\t$a0 ", .hole "trueConst",
    .text "\n\tbeqz\t$t1 ", .hole "label",
    .text "\n\tla\t$a0 ", .hole "falseConst",
    .text "\n", .hole "label", .text ":" ]

def cond : Template :=
  [ .hole "condExpr",
    .text "\n\tlw\t$t1 12($a0)",
    .text "\n\tbeqz\t$t1 ", .hole "elseLabel",
    .text "\n", .hole "thenExpr",
    .text "\n\tb\t", .hole "endLabel",
    .text "\n", .hole "elseLabel", .text ":",
    .text "\n", .hole "elseExpr",
    .text "\n", .hole "endLabel", .text ":" ]

def loop : Template :=
  [ .hole "loopLabel", .text ":",
    .text "\n", .hole "condExpr",
    .text "\n\tlw\t$t1 12($a0)",
    .text "\n\tbeqz\t$t1 ", .hole "endLabel",
    .text "\n", .hole "body",
    .text "\n\tb\t", .hole "loopLabel",
    .text "\n", .hole "endLabel", .text ":",
    .text "\n\tmove\t$a0 $zero" ]

def letIn : Template :=
  [ .hole "inits",
    .text "\n", .hole "body" ]

def newObject : Template :=
  [ .text "\tla\t$a0 ", .hole "className", .text "_protObj",
    .text "\n\tjal\tObject.copy",
    .text "\n\tjal\t", .hole "className", .text "_init" ]

def newSelfType : Template :=
  [ .text "\tla\t$t1 class_objTab",
    .text "\n\tlw\t$t2 0($s0)",
    .text "\n\tsll\t$t2 $t2 3",
    .text "\n\taddu\t$t1 $t1 $t2",
    .text "\n\tsw\t$t1 0($sp)",
    .text "\n\taddiu\t$sp $sp -4",
    .text "\n\tlw\t$a0 0($t1)",
    .text "\n\tjal\tObject.copy",
    .text "\n\tlw\t$t1 4($sp)",
    .text "\n\taddiu\t$sp $sp 4",
    .text "\n\tlw\t$t1 4($t1)",
    .text "\n\tjalr\t$t1" ]

def dispatch : Template :=
  [ .ifBound "params" [.hole "params", .text "\n"] [],
    .hole "receiver",
    .text "\n\tbnez\t$a0 ", .hole "label",
    .text "\n\tla\t$a0 ", .hole "fileName",
    .text "\n\tli\t$t1 ", .hole "line",
    .text "\n\tjal\t_dispatch_abort",
    .text "\n", .hole "label", .text ":",
    .text "\n",
    .ifBound "staticClass"
      [ .text "\tla\t$t1 ", .hole "staticClass", .text "_dispTab" ]
      [ .text "\tlw\t$t1 8($a0)" ],
    .text "\n\tlw\t$t1 ", .hole "offset", .text "($t1)",
    .text "\n\tjalr\t$t1" ]

def caseOf : Template :=
  [ .hole "expr",
    .text "\n\tbnez\t$a0 ", .hole "label",
    .text "\n\tla\t$a0 ", .hole "fileName",
    .text "\n\tli\t$t1 ", .hole "line",
    .text "\n\tjal\t_case_abort2",
    .text "\n", .hole "label", .text ":",
    .text "\n\tlw\t$t2 0($a0)",
    .ifBound "tests" [.text "\n", .hole "tests"] [],
    .text "\n\tjal\t_case_abort",
    .ifBound "branches" [.text "\n", .hole "branches"] [],
    .text "\n", .hole "endLabel", .text ":" ]

def caseTest : Template :=
  [ .text "\tbeq\t$t2 ", .hole "tag", .text " ", .hole "target" ]

def caseBranch : Template :=
  [ .hole "label", .text ":",
    .text "\n\tsw\t$a0 ", .hole "offset", .text "($fp)",
    .text "\n", .hole "body",
    .text "\n\tb\t", .hole "endLabel" ]

def named : List (String × Template) :=
  [ ("program", program), ("sequence", sequence), ("sequenceSpaced", sequenceSpaced),
    ("attrib", attrib), ("attribString", attribString), ("intLiteral", intLiteral),
    ("stringLiteral", stringLiteral), ("boolLiteral", boolLiteral), ("protObj", protObj),
    ("dispatchTable", dispatchTable), ("prologue", prologue), ("epilogue", epilogue),
    ("init", init), ("attrInit", attrInit), ("methodDeclare", methodDeclare),
    ("loadLiteral", loadLiteral), ("loadVoid", loadVoid), ("loadSelf", loadSelf),
    ("loadVar", loadVar), ("storeVar", storeVar), ("push", push), ("arithmetic", arithmetic),
    ("negate", negate), ("compare", compare), ("equality", equality), ("not", notTest),
    ("isvoid", isvoid), ("if", cond), ("while", loop), ("let", letIn), ("new", newObject),
    ("newSelfType", newSelfType), ("dispatch", dispatch), ("case", caseOf),
    ("caseTest", caseTest), ("caseBranch", caseBranch) ]

/-- The templates above under their names. The group's own name stands for the line breaks between
its definitions. -/
def group : Group where
  name := "mips"
  templates := named ++ [("mips", [.text (String.ofList (List.replicate 73 '\n'))])]

end CoolBackend.Assembly.Spim
