import CoolBackend.Proofs.ListingText
import CoolBackend.Text.Split
import Mathlib.Data.List.Basic

/-!
Which symbols a text defines and uses, read off the text line by line. The text of a listing whose
words hold no white space reads back as the listing: it defines its labels, and uses the operands of
its instructions and data words that look like symbols.
-/
namespace CoolBackend.Assembly

def labelOf? (line : List Char) : Option String :=
  if line.head? = some '\t' then none
  else if line.getLast? = some ':' then some (String.ofList line.dropLast)
  else none

def addressing : List String := ["la","jal","b","beq","beqz","bnez","blt","ble",".word"]

/-- Registers and numbers start with other characters than symbols. -/
def isSymbol (operand : String) : Bool :=
  operand.toList.head?.any fun c => c.isAlpha || c = '_'

/-- The symbols that a line uses: its operands stand behind the second tab, with blanks between
them. -/
def symbolsOf (line : List Char) : List String :=
  match Text.splitAt '\t' line with
  | [[],mnemonic,operands] =>
    if String.ofList mnemonic ∈ addressing then
      ((Text.splitAt ' ' operands).map String.ofList).filter isSymbol
    else []
  | _ => []

def linesIn (text : String) : List String := (Text.splitAt '\n' text.toList).map String.ofList

def definedIn (text : String) : List String :=
  (Text.splitAt '\n' text.toList).filterMap labelOf?

def usedIn (text : String) : List String := (Text.splitAt '\n' text.toList).flatMap symbolsOf

theorem splitAt_free {α : Type} [DecidableEq α] {separator : α} {part : List α}
    (free : separator ∉ part) : Text.splitAt separator part = [part] := by
  induction part with
  | nil => rfl
  | cons a rest ih =>
    obtain ⟨here,later⟩ := not_or.mp (mt List.mem_cons.mpr free)
    rw [Text.splitAt,if_neg (Ne.symm here),ih later]

theorem splitAt_ne_nil {α : Type} [DecidableEq α] (separator : α) (part : List α) :
    Text.splitAt separator part ≠ [] := by
  cases part with
  | nil => simp [Text.splitAt]
  | cons a rest =>
    rw [Text.splitAt]
    split
    next => simp
    next => split <;> simp

/-- A list is split wherever a separator stands. -/
theorem splitAt_separated {α : Type} [DecidableEq α] (separator : α) (part rest : List α) :
    Text.splitAt separator (part ++ separator :: rest) =
      Text.splitAt separator part ++ Text.splitAt separator rest := by
  induction part with
  | nil => simp [Text.splitAt]
  | cons a part ih =>
    rw [List.cons_append,Text.splitAt,Text.splitAt,ih]
    split
    next => rfl
    next =>
      obtain ⟨first,others,parts⟩ := List.exists_cons_of_ne_nil (splitAt_ne_nil separator part)
      rw [parts]
      rfl

theorem splitAt_append {α : Type} [DecidableEq α] {separator : α} {part : List α}
    (free : separator ∉ part) (rest : List α) :
    Text.splitAt separator (part ++ separator :: rest) = part :: Text.splitAt separator rest := by
  rw [splitAt_separated,splitAt_free free]
  rfl

theorem intercalate_cons {α : Type} (separator : α) (part next : List α) (rest : List (List α)) :
    [separator].intercalate (part :: next :: rest) =
      part ++ separator :: [separator].intercalate (next :: rest) := by
  simp [List.intercalate]

/-- What was joined with separators is split where its parts end, and where they are split
themselves. -/
theorem splitAt_joined {α : Type} [DecidableEq α] {separator : α} {parts : List (List α)}
    (some : parts ≠ []) : Text.splitAt separator ([separator].intercalate parts) =
      parts.flatMap (Text.splitAt separator) := by
  induction parts with
  | nil => exact absurd rfl some
  | cons part rest ih =>
    cases rest with
    | nil => simp [List.intercalate]
    | cons next rest =>
      rw [intercalate_cons,splitAt_separated,ih (List.cons_ne_nil _ _)]
      rfl

/-- What was joined with separators is split into its parts again. -/
theorem splitAt_intercalate {α : Type} [DecidableEq α] {separator : α} {parts : List (List α)}
    (some : parts ≠ []) (free : ∀ part ∈ parts, separator ∉ part) :
    Text.splitAt separator ([separator].intercalate parts) = parts := by
  rw [splitAt_joined some,List.flatMap_congr fun part member => splitAt_free (free part member)]
  exact List.flatMap_singleton' parts

/-- No part holds a separator. -/
theorem free_of_mem_splitAt {α : Type} [DecidableEq α] {separator : α} {list part : List α}
    (member : part ∈ Text.splitAt separator list) : separator ∉ part := by
  induction list generalizing part with
  | nil =>
    rw [Text.splitAt,List.mem_singleton] at member
    simp [member]
  | cons a rest ih =>
    obtain ⟨first,others,parts⟩ := List.exists_cons_of_ne_nil (splitAt_ne_nil separator rest)
    rw [Text.splitAt,parts] at member
    rw [parts] at ih
    split at member
    next =>
      rcases List.mem_cons.mp member with rfl | later
      · exact List.not_mem_nil
      · exact ih later
    next other =>
      rcases List.mem_cons.mp member with rfl | later
      · simpa [Ne.symm other] using ih (.head _)
      · exact ih (.tail _ later)

/-- A text without white space. -/
def Plain (text : String) : Prop := ∀ c ∈ text.toList, c ≠ '\n' ∧ c ≠ '\t' ∧ c ≠ ' '

instance (text : String) : Decidable (Plain text) :=
  List.decidableBAll (fun c => c ≠ '\n' ∧ c ≠ '\t' ∧ c ≠ ' ') text.toList

theorem Plain.append {first second : String} (plain : Plain first) (plain' : Plain second) :
    Plain (first ++ second) := by
  rw [Plain,String.toList_append]
  exact List.forall_mem_append.mpr ⟨plain,plain'⟩

theorem Plain.newline {text : String} (plain : Plain text) : '\n' ∉ text.toList :=
  fun member => (plain _ member).1 rfl

theorem Plain.tab {text : String} (plain : Plain text) : '\t' ∉ text.toList :=
  fun member => (plain _ member).2.1 rfl

theorem Plain.blank {text : String} (plain : Plain text) : ' ' ∉ text.toList :=
  fun member => (plain _ member).2.2 rfl

/-- A word of letters, as those of instructions are. The word of a directive starts with a dot. -/
def isMnemonic (word : String) : Bool := word.toList.all (·.isAlpha)

theorem plain_mnemonic {word : String} (mnemonic : isMnemonic word) : Plain word := by
  intro c member
  have letter := List.all_eq_true.mp mnemonic c member
  refine ⟨?_,?_,?_⟩
  all_goals
    rintro rfl
    revert letter
    decide

/-- A line that reads back as itself: the words of labels and instructions are plain, and nothing
breaks a line. -/
def Line.Legible : Line → Prop
  | blank => True
  | label name => Plain name
  | instruction i => isMnemonic i.mnemonic ∧ ∀ o ∈ i.operands, Plain o
  | directive name operands => Plain name ∧ (∀ o ∈ operands, '\n' ∉ o.toList ∧ '\t' ∉ o.toList) ∧
      (name ∈ addressing → ∀ o ∈ operands, Plain o)

def symbolsIn (mnemonic : String) (operands : List String) : List String :=
  if mnemonic ∈ addressing then operands.filter isSymbol else []

def Line.uses : Line → List String
  | instruction i => symbolsIn i.mnemonic i.operands
  | directive name operands => symbolsIn name operands
  | blank | label _ => []

theorem not_mem_intercalate {α : Type} {a separator : α} {parts : List (List α)}
    (other : a ≠ separator) (free : ∀ part ∈ parts, a ∉ part) :
    a ∉ [separator].intercalate parts := by
  induction parts with
  | nil => simp [List.intercalate]
  | cons part rest ih =>
    obtain ⟨here,free⟩ := List.forall_mem_cons.mp free
    cases rest with
    | nil => simpa [List.intercalate] using here
    | cons next rest =>
      have later := ih free
      rw [intercalate_cons]
      simp only [List.mem_append,List.mem_cons,not_or]
      exact ⟨here,other,later⟩

theorem toList_statement (mnemonic o : String) (rest : List String) :
    (statement mnemonic (o :: rest)).toList =
      '\t' :: (mnemonic.toList ++ '\t' :: [' '].intercalate ((o :: rest).map String.toList)) := by
  simp [statement]

/-- A statement without operands has a tab before its word, one with operands another behind it. -/
theorem splitAt_statement {mnemonic : String} {operands : List String}
    (word : '\t' ∉ mnemonic.toList) (tabs : ∀ o ∈ operands, '\t' ∉ o.toList) :
    Text.splitAt '\t' (statement mnemonic operands).toList = [] :: mnemonic.toList ::
      if operands = [] then [] else [[' '].intercalate (operands.map String.toList)] := by
  have first (rest : List Char) :
      Text.splitAt '\t' ('\t' :: rest) = [] :: Text.splitAt '\t' rest := rfl
  cases operands with
  | nil =>
    have text : (statement mnemonic []).toList = '\t' :: mnemonic.toList := by simp [statement]
    rw [text,first,splitAt_free word,if_pos rfl]
  | cons o rest =>
    have operandsFree : '\t' ∉ [' '].intercalate ((o :: rest).map String.toList) :=
      not_mem_intercalate (by decide) (List.forall_mem_map.mpr tabs)
    rw [toList_statement,first,splitAt_append word,splitAt_free operandsFree,
      if_neg (List.cons_ne_nil _ _)]

theorem symbolsOf_statement {mnemonic : String} {operands : List String}
    (word : '\t' ∉ mnemonic.toList) (tabs : ∀ o ∈ operands, '\t' ∉ o.toList)
    (blanks : mnemonic ∈ addressing → ∀ o ∈ operands, ' ' ∉ o.toList) :
    symbolsOf (statement mnemonic operands).toList = symbolsIn mnemonic operands := by
  have split := splitAt_statement word tabs
  cases operands with
  | nil => simp [symbolsOf,split,symbolsIn]
  | cons o rest =>
    rw [if_neg (List.cons_ne_nil _ _)] at split
    simp only [symbolsOf,split,String.ofList_toList,symbolsIn]
    by_cases known : mnemonic ∈ addressing
    · have parts := splitAt_intercalate (by simp) (List.forall_mem_map.mpr (blanks known))
      rw [if_pos known,if_pos known,parts,List.map_map]
      simp [Function.comp_def]
    · rw [if_neg known,if_neg known]

theorem labelOf?_statement (mnemonic : String) (operands : List String) :
    labelOf? (statement mnemonic operands).toList = none := by
  have tab : (statement mnemonic operands).toList.head? = some '\t' := by
    cases operands <;> simp [statement]
  rw [labelOf?,if_pos tab]

theorem labelOf?_label {name : String} (plain : Plain name) :
    labelOf? (name ++ ":").toList = some name := by
  have head : (name ++ ":").toList.head? ≠ some '\t' := by
    intro tab
    have member : '\t' ∈ (name ++ ":").toList := List.mem_of_head? tab
    simp [plain.tab] at member
  rw [labelOf?,if_neg head]
  simp

theorem symbolsOf_label {name : String} (plain : Plain name) :
    symbolsOf (name ++ ":").toList = [] := by
  have free : '\t' ∉ (name ++ ":").toList := by simp [plain.tab]
  rw [symbolsOf,splitAt_free free]
  cases (name ++ ":").toList <;> rfl

/-- A legible line reads back as itself. -/
theorem Line.Legible.read {l : Line} (legible : l.Legible) :
    '\n' ∉ l.text.toList ∧ labelOf? l.text.toList = l.label? ∧
      symbolsOf l.text.toList = l.uses := by
  have broken (mnemonic : String) (operands : List String) (word : '\n' ∉ mnemonic.toList)
      (free : ∀ o ∈ operands, '\n' ∉ o.toList) : '\n' ∉ (statement mnemonic operands).toList := by
    cases operands with
    | nil => simpa [statement] using word
    | cons o rest =>
      have inner : '\n' ∉ [' '].intercalate ((o :: rest).map String.toList) :=
        not_mem_intercalate (by decide) (List.forall_mem_map.mpr free)
      rw [toList_statement]
      simp only [List.mem_cons,List.mem_append,not_or]
      exact ⟨by decide,word,by decide,inner⟩
  cases l with
  | blank => simp [text,label?,uses,labelOf?,symbolsOf,Text.splitAt]
  | label name =>
    have plain : Plain name := legible
    exact ⟨by simp [text,plain.newline],labelOf?_label plain,symbolsOf_label plain⟩
  | instruction i =>
    obtain ⟨mnemonic,plain⟩ := legible
    have word := plain_mnemonic mnemonic
    exact ⟨broken _ _ word.newline fun o member => (plain o member).newline,labelOf?_statement _ _,
      symbolsOf_statement word.tab (fun o member => (plain o member).tab)
        fun _ o member => (plain o member).blank⟩
  | directive name operands =>
    obtain ⟨word,free,plain⟩ := legible
    exact ⟨broken _ _ word.newline fun o member => (free o member).1,labelOf?_statement _ _,
      symbolsOf_statement word.tab (fun o member => (free o member).2)
        fun known o member => (plain known o member).blank⟩

/-- The word of a line, and its operands. -/
def Line.statement? : Line → Option (String × List String)
  | instruction i => some (i.mnemonic,i.operands)
  | directive name operands => some (name,operands)
  | blank | label _ => none

theorem statement_inj {word other o : String} {operands rest : List String}
    (tabless : '\t' ∉ word.toList) (free : '\t' ∉ other.toList)
    (same : statement word operands = statement other (o :: rest)) :
    word = other ∧ " ".intercalate operands = " ".intercalate (o :: rest) := by
  have chars := congrArg String.toList same
  cases operands with
  | nil =>
    have text : (statement word []).toList = '\t' :: word.toList := by simp [statement]
    rw [text,toList_statement] at chars
    have second : '\t' ∈ word.toList := by simp [List.tail_eq_of_cons_eq chars]
    exact absurd second tabless
  | cons first operands =>
    rw [toList_statement,toList_statement] at chars
    have tails := List.tail_eq_of_cons_eq chars
    have parts := congrArg (Text.splitAt '\t') tails
    rw [splitAt_append tabless,splitAt_append free] at parts
    have words := List.head_eq_of_cons_eq parts
    rw [words,List.append_cancel_left_eq] at tails
    have inner := List.tail_eq_of_cons_eq tails
    exact ⟨String.toList_inj.mp words,String.toList_inj.mp (by simpa using inner)⟩

/-- What a legible line says can be read off its text. -/
theorem Line.Legible.statement_eq {l : Line} (legible : l.Legible) {word o : String}
    {rest : List String} (free : '\t' ∉ word.toList) (same : l.text = statement word (o :: rest)) :
    ∃ operands, l.statement? = some (word,operands) ∧
      " ".intercalate operands = " ".intercalate (o :: rest) := by
  have tab : '\t' ∈ l.text.toList := by simp [same,toList_statement]
  cases l with
  | blank => simp [Line.text] at tab
  | label name =>
    have plain : Plain name := legible
    simp [Line.text,plain.tab] at tab
  | instruction i =>
    obtain ⟨rfl,inner⟩ := statement_inj (plain_mnemonic legible.1).tab free same
    exact ⟨_,rfl,inner⟩
  | directive name operands =>
    obtain ⟨rfl,inner⟩ := statement_inj legible.1.tab free same
    exact ⟨_,rfl,inner⟩

/-- The text of a listing is split where its lines end. -/
theorem splitAt_lines {lines : List Line} (some : lines ≠ []) :
    Text.splitAt '\n' (joined lines).toList =
      lines.flatMap fun l => Text.splitAt '\n' l.text.toList := by
  have text : (joined lines).toList = ['\n'].intercalate (lines.map fun l => l.text.toList) := by
    simp [joined,Function.comp_def]
  rw [text,splitAt_joined (by simpa using some),List.flatMap_map]

/-- The text of a legible listing is split into its lines. -/
theorem splitAt_legible {lines : List Line} (some : lines ≠ [])
    (legible : ∀ l ∈ lines, l.Legible) :
    Text.splitAt '\n' (joined lines).toList = lines.map fun l => l.text.toList := by
  rw [splitAt_lines some,
    List.flatMap_congr fun l member => splitAt_free (legible l member).read.1]
  exact List.map_eq_flatMap.symm

theorem linesIn_joined {lines : List Line} (some : lines ≠ [])
    (legible : ∀ l ∈ lines, l.Legible) : linesIn (joined lines) = lines.map Line.text := by
  rw [linesIn,splitAt_legible some legible,List.map_map]
  exact List.map_congr_left fun l _ => String.ofList_toList

/-- What the text of a legible listing defines and uses. -/
theorem read_joined {lines : List Line} (some : lines ≠ []) (legible : ∀ l ∈ lines, l.Legible) :
    definedIn (joined lines) = labelsIn lines ∧
      usedIn (joined lines) = lines.flatMap Line.uses := by
  have split := splitAt_legible some legible
  constructor
  · rw [definedIn,split,List.filterMap_map,labelsIn]
    exact List.filterMap_congr fun l member => (legible l member).read.2.1
  · rw [usedIn,split,List.flatMap_map]
    exact List.flatMap_congr fun l member => (legible l member).read.2.2

example : definedIn "x:\n\tla\t$a0 y\n\t.word\t-1" = ["x"] ∧
    usedIn "x:\n\tla\t$a0 y\n\t.word\t-1" = ["y"] := by decide

end CoolBackend.Assembly
