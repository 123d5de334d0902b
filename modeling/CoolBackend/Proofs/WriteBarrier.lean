import CoolBackend.Proofs.Closedness
import CoolBackend.Proofs.Prototypes
import CoolBackend.Proofs.ReportedStores

/-!
In the text of a program for the generational collector, every store into the receiver's object is
followed by its report, and nothing else looks like a part of a report. The text without reports and
with the names of the collector's routines replaced is the text of the program for no collector.
-/
namespace CoolBackend

namespace Assembly

def storeText (offset : String) : String := "\tsw\t$a0 " ++ offset ++ "($s0)"

def addressText (offset : String) : String := "\taddiu\t$a1 $s0 " ++ offset

def assignText : String := "\tjal\t_GenGC_Assign"

/-- Stores come with their reports, and reports with their stores. -/
structure StoresReported (lines : List String) : Prop where
  followed : ∀ before offset after, lines = before ++ storeText offset :: after →
    ∃ rest, after = addressText offset :: assignText :: rest
  addressed : ∀ before offset after, lines = before ++ addressText offset :: after →
    ∃ front rest, before = front ++ [storeText offset] ∧ after = assignText :: rest
  called : ∀ before after, lines = before ++ assignText :: after →
    ∃ front offset, before = front ++ [storeText offset,addressText offset]

def isReport (line : String) : Bool :=
  line = assignText || (addressText "").toList.isPrefixOf line.toList

/-- Names the routines of no collector in place of those of the generational one. -/
def withoutCollector (line : String) : String :=
  if line = wordOf GcMode.generational.initializer then wordOf GcMode.off.initializer
  else if line = wordOf GcMode.generational.collector then wordOf GcMode.off.collector
  else line

def withoutReports (text : String) : String :=
  "\n".intercalate (((linesIn text).filter (!isReport ·)).map withoutCollector)

section Texts

variable {line offset other : String}

@[simp] theorem toList_storeText :
    (storeText offset).toList = "\tsw\t$a0 ".toList ++ offset.toList ++ "($s0)".toList :=
  String.toList_append.trans (congrArg (· ++ _) String.toList_append)

@[simp] theorem toList_addressText :
    (addressText offset).toList = "\taddiu\t$a1 $s0 ".toList ++ offset.toList :=
  String.toList_append

theorem isReport_iff : isReport line ↔ line = assignText ∨ ∃ offset, line = addressText offset := by
  have begins : (addressText "").toList <+: line.toList ↔ ∃ offset, line = addressText offset := by
    constructor
    · rintro ⟨rest,same⟩
      exact ⟨String.ofList rest,String.toList_inj.mp (by simpa using same.symm)⟩
    · rintro ⟨offset,rfl⟩
      exact ⟨offset.toList,by simp⟩
  rw [isReport,Bool.or_eq_true,decide_eq_true_eq,List.isPrefixOf_iff_prefix,begins]

theorem storeText_eq : storeText offset = statement "sw" ["$a0",offset ++ "($s0)"] :=
  String.toList_inj.mp (by simp [statement])

theorem addressText_eq : addressText offset = statement "addiu" ["$a1","$s0",offset] :=
  String.toList_inj.mp (by simp [statement])

theorem text_store (offset : Int) :
    (Line.instruction (.sw .a0 offset .s0)).text = storeText (toString offset) :=
  String.toList_inj.mp (by
    simp [Line.text,statement,Instruction.operands,Instruction.mnemonic,
      Instruction.address,Register.name])

theorem text_address (offset : Int) :
    (Line.instruction (.addiu .a1 .s0 offset)).text = addressText (toString offset) :=
  addressText_eq.symm

theorem text_assign : (Line.instruction (.jal "_GenGC_Assign")).text = assignText := rfl

theorem storeText_inj (same : storeText offset = storeText other) : offset = other := by
  have chars := congrArg String.toList same
  simpa [← String.toList_inj] using chars

theorem addressText_inj (same : addressText offset = addressText other) : offset = other := by
  have chars := congrArg String.toList same
  simpa [← String.toList_inj] using chars

theorem storeText_ne_assignText : storeText offset ≠ assignText := by
  intro same
  have chars := congrArg String.toList same
  simp [assignText] at chars

theorem storeText_ne_addressText : storeText offset ≠ addressText other := by
  intro same
  have chars := congrArg String.toList same
  simp at chars

theorem addressText_ne_assignText : addressText offset ≠ assignText := by
  intro same
  have chars := congrArg String.toList same
  simp [assignText] at chars

end Texts

/-- A line that is no part of a report, and whose text stores only if the line does. -/
structure Line.Silent (l : Line) : Prop where
  report : isReport l.text = false
  store : ∀ offset, l.text = storeText offset → l.storeOffset? ≠ none

/-- The words that a line would have to start with to store or to report. -/
theorem Line.Legible.silent {l : Line} (legible : l.Legible)
    (store : ∀ operands offset, l.statement? = some ("sw",operands) →
      " ".intercalate operands = " ".intercalate ["$a0",offset ++ "($s0)"] → l.storeOffset? ≠ none)
    (address : ∀ operands offset, l.statement? = some ("addiu",operands) →
      " ".intercalate operands ≠ " ".intercalate ["$a1","$s0",offset])
    (call : ∀ operands, l.statement? = some ("jal",operands) →
      " ".intercalate operands ≠ " ".intercalate ["_GenGC_Assign"]) : l.Silent := by
  refine ⟨?_,fun offset same => ?_⟩
  · rw [Bool.eq_false_iff,Ne,isReport_iff]
    rintro (same | ⟨offset,same⟩)
    · have text : assignText = statement "jal" ["_GenGC_Assign"] := rfl
      obtain ⟨operands,read,inner⟩ := legible.statement_eq (by decide) (same.trans text)
      exact call operands read inner
    · obtain ⟨operands,read,inner⟩ := legible.statement_eq (by decide) (same.trans addressText_eq)
      exact address operands offset read inner
  · obtain ⟨operands,read,inner⟩ := legible.statement_eq (by decide) (same.trans storeText_eq)
    exact store operands offset read inner

theorem Line.Ordinary.silent {l : Line} (ordinary : l.Ordinary) (legible : l.Legible) :
    l.Silent := by
  -- Only stores, additions and calls have the words of stores and reports.
  have kinds {word : String} {operands : List String} (read : l.statement? = some (word,operands)) :
      (word = "sw" → ∃ source offset base, l = .instruction (.sw source offset base)) ∧
      (word = "addiu" → ∃ target source amount, l = .instruction (.addiu target source amount)) ∧
      (word = "jal" → ∃ routine, l = .instruction (.jal routine)) := by
    cases l with
    | instruction i =>
      obtain ⟨rfl,-⟩ := Prod.mk.inj (Option.some.inj read)
      cases i <;> simp_all [Instruction.mnemonic]
    | directive name operands =>
      obtain ⟨rfl,-⟩ := Prod.mk.inj (Option.some.inj read)
      rcases ordinary with rfl | rfl
      · simp
      · simp
    | _ => cases read
  refine legible.silent ?_ ?_ ?_
  · intro operands offset read inner
    obtain ⟨source,n,base,rfl⟩ := (kinds read).1 rfl
    cases read
    have chars := congrArg String.toList inner
    have ends := congrArg List.reverse chars
    cases source <;> simp [Instruction.operands,Register.name,Instruction.address] at chars
    cases base <;> simp [Instruction.operands,Register.name,Instruction.address] at ends
    simp [Line.storeOffset?]
  · intro operands offset read inner
    obtain ⟨target,source,amount,rfl⟩ := (kinds read).2.1 rfl
    cases read
    have chars := congrArg String.toList inner
    cases target <;> simp [Instruction.operands,Register.name] at chars
    cases source <;> simp at chars
    exact ordinary ⟨rfl,rfl⟩
  · intro operands read inner
    obtain ⟨routine,rfl⟩ := (kinds read).2.2 rfl
    cases read
    exact ordinary (by simpa [Instruction.operands] using inner)

/-- A line of the data section. -/
@[simp] def Line.Datum : Line → Prop
  | blank | label _ => True
  | instruction _ => False
  | directive name _ => name.toList.head? = some '.'

theorem Line.Datum.silent {l : Line} (datum : l.Datum) (legible : l.Legible) : l.Silent := by
  have dot {word : String} {operands : List String} (read : l.statement? = some (word,operands)) :
      word.toList.head? = some '.' := by
    cases l with
    | instruction => exact datum.elim
    | directive =>
      cases read
      exact datum
    | _ => cases read
  refine legible.silent ?_ ?_ ?_
  · exact fun _ _ read => absurd (dot read) (by decide)
  · exact fun _ _ read => absurd (dot read) (by decide)
  · exact fun _ read => absurd (dot read) (by decide)

inductive Placed (plain : List Line) : List Line → Line → List Line → Prop where
  | other {before after : List Line} {l : Line} (member : l ∈ plain)
      (none : l.storeOffset? = none) : Placed plain before l after
  | store (front : List Line) (offset : Int) (rest : List Line) :
      Placed plain front (.instruction (.sw .a0 offset .s0))
        (.instruction (.addiu .a1 .s0 offset) :: .instruction (.jal "_GenGC_Assign") :: rest)
  | address (front : List Line) (offset : Int) (rest : List Line) :
      Placed plain (front ++ [.instruction (.sw .a0 offset .s0)])
        (.instruction (.addiu .a1 .s0 offset)) (.instruction (.jal "_GenGC_Assign") :: rest)
  | call (front : List Line) (offset : Int) (rest : List Line) :
      Placed plain
        (front ++ [.instruction (.sw .a0 offset .s0),.instruction (.addiu .a1 .s0 offset)])
        (.instruction (.jal "_GenGC_Assign")) rest

theorem Placed.below {plain before after : List Line} {l : Line}
    (placed : Placed plain before l after) (first : Line) (above : List Line) :
    Placed (first :: plain) (above ++ before) l after := by
  cases placed with
  | other member none => exact .other (.tail _ member) none
  | store front offset rest => exact .store _ offset rest
  | address front offset rest =>
    rw [← List.append_assoc]
    exact .address _ offset rest
  | call front offset =>
    rw [← List.append_assoc]
    exact .call _ offset _

theorem Line.eq_of_storeOffset? {l : Line} {offset : Int} (stores : l.storeOffset? = some offset) :
    l = .instruction (.sw .a0 offset .s0) := by
  unfold storeOffset? at stores
  split at stores
  next => cases stores; rfl
  next => cases stores

/-- Lines with reports are taken apart at any of them. -/
theorem placed_of_split {plain before after : List Line} {l : Line}
    (split : reportedLines plain = before ++ l :: after) : Placed plain before l after := by
  induction plain generalizing before with
  | nil => simp at split
  | cons first plain ih =>
    rw [reportedLines_cons,Line.reported] at split
    cases stores : first.storeOffset? with
    | none =>
      rw [stores] at split
      cases before with
      | nil =>
        obtain ⟨rfl,-⟩ := List.cons.inj split
        exact .other (.head _) stores
      | cons b before =>
        obtain ⟨-,later⟩ := List.cons.inj split
        exact (ih later).below first [b]
    | some offset =>
      rw [stores] at split
      -- The line is one of the three that the store became, or comes after them.
      rcases before with _ | ⟨b,_ | ⟨c,_ | ⟨d,before⟩⟩⟩
      · cases split
        exact .store [] offset _
      · cases split
        exact .address [] offset _
      · cases split
        exact .call [] offset _
      · have later : reportedLines plain = before ++ l :: after := by
          simpa [Code.storeTo] using congrArg (List.drop 3) split
        exact (ih later).below first [b,c,d]

theorem placed_of_text {plain : List Line} {before after : List String} {line : String}
    (split : (reportedLines plain).map Line.text = before ++ line :: after) :
    ∃ front l rest, Placed plain front l rest ∧ front.map Line.text = before ∧ l.text = line ∧
      rest.map Line.text = after := by
  obtain ⟨front,_,whole,above,below⟩ := List.map_eq_append_iff.mp split
  obtain ⟨l,rest,rfl,text,below⟩ := List.map_eq_cons_iff.mp below
  exact ⟨front,l,rest,placed_of_split whole,above,text,below⟩

section Silent

variable {plain : List Line} (silent : ∀ l ∈ plain, l.Silent)

include silent

theorem storesReported : StoresReported ((reportedLines plain).map Line.text) where
  followed before offset after split := by
    obtain ⟨_,l,_,placed,-,text,rfl⟩ := placed_of_text split
    cases placed with
    | other member none => exact absurd none ((silent l member).store offset text)
    | store front n rest =>
      rw [text_store] at text
      obtain rfl := storeText_inj text
      exact ⟨rest.map Line.text,by simp [text_address,text_assign]⟩
    | address front n rest =>
      rw [text_address] at text
      exact absurd text.symm storeText_ne_addressText
    | call => exact absurd text.symm storeText_ne_assignText
  addressed before offset after split := by
    obtain ⟨_,l,_,placed,rfl,text,rfl⟩ := placed_of_text split
    cases placed with
    | other member none =>
      have report := (silent l member).report
      rw [text,Bool.eq_false_iff,Ne,isReport_iff] at report
      exact absurd (.inr ⟨offset,rfl⟩) report
    | store front n rest =>
      rw [text_store] at text
      exact absurd text storeText_ne_addressText
    | address front n rest =>
      rw [text_address] at text
      obtain rfl := addressText_inj text
      exact ⟨front.map Line.text,rest.map Line.text,by simp [text_store],rfl⟩
    | call => exact absurd text.symm addressText_ne_assignText
  called before after split := by
    obtain ⟨_,l,_,placed,rfl,text,-⟩ := placed_of_text split
    cases placed with
    | other member none =>
      have report := (silent l member).report
      rw [text] at report
      exact absurd report (by decide)
    | store front n rest =>
      rw [text_store] at text
      exact absurd text storeText_ne_assignText
    | address front n rest =>
      rw [text_address] at text
      exact absurd text addressText_ne_assignText
    | call front n rest =>
      exact ⟨front.map Line.text,toString n,by simp [text_store,text_address]⟩

/-- Without reports, the lines are those that the reports were added to. -/
theorem filter_reported :
    ((reportedLines plain).map Line.text).filter (!isReport ·) = plain.map Line.text := by
  induction plain with
  | nil => rfl
  | cons l plain ih =>
    obtain ⟨here,later⟩ := List.forall_mem_cons.mp silent
    rw [reportedLines_cons,List.map_append,List.filter_append,ih later,List.map_cons,Line.reported]
    cases stores : l.storeOffset? with
    | none => simp [here.report]
    | some offset =>
      obtain rfl := Line.eq_of_storeOffset? stores
      have address (offset : String) : isReport (addressText offset) :=
        isReport_iff.mpr (.inr ⟨offset,rfl⟩)
      have call : isReport assignText := by decide
      have store := here.report
      simp only [Code.storeTo,code,if_true,List.map_cons,List.map_nil,text_address,text_assign]
      simp [store,address,call]

end Silent

theorem mem_reportedLines {lines : List Line} {l : Line} (member : l ∈ lines) :
    l ∈ reportedLines lines := by
  refine List.mem_flatMap.mpr ⟨l,member,?_⟩
  rw [Line.reported]
  cases stores : l.storeOffset? with
  | none => exact .head _
  | some offset =>
    rw [Line.eq_of_storeOffset? stores]
    exact .head _

theorem Line.Datum.storeOffset?_eq {l : Line} (datum : l.Datum) : l.storeOffset? = none := by
  cases l with
  | instruction => exact datum.elim
  | _ => rfl

theorem withoutCollector_eq {line : String}
    (init : line ≠ wordOf GcMode.generational.initializer)
    (collect : line ≠ wordOf GcMode.generational.collector) : withoutCollector line = line := by
  rw [withoutCollector,if_neg init,if_neg collect]

/-- Code has no data words. -/
theorem Line.Ordinary.withoutCollector_text {l : Line} (ordinary : l.Ordinary)
    (legible : l.Legible) : withoutCollector l.text = l.text := by
  have other (symbol : String) : l.text ≠ statement ".word" [symbol] := by
    intro same
    obtain ⟨operands,read,-⟩ := legible.statement_eq (by decide) same
    cases l with
    | instruction i =>
      obtain ⟨word,-⟩ := Prod.mk.inj (Option.some.inj read)
      have letters := legible.1
      rw [word] at letters
      exact absurd letters (by decide)
    | directive name operands =>
      obtain ⟨rfl,-⟩ := Prod.mk.inj (Option.some.inj read)
      simp at ordinary
    | _ => cases read
  exact withoutCollector_eq (other _) (other _)

/-- A data word that is a symbol is known. -/
theorem Line.Refers.known_of_word {known : String → Prop} {l : Line} (refers : l.Refers known)
    (legible : l.Legible) {symbol : String} (read : symbolsOf (wordOf symbol).toList = [symbol])
    (same : l.text = wordOf symbol) : known symbol := by
  apply refers.uses
  rw [← legible.read.2.2,same,read]
  exact .head _

end Assembly

open Assembly

/-- The data of a program refers to symbols that start with letters, unlike those of the
collectors. -/
theorem Assembled.referring_letters {p : Program} (named : p.Named) {options : Options}
    {classes : ClassTable} {s t : Supply} {image : Image}
    (assembled : Assembled options classes s image t) (ready : classes.Ready)
    (same : classes.toList.map ClassEntry.bare = p.declared) (sound : t.literals.Sound)
    (prototypes : image.prototypes = classes.toList.map classes.prototype) :
    Referring (startsWithLetter ·) image.dataLines := by
  have names (c : ClassEntry) (member : c ∈ classes.toList) : startsWithLetter c.name :=
    startsWithLetter_identifier (named.entries same c member).1
  refine Image.referring_dataLines ⟨by decide,by decide,by decide⟩ ?_
    (fun label member => startsWithLetter_constant sound (assembled.names label member)) ?_ ?_ ?_
  · intro label value length member
    rw [assembled.literals] at member
    exact startsWithLetter_constant sound (sound.lengths label value length member)
  · rw [prototypes]
    refine List.forall_mem_map.mpr fun c member => ?_
    have letter := startsWithLetter_append (names c member)
    exact ⟨letter _,letter _,letter _⟩
  · rw [prototypes]
    refine List.forall_mem_map.mpr fun c member => ?_
    rw [ClassTable.prototype]
    split
    next => exact List.forall_mem_singleton.mpr (referring_text (by decide) (by decide))
    next =>
      refine List.forall_mem_map.mpr fun slot _ => List.forall_mem_singleton.mpr ?_
      refine refers_word.mpr ?_
      unfold defaultWord
      split
      next => exact .inl (by decide)
      next =>
        split
        next => exact .inl (by decide)
        next =>
          split
          next => exact .inl (by decide)
          next => exact .inr ⟨0,rfl⟩
  · rw [assembled.tables]
    exact List.forall_mem_map.mpr fun c member => List.forall_mem_map.mpr fun e among =>
      startsWithLetter_entry ready names member among

namespace Image

theorem datum_header (options : Options) : ∀ l ∈ header options, l.Datum := by
  simp [header,globals,variableLines,Line.word]

theorem datum_block {lines : List Line} (data : ∀ l ∈ lines, l.Datum) :
    ∀ l ∈ block lines, l.Datum := by
  by_cases empty : lines = []
  · subst empty
    simp [block]
  · rwa [block_eq empty]

theorem datum_flatMap {α : Type} {lines : α → List Line} (each : ∀ x, ∀ l ∈ lines x, l.Datum)
    (xs : List α) : ∀ l ∈ xs.flatMap lines, l.Datum := by
  intro l member
  obtain ⟨x,-,inside⟩ := List.mem_flatMap.mp member
  exact each x l inside

theorem datum_object (label table : String) (tag : Nat) (size : Int) {slots : List Line}
    (inner : ∀ l ∈ slots, l.Datum) : ∀ l ∈ objectLines label tag size table slots, l.Datum := by
  simpa [objectLines,Line.word] using inner

theorem datum_dataLines (image : Image) : ∀ l ∈ image.dataLines, l.Datum := by
  have words (labels : List String) : ∀ l ∈ labels.map Line.word, l.Datum := by simp [Line.word]
  have texts (length text : String) : ∀ l ∈ textLines length text, l.Datum := by
    simp [textLines,Line.word]
  have literals (x : Literal) : ∀ l ∈ x.lines, l.Datum := by
    cases x with
    | string => exact datum_object _ _ _ _ (texts _ _)
    | int => exact datum_object _ _ _ _ (words [_])
    | bool => exact datum_object _ _ _ _ (words [_])
  have slots (x : PrototypeSlot) : ∀ l ∈ x.lines, l.Datum := by
    cases x with
    | word value => exact words [value]
    | emptyString length => exact texts length ""
  have prototypes (x : Prototype) : ∀ l ∈ x.lines, l.Datum :=
    datum_object _ _ _ _ (datum_flatMap slots _)
  have pairs (x : Prototype) : ∀ l ∈ classObjects x, l.Datum := words [_,_]
  have tables (x : DispatchTable) : ∀ l ∈ x.lines, l.Datum :=
    List.forall_mem_cons.mpr ⟨trivial,datum_block (words _)⟩
  have last : ∀ l ∈ globals ["heap_start"] ++ variableLines "heap_start" "0", l.Datum := by
    simp [globals,variableLines,Line.word]
  simp only [dataLines,List.append_assoc,List.forall_mem_append,List.forall_mem_singleton] at last ⊢
  exact ⟨datum_block (datum_flatMap literals _),datum_block (datum_flatMap literals _),trivial,
    datum_block (words _),trivial,datum_block (datum_flatMap pairs _),
    datum_block (datum_flatMap prototypes _),datum_block (datum_flatMap tables _),last⟩

theorem header_withoutCollector (gcTest : Bool) :
    ((header { gc := .generational, gcTest }).map Line.text).map withoutCollector =
      (header { gc := .off, gcTest }).map Line.text := by
  cases gcTest
  · decide
  · decide

namespace Reports

variable {gcTest : Bool} {image plain : Image} (reports : Reports gcTest image plain)
  (legible : ∀ l ∈ image.lines, l.Legible)

include reports

/-- The lines that the reports were added to. -/
theorem lines_eq : image.lines =
    reportedLines (header image.options ++ image.dataLines ++ plain.textSection) := by
  have data : ∀ l ∈ header image.options ++ image.dataLines, l.storeOffset? = none := by
    refine List.forall_mem_append.mpr ⟨fun l member => ?_,fun l member => ?_⟩
    · exact (datum_header _ l member).storeOffset?_eq
    · exact (image.datum_dataLines l member).storeOffset?_eq
  rw [reportedLines_append,reportedLines_eq data,← reports.routines.eq]
  rfl

include legible

theorem legible_plain :
    ∀ l ∈ header image.options ++ image.dataLines ++ plain.textSection, l.Legible := by
  intro l member
  apply legible
  rw [reports.lines_eq]
  exact mem_reportedLines member

theorem silent :
    ∀ l ∈ header image.options ++ image.dataLines ++ plain.textSection, l.Silent := by
  intro l member
  have readable := reports.legible_plain legible l member
  rcases List.mem_append.mp member with data | code
  · rcases List.mem_append.mp data with header | table
    · exact (datum_header _ l header).silent readable
    · exact (image.datum_dataLines l table).silent readable
  · exact (reports.routines.ordinary l code).silent readable

theorem storesReported : StoresReported (linesIn (joined image.lines)) := by
  rw [linesIn_joined image.lines_ne_nil legible,reports.lines_eq]
  exact Assembly.storesReported (reports.silent legible)

/-- Without reports and collector, the text with reports is the text without them. -/
theorem withoutReports_text (letters : Referring (startsWithLetter ·) image.dataLines) :
    withoutReports (joined image.lines) = joined plain.lines := by
  have readable := reports.legible_plain legible
  have data : (image.dataLines.map Line.text).map withoutCollector =
      plain.dataLines.map Line.text := by
    rw [← reports.data,List.map_map]
    refine List.map_congr_left fun l member => ?_
    have here := readable l (List.mem_append_left _ (List.mem_append_right _ member))
    apply withoutCollector_eq
    · exact fun same => absurd ((letters l member).known_of_word here (by decide) same) (by decide)
    · exact fun same => absurd ((letters l member).known_of_word here (by decide) same) (by decide)
  have routines : (plain.textSection.map Line.text).map withoutCollector =
      plain.textSection.map Line.text := by
    rw [List.map_map]
    refine List.map_congr_left fun l member => ?_
    have here := readable l (List.mem_append_right _ member)
    exact (reports.routines.ordinary l member).withoutCollector_text here
  have header := header_withoutCollector gcTest
  rw [← reports.options,← reports.plainOptions] at header
  rw [withoutReports,linesIn_joined image.lines_ne_nil legible,reports.lines_eq,
    filter_reported (reports.silent legible)]
  simp only [List.map_append,data,routines,header]
  rw [joined,Image.lines,List.map_append,List.map_append]

end Reports

end Image

/-- Images that differ in reports have texts that do, and failures have the same message. -/
theorem Session.rendered_reports {gcTest : Bool}
    {r plain : EStateM.Result InternalError Supply Image}
    (alike : Alike Eq (Image.Reports gcTest) r plain)
    (readable : ∀ image t, r = .ok image t → (∀ l ∈ image.lines, l.Legible) ∧
      Referring (startsWithLetter ·) image.dataLines) :
    rendered plain = (rendered r).map withoutReports ∧
      ∀ text, rendered r = .ok text → StoresReported (linesIn text) := by
  cases r with
  | ok image t =>
    cases plain with
    | ok plain t' =>
      obtain ⟨legible,letters⟩ := readable image t rfl
      rw [rendered_ok,rendered_ok]
      refine ⟨congrArg Except.ok (alike.1.withoutReports_text legible letters).symm,?_⟩
      intro text same
      obtain rfl := Except.ok.inj same
      exact alike.1.storesReported legible
    | error => exact alike.elim
  | error e t =>
    cases plain with
    | ok => exact alike.elim
    | error f t' =>
      obtain ⟨rfl,-⟩ := alike
      refine ⟨rfl,?_⟩
      intro text same
      cases same

/-- With a generational collector, a program is compiled exactly if it is without one, and to the
same text but for the reports of its stores and the names of the collector's routines. -/
theorem generational_adds_reports {p : Program} (named : p.Named) (gcTest : Bool) :
    Session.output p { gc := .off, gcTest } =
      (Session.output p { gc := .generational, gcTest }).map withoutReports ∧
    ∀ text, Session.output p { gc := .generational, gcTest } = .ok text →
      StoresReported (linesIn text) := by
  have laid := Session.layout_eq p
  cases work : Session.tableWork p ClassTable.builtins with
  | error e table =>
    simp only [work] at laid
    rw [Session.output_of_failure (laid _),Session.output_of_failure (laid _)]
    exact ⟨rfl,fun _ same => by cases same⟩
  | ok u table =>
    obtain ⟨supply,names⟩ := Session.nameClasses_runs table.toList Session.firstSupply
    simp only [work,Session.onSupply,names] at laid
    rw [Session.output_of_layout (laid _),Session.output_of_layout (laid _)]
    refine Session.rendered_reports (assemble_reported gcTest table supply) fun image t run => ?_
    obtain ⟨ready,same⟩ := Session.ready_of_layout (laid _)
    have assembled := assembled_of_run (rawZero_of_declared same) run
    have sound := assembled.sound (Session.sound_of_layout (laid { gc := .generational, gcTest }))
    have prototypes := prototypes_of_assemble ready (ClassTable.rawDefault_of_declared same)
      (Session.based_of_layout (laid { gc := .generational, gcTest })) run
    exact ⟨(assembled.legible named ready same sound).1,
      assembled.referring_letters named ready same sound prototypes⟩

theorem ticking_reported : ∃ text,
    Session.output ticking { gc := .generational, gcTest := true } = .ok text ∧
      StoresReported (linesIn text) ∧
      Session.output ticking { gcTest := true } = .ok (withoutReports text) := by
  obtain ⟨plain,reported⟩ := generational_adds_reports (p := ticking) ⟨by decide,by decide⟩ true
  obtain ⟨text,s,run⟩ : ∃ text s, Session.compile ticking
      { options := { gc := .generational, gcTest := true } } = .ok text s :=
    exists_of_succeeded (by decide +kernel)
  have made : Session.output ticking { gc := .generational, gcTest := true } = .ok text := by
    rw [Session.output,Session.outputIn,← Session.compile,run]
  exact ⟨text,made,reported text made,by rw [plain,made]; rfl⟩

end CoolBackend
