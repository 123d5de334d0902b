import CoolBackend.Proofs.Prototypes
import CoolBackend.Proofs.UniqueLabels

/-!
The runtime system finds the name of an object's class, its prototype and its initializer in tables
that are indexed by the tag, and its methods in the dispatch table that the prototype points to. In
the text of a program all these tables have exactly the words of its classes, in the order of their
tags.
-/
namespace CoolBackend

namespace Assembly

def linesBelow (label : String) (lines : List String) : List String :=
  (lines.dropWhile (· ≠ label ++ ":")).tail

def wordOperand? (line : String) : Option String :=
  match Text.splitAt '\t' line.toList with
  | [[],directive,operand] =>
    if String.ofList directive = ".word" then some (String.ofList operand) else none
  | _ => none

def leadingWords : List String → List String
  | [] => []
  | line :: rest =>
    match wordOperand? line with
    | some operand => if operand = "-1" then [] else operand :: leadingWords rest
    | none => []

def wordsAt (label : String) (lines : List String) : List String :=
  leadingWords (linesBelow label lines)

theorem Line.Legible.label_of_text {l : Line} (legible : l.Legible) {name : String}
    (plain : Plain name) (same : l.text = name ++ ":") : l = .label name := by
  have read := legible.read.2.1
  rw [same,labelOf?_label plain] at read
  cases l with
  | label other => rw [Option.some.inj read]
  | _ => cases read

theorem linesBelow_text {before after : List Line} {label : String}
    (legible : ∀ l ∈ before, l.Legible) (plain : Plain label) (fresh : label ∉ labelsIn before) :
    linesBelow label ((before ++ .label label :: after).map Line.text) = after.map Line.text := by
  have others : ∀ line ∈ before.map Line.text, decide (line ≠ label ++ ":") = true := by
    refine List.forall_mem_map.mpr fun l member => decide_eq_true fun same => fresh ?_
    rw [(legible l member).label_of_text plain same] at member
    exact List.mem_filterMap.mpr ⟨_,member,rfl⟩
  rw [linesBelow,List.map_append,List.dropWhile_append_of_pos others,List.map_cons,Line.text,
    List.dropWhile_cons_of_neg (by simp)]
  rfl

theorem wordOperand?_word {operand : String} (tabless : '\t' ∉ operand.toList) :
    wordOperand? (Line.word operand).text = some operand := by
  have free : ∀ o ∈ [operand], '\t' ∉ o.toList := List.forall_mem_singleton.mpr tabless
  have word : '\t' ∉ ".word".toList := by decide
  have split := splitAt_statement word free
  rw [if_neg (List.cons_ne_nil _ _)] at split
  rw [wordOperand?,Line.word,Line.text,split]
  simp [List.intercalate]

def Continues (word : String) : Prop := '\t' ∉ word.toList ∧ word ≠ "-1"

theorem leadingWords_words {words : List String} (each : ∀ word ∈ words, Continues word)
    (rest : List String) :
    leadingWords ((words.map Line.word).map Line.text ++ rest) = words ++ leadingWords rest := by
  induction words with
  | nil => rfl
  | cons word words ih =>
    obtain ⟨⟨tabless,unmarked⟩,others⟩ := List.forall_mem_cons.mp each
    rw [List.map_cons,List.map_cons,List.cons_append,leadingWords,wordOperand?_word tabless]
    simp only [if_neg unmarked,ih others,List.cons_append]

theorem leadingWords_mark (rest : List String) :
    leadingWords ((Line.word "-1").text :: rest) = [] := by
  rw [leadingWords,wordOperand?_word (by decide)]
  rfl

theorem leadingWords_blank (rest : List String) : leadingWords (Line.blank.text :: rest) = [] := by
  have none : wordOperand? Line.blank.text = none := rfl
  rw [leadingWords,none]

/-- A table that ends where other lines begin. -/
theorem leadingWords_block {words : List String} (each : ∀ word ∈ words, Continues word)
    {rest : List String} (stop : leadingWords rest = []) :
    leadingWords ((block (words.map Line.word)).map Line.text ++ rest) = words := by
  by_cases empty : words = []
  · subst empty
    exact leadingWords_blank rest
  · rw [block_eq (by simpa using empty),leadingWords_words each,stop,List.append_nil]

theorem leadingWords_label {name : String} (plain : Plain name) (rest : List String) :
    leadingWords ((Line.label name).text :: rest) = [] := by
  have free : '\t' ∉ (name ++ ":").toList := by simp [plain.tab]
  have none : wordOperand? (name ++ ":") = none := by
    rw [wordOperand?,splitAt_free free]
    cases (name ++ ":").toList <;> rfl
  rw [leadingWords,Line.text,none]

theorem leadingWords_global (rest : List String) :
    leadingWords ((Line.directive ".globl" ["heap_start"]).text :: rest) = [] := by
  have none : wordOperand? (Line.directive ".globl" ["heap_start"]).text = none := by decide
  rw [leadingWords,none]

end Assembly

open Assembly

namespace Image

variable {image : Image}

theorem lines_around_names (image : Image) : ∃ above below, image.lines =
    above ++ .label "class_nameTab" :: (block (image.classNames.map .word) ++
      .label "class_objTab" :: (block (image.prototypes.flatMap classObjects) ++
        (block (image.prototypes.flatMap Prototype.lines) ++ below))) :=
  ⟨header image.options ++ block (image.literals.flatMap Literal.lines) ++
      block (Literal.bools.flatMap Literal.lines),_,by
    simp only [lines,dataLines,List.append_assoc,List.cons_append,List.nil_append]
    rfl⟩

theorem lines_around_literal {l : Literal} (member : l ∈ image.literals) :
    ∃ above below, image.lines = above ++ l.lines ++ below := by
  obtain ⟨front,back,split⟩ := List.append_of_mem member
  have some : l.lines ≠ [] := by cases l <;> simp [Literal.lines,objectLines]
  have constants : block (image.literals.flatMap Literal.lines) =
      front.flatMap Literal.lines ++ l.lines ++ back.flatMap Literal.lines := by
    rw [block_eq (by simp [split,some]),split]
    simp
  exact ⟨header image.options ++ front.flatMap Literal.lines,_,by
    simp only [lines,dataLines,constants,List.append_assoc]
    rfl⟩

/-- A dispatch table in the text of its image, and what ends it. -/
theorem lines_around_table {t : DispatchTable} (member : t ∈ image.dispatchTables) :
    ∃ above below, image.lines = above ++ t.lines ++ below ∧
      ((∃ label rest, below = .label label :: rest) ∨
        ∃ rest, below = .directive ".globl" ["heap_start"] :: rest) := by
  obtain ⟨front,back,split⟩ := List.append_of_mem member
  have tables : block (image.dispatchTables.flatMap DispatchTable.lines) =
      front.flatMap DispatchTable.lines ++ t.lines ++ back.flatMap DispatchTable.lines := by
    rw [block_eq (by simp [split,DispatchTable.lines]),split]
    simp
  obtain ⟨above,data⟩ : ∃ above, image.dataLines =
      above ++ (block (image.dispatchTables.flatMap DispatchTable.lines) ++
        .directive ".globl" ["heap_start"] :: variableLines "heap_start" "0") :=
    ⟨_,by rw [dataLines,List.append_assoc,List.append_assoc]; rfl⟩
  rw [lines,data,tables]
  refine ⟨header image.options ++ above ++ front.flatMap DispatchTable.lines,
    back.flatMap DispatchTable.lines ++ .directive ".globl" ["heap_start"] ::
      (variableLines "heap_start" "0" ++ image.textSection),by simp,?_⟩
  cases back with
  | nil => exact .inr ⟨_,rfl⟩
  | cons => exact .inl ⟨_,_,rfl⟩

end Image

namespace Literal

/-- The characters of identifiers are single bytes that need no escape. -/
theorem escape_char {c : Char} (word : c.isAlphanum ∨ c = '_') :
    (String.utf8EncodeChar c).flatMap escapeByte = [c] := by
  have range : 48 ≤ c.toNat ∧ c.toNat ≤ 122 ∧ c.toNat ≠ 92 := by
    rcases word with word | rfl
    · rw [Char.isAlphanum,Bool.or_eq_true,isAlpha_iff,isDigit_iff] at word
      omega
    · decide
  have small : c.utf8Size = 1 := Char.utf8Size_eq_one_iff.mpr (by
    rw [UInt32.le_iff_toNat_le]
    exact Nat.le_trans range.2.1 (by decide))
  have byte : c.val.toUInt8.toNat = c.toNat := by
    rw [UInt32.toNat_toUInt8]
    exact Nat.mod_eq_of_lt (Nat.lt_of_le_of_lt range.2.1 (by decide))
  rw [String.utf8EncodeChar_eq_singleton small,List.flatMap_singleton]
  generalize c.val.toUInt8 = b at byte
  have other (k : UInt8) (different : c.toNat ≠ k.toNat) : b ≠ k := by
    rintro rfl
    exact different byte.symm
  have backslash : b ≠ 0x5c := other _ (by simpa using range.2.2)
  have quote : b ≠ 0x22 := other _ (by simp; omega)
  have newline : b ≠ 0x0a := other _ (by simp; omega)
  have tab : b ≠ 0x09 := other _ (by simp; omega)
  have printable : ¬(b < 0x20 || 0x7e < b) := by
    simp [UInt8.lt_iff_toNat_lt,byte]
    omega
  rw [escapeByte,if_neg backslash,if_neg quote,if_neg newline,if_neg tab,if_neg printable,byte,
    Char.ofNat_toNat]

theorem escape_identifier {name : String} (identifier : isIdentifier name) :
    escape (Bytes.ofText name) = name := by
  have each : name.toList.flatMap (fun c => (String.utf8EncodeChar c).flatMap escapeByte) =
      name.toList.flatMap fun c => [c] :=
    List.flatMap_congr fun c member => escape_char (mem_identifier identifier member)
  rw [escape,Bytes.ofText_eq,List.flatMap_assoc,each,List.flatMap_singleton',String.ofList_toList]

end Literal

theorem string_drawn_entry {value : Bytes} {s t : Supply} {label : String}
    (drawn : LowerM.string value s = .ok label t) :
    ∃ length, .string label value length ∈ t.literals.entries := by
  cases drawn
  exact s.literals.string_entry value

/-- The words of the table of names are the labels of the names, in the order of the tags. -/
theorem classNames_of_assemble {options : Options} {classes : ClassTable} {s t : Supply}
    {image : Image} (raw : classes.RawZero) (run : assemble options classes s = .ok image t) :
    List.Forall₂ (fun c label => ∃ length,
      .string label (Bytes.ofText c.name) length ∈ t.literals.entries)
      classes.toList image.classNames := by
  rw [assemble_eq,assembleWith] at run
  obtain ⟨rows,u,tabulated,others⟩ := bind_eq_ok.mp run
  obtain ⟨inits,v,initialized,others⟩ := bind_eq_ok.mp others
  obtain ⟨methods,_,implemented,others⟩ := bind_eq_ok.mp others
  obtain ⟨_,_,same,final⟩ := bind_eq_ok.mp others
  cases same
  cases final
  obtain ⟨-,-,stores⟩ := initRoutines_run initialized
  obtain ⟨-,bodies⟩ := methodRoutines_run implemented
  have grows := (Links.chain ((stores _ (links classes)).append (bodies _ (links classes)))).1
  have named : s.Requests u ∧ List.Forall₂ (fun c row => ∃ length,
      .string row.1 (Bytes.ofText c.name) length ∈ u.literals.entries) classes.toList rows := by
    refine mapM_induction (R := fun s cs rows u => s.Requests u ∧
      List.Forall₂ (fun c row => ∃ length,
        .string row.1 (Bytes.ofText c.name) length ∈ u.literals.entries) cs rows) ?_ ?_ tabulated
    · exact fun s => ⟨.refl s,.nil⟩
    · rintro c row cs rows s v u first ⟨requests,later⟩
      obtain ⟨name,w,drawn,others⟩ := bind_eq_ok.mp first
      obtain ⟨p,_,made,final⟩ := bind_eq_ok.mp others
      cases final
      obtain ⟨length,entry⟩ := string_drawn_entry drawn
      have after := (prototypeOf_holds raw made).1.trans requests
      exact ⟨(string_drawn drawn).1.trans after,
        .cons ⟨length,after.grows.kept.subset entry⟩ later⟩
  refine List.forall₂_map_right_iff.mpr (named.2.imp ?_)
  rintro c row ⟨length,entry⟩
  exact ⟨length,grows.kept.subset entry⟩

/-- Words that start with letters do not end the words before them. -/
theorem continues_of_letter {lines : List Line} (legible : ∀ l ∈ lines, l.Legible) {word : String}
    (member : .word word ∈ lines) (letter : startsWithLetter word) : Continues word := by
  have plain : Plain word := (legible _ member).2.2 (by decide) word (.head _)
  refine ⟨plain.tab,?_⟩
  rintro rfl
  exact absurd letter (by decide)

theorem continues_number (n : Nat) : Continues (toString n) := by
  refine ⟨(plain_number n).tab,fun same => ?_⟩
  have minus : '-' ∈ (toString n).toList := by simp [same]
  exact absurd (isDigit_of_mem_toString minus) (by decide)

namespace Assembled

variable {p : Program} {options : Options} {classes : ClassTable} {s t : Supply} {image : Image}
  (assembled : Assembled options classes s image t) (sound : t.literals.Sound)
  (ready : classes.Ready) (names : ∀ c ∈ classes.toList, isIdentifier c.name)

include assembled sound ready names

/-- Apart from those of methods, no label is defined twice. -/
theorem nodup_other_labels : ((labelsIn image.lines).filter (labelKind · ≠ ".")).Nodup := by
  have dotless : ∀ c ∈ classes.toList, '.' ∉ c.name.toList := fun c member =>
    dotless_identifier (names c member)
  have kinds := families_kinds sound dotless
  have own : List.Forall₂ OfKinds ((labelFamilies classes t.literals).take 6)
      (familyKinds.take 6) := (List.forall₂_and_left _ _).mpr
    ⟨nodup_families ready.toSound sound,List.forall₂_take 6 kinds⟩
  have apart : ((familyKinds.take 6).flatten ++ labelStems).Nodup := by decide
  obtain ⟨separate,-,disjoint⟩ := List.nodup_append'.mp apart
  have others :
      (((labelFamilies classes t.literals).take 6).flatten ++ image.drawnLabels).Nodup := by
    refine (OfKinds.nodup_flatten own separate).append assembled.drawn.nodup ?_
    intro label named drawn
    obtain ⟨stem,known,k,-,-,rfl⟩ := assembled.drawn.of_mem drawn
    exact disjoint (OfKinds.flatten own _ named)
      (labelKind_drawn ((isDrawn_numbered known).mpr rfl))
  have methods : ((classes.toList.flatMap (·.methodDecls)).map methodLabel).filter
      (labelKind · ≠ ".") = [] := by
    refine List.filter_eq_nil_iff.mpr (List.forall_mem_map.mpr fun m _ => ?_)
    simp [methodLabel,labelKind_method]
  have families : (labelFamilies classes t.literals).flatten =
      ((labelFamilies classes t.literals).take 6).flatten ++
        (classes.toList.flatMap (·.methodDecls)).map methodLabel := by
    simp [labelFamilies]
  rw [(assembled.labels_perm.filter _).nodup_iff,families,List.filter_append,List.filter_append,
    methods,List.append_nil,← List.filter_append]
  exact others.filter _

variable (legible : ∀ l ∈ image.lines, l.Legible)

include legible

/-- What stands below a label other than that of a method. -/
theorem linesBelow_of_split {label : String} {before after : List Line}
    (member : label ∈ ((labelFamilies classes t.literals).take 6).flatten)
    (split : image.lines = before ++ .label label :: after) :
    linesBelow label (image.lines.map Line.text) = after.map Line.text := by
  have dotless : ∀ c ∈ classes.toList, '.' ∉ c.name.toList := fun c member =>
    dotless_identifier (names c member)
  have kind : labelKind label ≠ "." := by
    intro method
    have among := kinds_flatten (List.forall₂_take 6 (families_kinds sound dotless)) label member
    rw [method] at among
    exact absurd among (by decide)
  have once := assembled.nodup_other_labels sound ready names
  rw [split] at legible once ⊢
  obtain ⟨above,below⟩ := List.forall_mem_append.mp legible
  refine linesBelow_text above (List.forall_mem_cons.mp below).1 fun earlier => ?_
  rw [labelsIn,List.filterMap_append,List.filter_append] at once
  have here : label ∈ ((Line.label label :: after).filterMap Line.label?).filter
      (labelKind · ≠ ".") := List.mem_filter.mpr ⟨.head _,by simpa using kind⟩
  exact List.disjoint_of_nodup_append once
    (List.mem_filter.mpr ⟨earlier,by simpa using kind⟩) here

/-- A table of words that start with letters reads back as these words. -/
theorem wordsAt_of_split {label : String} {words : List String} {before after : List Line}
    (member : label ∈ ((labelFamilies classes t.literals).take 6).flatten)
    (split : image.lines = before ++ .label label :: (block (words.map .word) ++ after))
    (letters : ∀ word ∈ words, startsWithLetter word)
    (stop : leadingWords (after.map Line.text) = []) :
    wordsAt label (image.lines.map Line.text) = words := by
  rw [wordsAt,assembled.linesBelow_of_split sound ready names legible member split,List.map_append]
  refine leadingWords_block (fun word inside => ?_) stop
  have here : .word word ∈ words.map Line.word := List.mem_map_of_mem inside
  refine continues_of_letter legible ?_ (letters word inside)
  rw [split,block_eq (List.ne_nil_of_mem here)]
  exact List.mem_append_right _ (.tail _ (List.mem_append_left _ here))

theorem wordsAt_classNames :
    wordsAt "class_nameTab" (image.lines.map Line.text) = image.classNames := by
  obtain ⟨above,below,split⟩ := image.lines_around_names
  have label : "class_nameTab" ∈ ((labelFamilies classes t.literals).take 6).flatten :=
    List.mem_flatten.mpr ⟨fixedLabels,.head _,by decide⟩
  exact assembled.wordsAt_of_split sound ready names legible label split
    (fun word member => startsWithLetter_constant sound (assembled.names word member))
    (leadingWords_label (by decide) _)

theorem wordsAt_classObjects
    (prototypes : image.prototypes = classes.toList.map classes.prototype) :
    wordsAt "class_objTab" (image.lines.map Line.text) =
      classes.toList.flatMap fun c => [c.name ++ "_protObj",c.name ++ "_init"] := by
  obtain ⟨above,below,split⟩ := image.lines_around_names
  have label : "class_objTab" ∈ ((labelFamilies classes t.literals).take 6).flatten :=
    List.mem_flatten.mpr ⟨fixedLabels,.head _,by decide⟩
  have words : image.prototypes.flatMap Image.classObjects =
      (classes.toList.flatMap fun c => [c.name ++ "_protObj",c.name ++ "_init"]).map .word := by
    rw [prototypes,List.flatMap_map,List.map_flatMap]
    rfl
  rw [← List.cons_append,← List.append_assoc,words] at split
  refine assembled.wordsAt_of_split sound ready names legible label split ?_ ?_
  · intro word member
    obtain ⟨c,inside,pair⟩ := List.mem_flatMap.mp member
    have own := startsWithLetter_append (startsWithLetter_identifier (names c inside))
    rcases List.mem_pair.mp pair with rfl | rfl
    · exact own _
    · exact own _
  · cases image.prototypes with
    | nil => exact leadingWords_blank _
    | cons => exact leadingWords_mark _

theorem wordsAt_dispatch {c : ClassEntry} (member : c ∈ classes.toList) :
    wordsAt (c.name ++ "_dispTab") (image.lines.map Line.text) =
      (classes.entries c).map (·.label) := by
  have among : dispatchTableOf classes c ∈ image.dispatchTables := by
    rw [assembled.tables]
    exact List.mem_map_of_mem member
  obtain ⟨above,below,split,ends⟩ := Image.lines_around_table among
  have label : c.name ++ "_dispTab" ∈ ((labelFamilies classes t.literals).take 6).flatten :=
    List.mem_flatten.mpr ⟨_,by simp [labelFamilies],
      List.mem_map_of_mem (f := (· ++ "_dispTab")) (List.mem_map_of_mem member)⟩
  rw [DispatchTable.lines,List.append_assoc,List.append_assoc] at split
  refine assembled.wordsAt_of_split sound ready names legible label split ?_ ?_
  · refine List.forall_mem_map.mpr fun e inside => ?_
    exact startsWithLetter_entry ready
      (fun k known => startsWithLetter_identifier (names k known)) member inside
  · rcases ends with ⟨next,rest,rfl⟩ | ⟨rest,rfl⟩
    · have plain : Plain next := legible (.label next) (by simp [split])
      exact leadingWords_label plain _
    · exact leadingWords_global _

/-- The words of a prototype start with its tag, its size and the address of its methods. -/
theorem wordsAt_prototype (prototypes : image.prototypes = classes.toList.map classes.prototype)
    {c : ClassEntry} (member : c ∈ classes.toList) :
    ∃ slots, wordsAt (c.name ++ "_protObj") (image.lines.map Line.text) =
      toString c.tag :: toString (classes.objectSize c.tag).1 ::
        (c.name ++ "_dispTab") :: slots := by
  have among : classes.prototype c ∈ image.prototypes := by
    rw [prototypes]
    exact List.mem_map_of_mem member
  have tables : image.dispatchTables ≠ [] := by
    rw [assembled.tables]
    simpa using List.ne_nil_of_mem member
  obtain ⟨above,below,split,-⟩ := Image.lines_around_prototype among tables
  have label : c.name ++ "_protObj" ∈ ((labelFamilies classes t.literals).take 6).flatten :=
    List.mem_flatten.mpr ⟨_,by simp [labelFamilies],
      List.mem_map_of_mem (f := (· ++ "_protObj")) (List.mem_map_of_mem member)⟩
  have shape : image.lines = (above ++ [.word "-1"]) ++ .label (c.name ++ "_protObj") ::
      ([toString c.tag,toString (classes.objectSize c.tag).1,c.name ++ "_dispTab"].map .word ++
        ((classes.prototype c).slots.flatMap PrototypeSlot.lines ++ below)) := by
    simp only [split,Prototype.lines,objectLines,List.append_assoc,List.cons_append,List.nil_append]
    rfl
  have continues : ∀ word ∈
      [toString c.tag,toString (classes.objectSize c.tag).1,c.name ++ "_dispTab"],
      Continues word := by
    simp only [List.forall_mem_cons]
    refine ⟨continues_number _,continues_number _,?_,List.forall_mem_nil _⟩
    exact continues_of_letter legible (by simp [shape])
      (startsWithLetter_append (startsWithLetter_identifier (names c member)) _)
  rw [wordsAt,assembled.linesBelow_of_split sound ready names legible label shape,List.map_append,
    leadingWords_words continues]
  exact ⟨_,rfl⟩

/-- What stands at the label of a string. -/
theorem linesBelow_string {label length : String} {value : Bytes}
    (member : .string label value length ∈ t.literals.entries) :
    ∃ size rest, linesBelow label (image.lines.map Line.text) =
      [wordOf (toString Builtin.stringTag),wordOf size,wordOf "String_dispTab",wordOf length,
        "\t.asciiz\t\"" ++ Literal.escape value ++ "\""] ++ rest := by
  rw [← assembled.literals] at member
  obtain ⟨above,below,split⟩ := Image.lines_around_literal member
  have listed : label ∈ ((labelFamilies classes t.literals).take 6).flatten := by
    refine List.mem_flatten.mpr ⟨t.literals.labels,by simp [labelFamilies],?_⟩
    rw [assembled.literals] at member
    exact List.mem_map_of_mem (f := Literal.label) member
  have shape : image.lines = (above ++ [.word "-1"]) ++ .label label ::
      ([.word (toString Builtin.stringTag),
        .word (toString (Literal.string label value length).size),
        .word "String_dispTab",.word length,
        .directive ".asciiz" ["\"" ++ Literal.escape value ++ "\""]] ++
        (.directive ".align" ["2"] :: below)) := by
    simp only [split,Literal.lines,objectLines,textLines,List.append_assoc,List.cons_append,
      List.nil_append]
    rfl
  have text : (Line.directive ".asciiz" ["\"" ++ Literal.escape value ++ "\""]).text =
      "\t.asciiz\t\"" ++ Literal.escape value ++ "\"" :=
    String.toList_inj.mp (by simp [Line.text,statement])
  rw [assembled.linesBelow_of_split sound ready names legible listed shape,List.map_append]
  exact ⟨_,_,congrArg (· ++ _) (by simp only [List.map_cons,text]; rfl)⟩

end Assembled

theorem Session.classes_of_compile {p : Program} {options : Options} {text : String}
    {laid s : Session} (layout : layout p { options } = .ok () laid)
    (run : compile p { options } = .ok text s) : s.classes = laid.classes := by
  rw [compile_of_layout layout] at run
  cases assembled : assemble laid.options laid.classes laid.supply with
  | error => simp [assembled] at run
  | ok image supply =>
    simp only [assembled,image.render_lines] at run
    obtain ⟨-,rfl⟩ := EStateM.Result.ok.inj run
    rfl

theorem Program.names_of_declared (p : Program) : p.declared.map (·.name) =
    Builtin.all.map (·.name) ++ p.classes.map (·.name) := by
  rw [p.map_declared fun _ _ => rfl]
  rfl

theorem getElem?_pairs {α β : Type} (first second : α → β) (xs : List α) (i : Nat) :
    (xs.flatMap fun x => [first x,second x])[2 * i]? = xs[i]?.map first ∧
      (xs.flatMap fun x => [first x,second x])[2 * i + 1]? = xs[i]?.map second := by
  induction xs generalizing i with
  | nil => simp
  | cons x xs ih =>
    cases i with
    | zero => simp
    | succ i =>
      obtain ⟨even,odd⟩ := ih i
      exact ⟨even,odd⟩

/-- What the tables in a text hold for a class. -/
structure Tabled (classes : ClassTable) (lines : List String) (c : ClassEntry) : Prop where
  name : ∃ label size length rest, (wordsAt "class_nameTab" lines)[c.tag]? = some label ∧
    linesBelow label lines = [wordOf (toString Builtin.stringTag),wordOf size,
      wordOf "String_dispTab",wordOf length,"\t.asciiz\t\"" ++ c.name ++ "\""] ++ rest
  prototype : (wordsAt "class_objTab" lines)[2 * c.tag]? = some (c.name ++ "_protObj")
  initializer : (wordsAt "class_objTab" lines)[2 * c.tag + 1]? = some (c.name ++ "_init")
  object : ∃ size slots, wordsAt (c.name ++ "_protObj") lines =
    toString c.tag :: size :: (c.name ++ "_dispTab") :: slots
  dispatch : wordsAt (c.name ++ "_dispTab") lines = (classes.entries c).map (·.label)

/-- In the text of a compiled program whose names are identifiers, all tables hold for each tag what
belongs to the class with this tag, and nothing else. -/
theorem tag_tables_agree {p : Program} (named : p.Named) {options : Options} {text : String}
    {s : Session} (run : Session.compile p { options } = .ok text s) :
    (wordsAt "class_nameTab" (linesIn text)).length = 5 + p.classes.length ∧
    (wordsAt "class_objTab" (linesIn text)).length = 2 * (5 + p.classes.length) ∧
    ∀ t name, (Builtin.all.map (·.name) ++ p.classes.map (·.name))[t]? = some name →
      ∃ c ∈ s.classes.toList, c.tag = t ∧ c.name = name ∧ Tabled s.classes (linesIn text) c := by
  obtain ⟨laid,image,layout,assemble,rfl⟩ := Session.assemble_of_compile run
  obtain ⟨ready,same⟩ := Session.ready_of_layout layout
  have assembled := assembled_of_run (rawZero_of_declared same) assemble
  have sound := assembled.sound (Session.sound_of_layout layout)
  have names := fun c member => (named.entries same c member).1
  have legible := (assembled.legible named ready same sound).1
  have prototypes := prototypes_of_assemble ready (ClassTable.rawDefault_of_declared same)
    (Session.based_of_layout layout) assemble
  have labels := classNames_of_assemble (rawZero_of_declared same) assemble
  have classNames := assembled.wordsAt_classNames sound ready names legible
  have classObjects := assembled.wordsAt_classObjects sound ready names legible prototypes
  have order : laid.classes.toList.map (·.name) =
      Builtin.all.map (·.name) ++ p.classes.map (·.name) := by
    rw [← p.names_of_declared,← same,List.map_map]
    rfl
  have size : laid.classes.toList.length = 5 + p.classes.length := by
    have count := congrArg List.length order
    rwa [List.length_map,List.length_append,List.length_map,List.length_map] at count
  rw [linesIn_joined image.lines_ne_nil legible,Session.classes_of_compile layout run]
  refine ⟨?_,?_,fun t name at_t => ?_⟩
  · rw [classNames,← labels.length_eq,size]
  · rw [classObjects,List.length_flatMap]
    simp [size,Nat.mul_comm]
  rw [← order,List.getElem?_map] at at_t
  obtain ⟨c,at_c,rfl⟩ := Option.map_eq_some_iff.mp at_t
  have member := List.mem_of_getElem? at_c
  obtain rfl : c.tag = t := ready.tag (by rwa [← Array.getElem?_toList])
  refine ⟨c,member,rfl,rfl,?_⟩
  obtain ⟨even,odd⟩ := getElem?_pairs (fun c : ClassEntry => c.name ++ "_protObj")
    (fun c => c.name ++ "_init") laid.classes.toList c.tag
  rw [at_c] at even odd
  obtain ⟨slots,object⟩ := assembled.wordsAt_prototype sound ready names legible prototypes member
  obtain ⟨label,at_label,length,entry⟩ : ∃ label, image.classNames[c.tag]? = some label ∧
      ∃ length, .string label (Bytes.ofText c.name) length ∈ s.supply.literals.entries := by
    obtain ⟨inside,here⟩ := List.getElem?_eq_some_iff.mp at_c
    have bound : c.tag < image.classNames.length := labels.length_eq ▸ inside
    have entry := labels.get inside bound
    simp only [List.get_eq_getElem,here] at entry
    exact ⟨_,List.getElem?_eq_getElem bound,entry⟩
  obtain ⟨bytes,rest,below⟩ := assembled.linesBelow_string sound ready names legible entry
  rw [Literal.escape_identifier (names c member)] at below
  exact {
    name := ⟨label,bytes,length,rest,by rw [classNames,at_label],below⟩
    prototype := by rw [classObjects,even]; rfl
    initializer := by rw [classObjects,odd]; rfl
    object := ⟨_,slots,object⟩
    dispatch := assembled.wordsAt_dispatch sound ready names legible member }

theorem ticking_tabled : ∃ text s, Session.compile ticking {} = .ok text s ∧
    (wordsAt "class_nameTab" (linesIn text)).length = 7 ∧
    (wordsAt "class_objTab" (linesIn text)).length = 14 ∧
    ∃ c ∈ s.classes.toList, c.tag = 6 ∧ c.name = "Main" ∧ Tabled s.classes (linesIn text) c := by
  obtain ⟨text,s,run⟩ := ticking_compiles
  obtain ⟨classNames,classObjects,each⟩ := tag_tables_agree ⟨by decide,by decide⟩ run
  exact ⟨text,s,run,classNames,classObjects,each 6 "Main" rfl⟩

end CoolBackend
