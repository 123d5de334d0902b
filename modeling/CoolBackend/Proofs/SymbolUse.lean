import CoolBackend.Proofs.Assembling

/-!
A line refers only to what is known if all symbols among its operands are known. If these have no
white space, neither has any other operand, so that the line reads back as itself. The lines of
constants, tables and routines refer to the classes, constants and codes that they are made of.
-/
namespace CoolBackend

namespace Assembly

theorem mem_number {n : Int} {c : Char} (member : c ∈ n.repr.toList) :
    c.isDigit ∨ c = '-' := by
  cases n with
  | ofNat k => exact .inl (isDigit_of_mem_toString member)
  | negSucc k =>
    have text : (Int.negSucc k).repr = "-" ++ toString (k + 1) := rfl
    rw [text,String.toList_append] at member
    rcases List.mem_append.mp member with sign | digit
    · exact .inr (by simpa using sign)
    · exact .inl (isDigit_of_mem_toString digit)

theorem plain_number (n : Int) : Plain n.repr := by
  intro c member
  rcases mem_number member with digit | rfl
  · refine ⟨?_,?_,?_⟩
    all_goals
      rintro rfl
      revert digit
      decide
  · decide

theorem isDigit_iff {c : Char} : c.isDigit ↔ 48 ≤ c.toNat ∧ c.toNat ≤ 57 := by
  simp only [Char.isDigit,Bool.and_eq_true,decide_eq_true_eq,UInt32.le_iff_toNat_le]
  rfl

theorem isAlpha_iff {c : Char} :
    c.isAlpha ↔ 65 ≤ c.toNat ∧ c.toNat ≤ 90 ∨ 97 ≤ c.toNat ∧ c.toNat ≤ 122 := by
  have letter : c.isAlpha = (decide ('A'.val ≤ c.val ∧ c.val ≤ 'Z'.val) ||
      decide ('a'.val ≤ c.val) && decide (c.val ≤ 'z'.val)) := rfl
  simp only [letter,Bool.or_eq_true,Bool.and_eq_true,decide_eq_true_eq,UInt32.le_iff_toNat_le]
  rfl

theorem not_isAlpha_of_isDigit {c : Char} (digit : c.isDigit) : c.isAlpha = false := by
  rw [isDigit_iff] at digit
  rw [Bool.eq_false_iff,Ne,isAlpha_iff]
  omega

theorem isSymbol_number (n : Int) : isSymbol n.repr = false := by
  rw [isSymbol]
  cases first : n.repr.toList.head? with
  | none => rfl
  | some c =>
    rcases mem_number (List.mem_of_head? first) with digit | rfl
    · have alpha := not_isAlpha_of_isDigit digit
      have other : c ≠ '_' := by
        rintro rfl
        revert digit
        decide
      simp [alpha,other]
    · rfl

theorem plain_register (r : Register) : Plain r.name ∧ isSymbol r.name = false := by
  cases r <;> decide

theorem plain_address (offset : Int) (base : Register) : Plain (Instruction.address offset base) :=
  (((plain_number offset).append (by decide)).append (plain_register base).1).append (by decide)

/-- The operands of an instruction have no white space if its symbol has none. -/
theorem plain_operands {i : Instruction} (symbol : ∀ name ∈ i.symbol?, Plain name) :
    ∀ o ∈ i.operands, Plain o := by
  cases i <;> simp_all [Instruction.operands,Instruction.symbol?,Instruction.target?,plain_register,
    plain_number,plain_address]

/-- The symbol that an instruction uses is the one among its operands. -/
theorem symbol_of_uses {i : Instruction} {name : String}
    (member : name ∈ (Line.instruction i).uses) : name ∈ i.symbol? := by
  rw [Line.uses,symbolsIn] at member
  split at member
  next known =>
    obtain ⟨among,symbol⟩ := List.mem_filter.mp member
    have register (r : Register) : name ≠ r.name := by
      rintro rfl
      rw [(plain_register r).2] at symbol
      cases symbol
    have number (n : Int) : name ≠ n.repr := by
      rintro rfl
      rw [isSymbol_number] at symbol
      cases symbol
    clear member symbol
    -- Among the operands are registers, numbers and at most one symbol.
    cases i <;> simp_all [Instruction.operands,Instruction.symbol?,Instruction.target?,
      Instruction.mnemonic,addressing]
  next => cases member

/-- The symbols that the runtime system expects of a program. -/
def globalSymbols : List String :=
  ["class_nameTab","Main_protObj","Int_protObj","String_protObj","bool_const0","bool_const1",
    "_int_tag","_bool_tag","_string_tag","_MemMgr_INITIALIZER","_MemMgr_COLLECTOR","_MemMgr_TEST",
    "heap_start","Main_init","Int_init","String_init","Bool_init","Main.main"]

/-- A line that refers only to what is known, and declares only what the runtime system expects.
What other directives write must not break the line. -/
def Line.Refers (known : String → Prop) : Line → Prop
  | blank | label _ => True
  | instruction i => isMnemonic i.mnemonic ∧ ∀ name ∈ i.symbol?, known name
  | directive name operands => Plain name ∧
      if name ∈ addressing then ∀ o ∈ operands, known o ∨ ∃ n : Int, o = n.repr
      else if name = ".globl" then ∃ symbol ∈ globalSymbols, operands = [symbol]
      else ∀ o ∈ operands, '\n' ∉ o.toList ∧ '\t' ∉ o.toList

theorem Line.Refers.uses {known : String → Prop} {l : Line} (refers : l.Refers known)
    {name : String} (member : name ∈ l.uses) : known name := by
  cases l with
  | blank | label => cases member
  | instruction i => exact refers.2 name (symbol_of_uses member)
  | directive directive operands =>
    obtain ⟨-,refers⟩ := refers
    rw [Line.uses,symbolsIn] at member
    split at member
    next addressed =>
      rw [if_pos addressed] at refers
      obtain ⟨among,symbol⟩ := List.mem_filter.mp member
      rcases refers name among with here | ⟨n,rfl⟩
      · exact here
      · exact absurd symbol (by rw [isSymbol_number n]; decide)
    next => cases member

theorem plain_globalSymbols : ∀ name ∈ globalSymbols, Plain name := by decide

theorem Line.Refers.legible {known : String → Prop} {l : Line} (refers : l.Refers known)
    (plain : ∀ name, known name → Plain name) (defined : ∀ name ∈ l.label?, Plain name) :
    l.Legible := by
  cases l with
  | blank => trivial
  | label name => exact defined name rfl
  | instruction i =>
    exact ⟨refers.1,plain_operands fun name symbol => plain name (refers.2 name symbol)⟩
  | directive name operands =>
    obtain ⟨word,refers⟩ := refers
    refine ⟨word,?_⟩
    split at refers
    next addressed =>
      have each : ∀ o ∈ operands, Plain o := by
        intro o member
        rcases refers o member with here | ⟨n,rfl⟩
        · exact plain o here
        · exact plain_number n
      exact ⟨fun o member => ⟨(each o member).newline,(each o member).tab⟩,fun _ => each⟩
    next other =>
      refine ⟨?_,fun addressed => absurd addressed other⟩
      split at refers
      next =>
        obtain ⟨symbol,among,rfl⟩ := refers
        have word := plain_globalSymbols symbol among
        exact List.forall_mem_singleton.mpr ⟨word.newline,word.tab⟩
      next => exact refers

def Referring (known : String → Prop) (lines : List Line) : Prop := ∀ l ∈ lines, l.Refers known

section Referring

variable {known : String → Prop} {lines rest : List Line}

@[simp] theorem referring_nil : Referring known [] := List.forall_mem_nil _

@[simp] theorem referring_append :
    Referring known (lines ++ rest) ↔ Referring known lines ∧ Referring known rest :=
  List.forall_mem_append

@[simp] theorem referring_cons {l : Line} :
    Referring known (l :: rest) ↔ l.Refers known ∧ Referring known rest := List.forall_mem_cons

@[simp] theorem referring_block : Referring known (block lines) ↔ Referring known lines := by
  by_cases empty : lines = []
  · subst empty
    simp [block,Line.Refers]
  · rw [block_eq empty]

theorem referring_flatMap {α : Type} {xs : List α} {lines : α → List Line} :
    Referring known (xs.flatMap lines) ↔ ∀ x ∈ xs, Referring known (lines x) := by
  induction xs with
  | nil => simp
  | cons x rest ih => simp [ih]

theorem referring_spaced {listings : List (List Line)}
    (each : ∀ lines ∈ listings, Referring known lines) : Referring known (spaced listings) := by
  induction listings with
  | nil => exact referring_nil
  | cons lines rest ih =>
    obtain ⟨here,each⟩ := List.forall_mem_cons.mp each
    by_cases last : rest = []
    · subst last
      simpa using here
    · rw [spaced_cons last,referring_append,referring_cons]
      exact ⟨here,trivial,ih each⟩

@[simp] theorem refers_word {operand : String} : (Line.word operand).Refers known ↔
    known operand ∨ ∃ n : Int, operand = n.repr := by
  have addressed : ".word" ∈ addressing := by decide
  have plain : Plain ".word" := by decide
  simp [Line.word,Line.Refers,addressed,plain]

theorem refers_other {name : String} {operands : List String} (plain : Plain name)
    (other : name ∉ ".globl" :: addressing)
    (unbroken : ∀ o ∈ operands, '\n' ∉ o.toList ∧ '\t' ∉ o.toList) :
    (Line.directive name operands).Refers known := by
  obtain ⟨silent,other⟩ := not_or.mp (mt List.mem_cons.mpr other)
  rw [Line.Refers,if_neg other,if_neg silent]
  exact ⟨plain,unbroken⟩

@[simp] theorem refers_label {name : String} : (Line.label name).Refers known := trivial

theorem Instruction.Fetches.mnemonic {i : Instruction} (fetches : i.Fetches known) :
    isMnemonic i.mnemonic := by
  cases i with
  | compute | branch => exact fetches
  | _ =>
    simp only [Instruction.mnemonic]
    decide

theorem Instruction.Fetches.refers {i : Instruction} (fetches : i.Fetches known)
    (leads : ∀ name ∈ i.target?, known name) : (Line.instruction i).Refers known := by
  refine ⟨fetches.mnemonic,fun name symbol => ?_⟩
  cases i with
  | la | jal =>
    cases symbol
    exact fetches
  | _ => exact leads name symbol

end Referring

end Assembly

open Assembly

theorem Literal.escapeByte_unbroken (b : UInt8) : ∀ c ∈ escapeByte b, c ≠ '\n' ∧ c ≠ '\t' := by
  have octal (n : UInt8) : octalDigit n ≠ '\n' ∧ octalDigit n ≠ '\t' := by
    have all : ∀ k < 8, Char.ofNat (48 + k) ≠ '\n' ∧ Char.ofNat (48 + k) ≠ '\t' := by decide
    exact all (n.toNat % 8) (Nat.mod_lt _ (by decide))
  have printed : ∀ k < 127, 32 ≤ k → Char.ofNat k ≠ '\n' ∧ Char.ofNat k ≠ '\t' := by decide
  unfold escapeByte
  split
  · simp
  · split
    · simp
    · split
      · simp
      · split
        · simp
        · split
          · simp [octal]
          next printable =>
            simp only [Bool.or_eq_true,decide_eq_true_eq,not_or,UInt8.lt_iff_toNat_lt] at printable
            have low : ¬b.toNat < 32 := printable.1
            have high : ¬126 < b.toNat := printable.2
            exact List.forall_mem_singleton.mpr (printed b.toNat (by omega) (by omega))

theorem Literal.escape_unbroken (bytes : Bytes) :
    '\n' ∉ ("\"" ++ escape bytes ++ "\"").toList ∧
      '\t' ∉ ("\"" ++ escape bytes ++ "\"").toList := by
  have inner (c : Char) (bad : c = '\n' ∨ c = '\t') : c ∉ bytes.flatMap escapeByte := by
    intro member
    obtain ⟨b,-,here⟩ := List.mem_flatMap.mp member
    have fine := escapeByte_unbroken b c here
    rcases bad with rfl | rfl
    · exact fine.1 rfl
    · exact fine.2 rfl
  simp only [escape,String.toList_append,String.toList_ofList,List.mem_append,not_or]
  exact ⟨⟨⟨by decide,inner _ (.inl rfl)⟩,by decide⟩,⟨by decide,inner _ (.inr rfl)⟩,by decide⟩

section Lines

variable {known : String → Prop}

theorem referring_text {length text : String} (refers : known length)
    (unbroken : '\n' ∉ ("\"" ++ text ++ "\"").toList ∧ '\t' ∉ ("\"" ++ text ++ "\"").toList) :
    Referring known (textLines length text) := by
  simp only [textLines,referring_cons,refers_word,referring_nil,and_true]
  exact ⟨.inl refers,refers_other (by decide) (by decide) (List.forall_mem_singleton.mpr unbroken),
    refers_other (by decide) (by decide) (by decide)⟩

theorem referring_object {label table : String} {tag : Nat} {size : Int} {slots : List Line}
    (refers : known table) (rest : Referring known slots) :
    Referring known (objectLines label tag size table slots) := by
  have number (n : Int) : ∃ m : Int, toString n = m.repr := ⟨n,rfl⟩
  simp only [objectLines,List.cons_append,List.nil_append,referring_cons,refers_word,refers_label,
    true_and]
  exact ⟨.inr ⟨-1,rfl⟩,.inr (number _),.inr (number _),.inl refers,rest⟩

theorem Literal.referring {l : Literal}
    (tables : known "Int_dispTab" ∧ known "String_dispTab" ∧ known "Bool_dispTab")
    (length : ∀ label value length, l = .string label value length → known length) :
    Referring known l.lines := by
  cases l with
  | int label value =>
    exact referring_object tables.1 (List.forall_mem_singleton.mpr (refers_word.mpr (.inr ⟨_,rfl⟩)))
  | string label value size =>
    exact referring_object tables.2.1 (referring_text (length _ _ _ rfl) (escape_unbroken value))
  | bool label value =>
    exact referring_object tables.2.2
      (List.forall_mem_singleton.mpr (refers_word.mpr (.inr ⟨_,rfl⟩)))

theorem PrototypeSlot.Holds.referring {classes : ClassTable} {pool : LiteralPool}
    {slot : PrototypeSlot} (holds : slot.Holds classes pool)
    (wider : ∀ name, Known classes pool name → known name) : Referring known slot.lines := by
  cases slot with
  | word value =>
    refine List.forall_mem_singleton.mpr (refers_word.mpr ?_)
    rcases holds with here | rfl
    · exact .inl (wider value here)
    · exact .inr ⟨0,rfl⟩
  | emptyString length => exact referring_text (wider length holds) (by decide)

theorem Prototype.referring {p : Prototype} (table : known (p.className ++ "_dispTab"))
    (slots : ∀ slot ∈ p.slots, Referring known slot.lines) : Referring known p.lines :=
  referring_object table (referring_flatMap.mpr slots)

theorem DispatchTable.referring {t : DispatchTable} (labels : ∀ label ∈ t.labels, known label) :
    Referring known t.lines := by
  rw [DispatchTable.lines,referring_append,referring_block]
  exact ⟨List.forall_mem_singleton.mpr trivial,
    List.forall_mem_map.mpr fun label member => refers_word.mpr (.inl (labels label member))⟩

theorem referring_globals {names : List String} (among : ∀ name ∈ names, name ∈ globalSymbols) :
    Referring known (Image.globals names) := by
  refine List.forall_mem_map.mpr fun name member => ?_
  have other : ".globl" ∉ addressing := by decide
  rw [Line.Refers,if_neg other,if_pos rfl]
  exact ⟨by decide,name,among name member,rfl⟩

/-- The data of an image refers to what its parts refer to. -/
theorem Image.referring_dataLines {image : Image}
    (constants : known "Int_dispTab" ∧ known "String_dispTab" ∧ known "Bool_dispTab")
    (lengths : ∀ label value length, .string label value length ∈ image.literals → known length)
    (names : ∀ label ∈ image.classNames, known label)
    (objects : ∀ p ∈ image.prototypes, known (p.className ++ "_protObj") ∧
      known (p.className ++ "_init") ∧ known (p.className ++ "_dispTab"))
    (slots : ∀ p ∈ image.prototypes, ∀ slot ∈ p.slots, Referring known slot.lines)
    (entries : ∀ t ∈ image.dispatchTables, ∀ label ∈ t.labels, known label) :
    Referring known image.dataLines := by
  have literals : Referring known (image.literals.flatMap Literal.lines) := by
    refine referring_flatMap.mpr fun l member => Literal.referring constants ?_
    rintro label value length rfl
    exact lengths label value length member
  have bools : Referring known (Literal.bools.flatMap Literal.lines) := by
    refine referring_flatMap.mpr fun l member => Literal.referring constants ?_
    rintro label value length rfl
    simp [Literal.bools] at member
  have names : Referring known (image.classNames.map .word) :=
    List.forall_mem_map.mpr fun label member => refers_word.mpr (.inl (names label member))
  have pairs : Referring known (image.prototypes.flatMap classObjects) := by
    refine referring_flatMap.mpr fun p member => ?_
    simp only [classObjects,referring_cons,refers_word,referring_nil,and_true]
    exact ⟨.inl (objects p member).1,.inl (objects p member).2.1⟩
  have prototypes : Referring known (image.prototypes.flatMap Prototype.lines) :=
    referring_flatMap.mpr fun p member =>
      Prototype.referring (objects p member).2.2 (slots p member)
  have dispatch : Referring known (image.dispatchTables.flatMap DispatchTable.lines) :=
    referring_flatMap.mpr fun t member => DispatchTable.referring (entries t member)
  simp only [dataLines,variableLines,referring_append,referring_block,referring_cons,
    referring_nil,refers_label,literals,bools,names,pairs,prototypes,dispatch,true_and,and_true]
  exact ⟨referring_globals (by decide),refers_word.mpr (.inr ⟨0,rfl⟩)⟩

theorem Image.referring_header {options : Options} (init : known options.gc.initializer)
    (collect : known options.gc.collector) : Referring known (header options) := by
  have number (n : Int) : ∃ m : Int, toString n = m.repr := ⟨n,rfl⟩
  have start : Referring known [.directive ".data" [],.directive ".align" ["2"]] := by
    simp only [referring_cons,referring_nil,and_true]
    exact ⟨refers_other (by decide) (by decide) (by decide),
      refers_other (by decide) (by decide) (by decide)⟩
  have names : ∀ name ∈ ["class_nameTab","Main_protObj","Int_protObj","String_protObj",
      "bool_const0","bool_const1","_int_tag","_bool_tag","_string_tag"], name ∈ globalSymbols := by
    decide
  simp only [header,variableLines,referring_append,referring_cons,refers_label,refers_word,
    referring_nil,number,start,referring_globals names,init,collect,true_or,or_true,and_true,
    true_and]
  exact ⟨⟨referring_globals (by decide),referring_globals (by decide)⟩,
    referring_globals (by decide)⟩

theorem referring_code {instructions : List Instruction}
    (each : ∀ i ∈ instructions, i.Fetches known ∧ i.target? = none) :
    Referring known (code instructions) := by
  refine List.forall_mem_map.mpr fun i member => ?_
  obtain ⟨fetches,straight⟩ := each i member
  exact fetches.refers (by simp [straight])

/-- Code that fetches what is known and branches within itself. -/
theorem Code.referring {c : Code} (fetching : Fetching known c.lines) (level : Level c.lines)
    (defined : ∀ name ∈ labelsIn c.lines, known name) : Referring known c.lines := by
  intro l member
  have fetches := fetching l member
  cases l with
  | blank | label => trivial
  | directive => exact absurd fetches id
  | instruction i =>
    exact Instruction.Fetches.refers fetches fun name leads =>
      defined name (level.target_defined member leads)

theorem referring_prologue (frameWords : Nat) :
    Referring known (code (prologueCode frameWords)) := by
  refine referring_code ?_
  unfold prologueCode
  split <;> simp [Instruction.target?]

theorem referring_epilogue (frameWords formals : Nat) :
    Referring known (code (epilogueCode frameWords formals)) := by
  refine referring_code ?_
  unfold epilogueCode
  split <;> simp [Instruction.target?]

theorem InitRoutine.referring {r : InitRoutine}
    (parent : ∀ parent ∈ r.parent, known (parent ++ "_init")) (assign : known "_GenGC_Assign")
    (codes : ∀ c ∈ r.codes, Referring known c.lines) : Referring known r.lines := by
  have call :
      Referring known (code (r.parent.map fun parent => .jal (parent ++ "_init")).toList) := by
    refine referring_code ?_
    cases above : r.parent with
    | none => simp
    | some name => simpa [Instruction.target?] using parent name above
  have stores : Referring known (r.stores.flatMap AttributeStore.lines) := by
    refine referring_flatMap.mpr fun store member => ?_
    have value := codes store.value (List.mem_map_of_mem member)
    rw [AttributeStore.lines,referring_append,referring_block]
    refine ⟨value,referring_code ?_⟩
    unfold Code.storeTo
    split <;> simp [Instruction.target?,assign]
  have self : Referring known (code [.move .a0 .s0]) :=
    referring_code (by simp [Instruction.target?])
  simp only [InitRoutine.lines,referring_append,referring_cons,refers_label,referring_nil,
    referring_prologue,referring_epilogue,call,stores,self,and_self]

theorem MethodRoutine.referring {r : MethodRoutine} (body : Referring known r.body.lines) :
    Referring known r.lines := by
  simp only [MethodRoutine.lines,referring_append,referring_cons,refers_label,referring_nil,
    referring_prologue,referring_epilogue,referring_block,body,and_self]

end Lines

end CoolBackend
