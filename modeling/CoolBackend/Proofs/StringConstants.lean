import CoolBackend.Proofs.TagTables

/-!
Between its quotes, a string constant is written in printable characters only. The assembler reads
them up to the first quote that no backslash precedes; a backslash stands before a character that
has another meaning, or before the three octal digits of a byte. It gets the bytes of the constant
back, and they fit into the words that the object has.
-/
namespace CoolBackend.Literal

/-- The byte that a character behind a backslash stands for, digits apart. -/
def escaped? : Char → Option UInt8
  | '\\' => some 0x5c
  | '"' => some 0x22
  | 'n' => some 0x0a
  | 't' => some 0x09
  | _ => none

def octalValue? (c : Char) : Option Nat :=
  if '0'.toNat ≤ c.toNat ∧ c.toNat ≤ '7'.toNat then some (c.toNat - '0'.toNat) else none

def octalByte? (high middle low : Char) : Option UInt8 := do
  let value := 64 * (← octalValue? high) + 8 * (← octalValue? middle) + (← octalValue? low)
  if value < 256 then some (UInt8.ofNat value) else none

/-- The bytes of a text as the assembler reads it up to its closing quote, and what stands behind
that quote. -/
def readQuoted : List Char → Option (Bytes × List Char)
  | [] => none
  | '"' :: rest => some ([],rest)
  | ['\\'] => none
  | '\\' :: e :: rest =>
    match escaped? e with
    | some byte => (readQuoted rest).map (Prod.map (byte :: ·) id)
    | none =>
      match rest with
      | middle :: low :: rest => do
        let byte ← octalByte? e middle low
        (readQuoted rest).map (Prod.map (byte :: ·) id)
      | _ => none
  | c :: rest => (readQuoted rest).map (Prod.map (String.utf8EncodeChar c ++ ·) id)

/-- The bytes that an `.asciiz` directive asks for, the closing zero apart. -/
def asciiz? (line : String) : Option Bytes :=
  match "\t.asciiz\t\"".toList.isPrefixOf? line.toList with
  | none => none
  | some text =>
    match readQuoted text with
    | some (bytes,[]) => some bytes
    | _ => none

theorem toNat_octalDigit (n : UInt8) : (octalDigit n).toNat = 48 + n.toNat % 8 := by
  have all : ∀ k < 8, (Char.ofNat (48 + k)).toNat = 48 + k := by decide
  exact all _ (Nat.mod_lt _ (by decide))

theorem octalValue?_octalDigit (n : UInt8) : octalValue? (octalDigit n) = some (n.toNat % 8) := by
  have digit := toNat_octalDigit n
  have inside : '0'.toNat ≤ (octalDigit n).toNat ∧ (octalDigit n).toNat ≤ '7'.toNat := by
    have low : '0'.toNat = 48 := rfl
    have high : '7'.toNat = 55 := rfl
    omega
  rw [octalValue?,if_pos inside,digit]
  exact congrArg some (Nat.add_sub_cancel_left ..)

/-- The three digits of a byte. -/
theorem octalByte?_digits (b : UInt8) :
    octalByte? (octalDigit (b / 64)) (octalDigit (b / 8)) (octalDigit b) = some b := by
  have bound := b.toNat_lt
  have value : 64 * ((b / 64).toNat % 8) + 8 * ((b / 8).toNat % 8) + b.toNat % 8 = b.toNat := by
    rw [UInt8.toNat_div,UInt8.toNat_div]
    change 64 * (b.toNat / 64 % 8) + 8 * (b.toNat / 8 % 8) + b.toNat % 8 = b.toNat
    omega
  simp only [octalByte?,octalValue?_octalDigit,Option.bind_eq_bind,Option.bind_some,value]
  rw [if_pos bound,UInt8.ofNat_toNat]

/-- No digit has a meaning of its own behind a backslash. -/
theorem escaped?_octalDigit (n : UInt8) : escaped? (octalDigit n) = none := by
  have all : ∀ k < 8, escaped? (Char.ofNat (48 + k)) = none := by decide
  exact all _ (Nat.mod_lt _ (by decide))

theorem toNat_ofNat_printable {k : Nat} (low : 32 ≤ k) (high : k ≤ 126) :
    (Char.ofNat k).toNat = k := by
  have all : ∀ k < 127, (Char.ofNat k).toNat = k := by decide
  exact all k (by omega)

/-- The three ways in which a byte is written. -/
inductive Written (b : UInt8) : List Char → Prop where
  | named {e : Char} (printable : 32 ≤ e.toNat ∧ e.toNat ≤ 126) (stands : escaped? e = some b) :
      Written b ['\\',e]
  | octal : Written b ['\\',octalDigit (b / 64),octalDigit (b / 8),octalDigit b]
  | plain {c : Char} (printable : 32 ≤ c.toNat ∧ c.toNat ≤ 126) (same : c.toNat = b.toNat)
      (quote : c ≠ '"') (backslash : c ≠ '\\') : Written b [c]

theorem escapeByte_written (b : UInt8) : Written b (escapeByte b) := by
  unfold escapeByte
  split
  next same => exact .named (by decide) (same ▸ rfl)
  next backslash =>
    split
    next same => exact .named (by decide) (same ▸ rfl)
    next quote =>
      split
      next same => exact .named (by decide) (same ▸ rfl)
      next =>
        split
        next same => exact .named (by decide) (same ▸ rfl)
        next =>
          split
          next => exact .octal
          next range =>
            simp only [Bool.or_eq_true,decide_eq_true_eq,not_or,UInt8.lt_iff_toNat_lt] at range
            have low : ¬b.toNat < 32 := range.1
            have high : ¬126 < b.toNat := range.2
            have same := toNat_ofNat_printable (Nat.not_lt.mp low) (Nat.not_lt.mp high)
            have other (k : UInt8) (different : b ≠ k) : (Char.ofNat b.toNat).toNat ≠ k.toNat :=
              fun equal => different (UInt8.toNat_inj.mp (same ▸ equal))
            refine .plain (by omega) same ?_ ?_
            · exact fun equal => other 0x22 quote (congrArg Char.toNat equal)
            · exact fun equal => other 0x5c backslash (congrArg Char.toNat equal)

theorem Written.printable {b : UInt8} {text : List Char} (written : Written b text) :
    ∀ c ∈ text, 32 ≤ c.toNat ∧ c.toNat ≤ 126 := by
  have digit (n : UInt8) : 32 ≤ (octalDigit n).toNat ∧ (octalDigit n).toNat ≤ 126 := by
    have value := toNat_octalDigit n
    omega
  cases written with
  | named printable => simp [printable]
  | octal => simp [digit]
  | plain printable => simpa using printable

theorem utf8EncodeChar_printable {c : Char} (printable : c.toNat ≤ 126) :
    String.utf8EncodeChar c = [UInt8.ofNat c.toNat] := by
  have small : c.utf8Size = 1 := Char.utf8Size_eq_one_iff.mpr (by
    rw [UInt32.le_iff_toNat_le]
    exact Nat.le_trans printable (by decide))
  rw [String.utf8EncodeChar_eq_singleton small]
  rfl

theorem readQuoted_plain {c : Char} (quote : c ≠ '"') (backslash : c ≠ '\\') (rest : List Char) :
    readQuoted (c :: rest) =
      (readQuoted rest).map (Prod.map (String.utf8EncodeChar c ++ ·) id) := by
  rw [readQuoted]
  · exact quote
  · exact fun equal => absurd equal backslash
  · exact fun _ _ equal => absurd equal backslash

/-- The assembler reads a byte as it was written, whatever follows it. -/
theorem Written.read {b : UInt8} {text : List Char} (written : Written b text)
    (rest : List Char) :
    readQuoted (text ++ rest) = (readQuoted rest).map (Prod.map (b :: ·) id) := by
  cases written with
  | named printable stands =>
    rw [List.cons_append,List.cons_append,List.nil_append,readQuoted.eq_def]
    simp only [stands]
  | octal =>
    simp only [List.cons_append,List.nil_append,readQuoted,escaped?_octalDigit,octalByte?_digits,
      Option.bind_eq_bind,Option.bind_some]
  | plain printable same quote backslash =>
    rw [List.cons_append,List.nil_append,readQuoted_plain quote backslash,
      utf8EncodeChar_printable printable.2,same,UInt8.ofNat_toNat]
    rfl

/-- The first quote that closes a constant is the one behind its last byte. -/
theorem readQuoted_escape (bytes : Bytes) (rest : List Char) :
    readQuoted ((escape bytes).toList ++ '"' :: rest) = some (bytes,rest) := by
  rw [escape,String.toList_ofList]
  induction bytes with
  | nil => simp [readQuoted]
  | cons b bytes ih =>
    rw [List.flatMap_cons,List.append_assoc,(escapeByte_written b).read,ih]
    rfl

theorem escape_printable (bytes : Bytes) :
    ∀ b ∈ Bytes.ofText (escape bytes), 0x20 ≤ b ∧ b ≤ 0x7e := by
  intro b member
  rw [Bytes.ofText_eq,escape,String.toList_ofList] at member
  obtain ⟨c,among,encoded⟩ := List.mem_flatMap.mp member
  obtain ⟨origin,-,here⟩ := List.mem_flatMap.mp among
  have range := (escapeByte_written origin).printable c here
  rw [utf8EncodeChar_printable range.2,List.mem_singleton] at encoded
  have value : b.toNat = c.toNat := by
    rw [encoded,UInt8.toNat_ofNat']
    omega
  simp only [UInt8.le_iff_toNat_le]
  change 32 ≤ b.toNat ∧ b.toNat ≤ 126
  omega

theorem asciiz?_escape (bytes : Bytes) :
    asciiz? ("\t.asciiz\t\"" ++ escape bytes ++ "\"") = some bytes := by
  have line : ("\t.asciiz\t\"" ++ escape bytes ++ "\"").toList =
      "\t.asciiz\t\"".toList ++ ((escape bytes).toList ++ ['"']) := by
    simp only [String.toList_append,List.append_assoc]
    rfl
  have behind : "\t.asciiz\t\"".toList.isPrefixOf?
      ("\t.asciiz\t\"".toList ++ ((escape bytes).toList ++ ['"'])) =
        some ((escape bytes).toList ++ ['"']) := by
    simp [List.isPrefixOf?]
  simp only [asciiz?,line,behind,readQuoted_escape]

/-- The object of a string constant, line by line. -/
theorem render_string (label length : String) (bytes : Bytes) :
    (string label bytes length).toValue.render Assembly.Spim.group =
      .ok ("\n".intercalate [wordOf "-1",label ++ ":",wordOf (toString (Builtin.stringTag : Int)),
        wordOf (toString (string label bytes length).size),wordOf "String_dispTab",wordOf length,
        "\t.asciiz\t\"" ++ escape bytes ++ "\"","\t.align\t2"]) := by
  have text : (Assembly.Line.directive ".asciiz" ["\"" ++ escape bytes ++ "\""]).text =
      "\t.asciiz\t\"" ++ escape bytes ++ "\"" :=
    String.toList_inj.mp (by simp [Assembly.Line.text,Assembly.statement])
  rw [render_toValue,Assembly.joined,← text]
  rfl

/-- Sizes are computed in machine words, which hold the size of every string that memory holds. -/
theorem stringWords_toInt {n : Nat} (fits : n + wordSize < 1 <<< 63) :
    (stringWords (Int64.ofNat n)).toInt = (headerWords + 1 + (n + wordSize) / wordSize : Nat) := by
  have small : n + 4 < 9223372036854775808 := fits
  have one : (1 : Int64) = Int64.ofNat 1 := rfl
  rw [stringWords,← Int64.ofNat_add,← Int64.ofNat_div fits (by decide),one,← Int64.ofNat_add,
    ← Int64.ofNat_add]
  refine Int64.toInt_ofNat_of_lt ?_
  change 3 + 1 + (n + 4) / 4 < 9223372036854775808
  omega

/-- A string constant denotes its bytes: its text has printable characters only, the assembler reads
the bytes back from it and stops at its closing quote, and its object has the header, the pointer to
the length and the least number of words that hold the bytes and a closing zero. -/
theorem string_constants_denote_bytes (label length : String) (bytes : Bytes) :
    (∀ b ∈ Bytes.ofText (escape bytes), 0x20 ≤ b ∧ b ≤ 0x7e) ∧
    (∀ rest, readQuoted ((escape bytes).toList ++ '"' :: rest) = some (bytes,rest)) ∧
    (∃ line, asciiz? line = some bytes ∧
      (string label bytes length).toValue.render Assembly.Spim.group =
        .ok ("\n".intercalate [wordOf "-1",label ++ ":",wordOf (toString (Builtin.stringTag : Int)),
          wordOf (toString (string label bytes length).size),wordOf "String_dispTab",wordOf length,
          line,"\t.align\t2"])) ∧
    (bytes.length + wordSize < 1 <<< 63 →
      ∃ words : Nat, (string label bytes length).size = (headerWords + 1 + words : Nat) ∧
        bytes.length + 1 ≤ words * wordSize ∧
        ∀ fewer, bytes.length + 1 ≤ fewer * wordSize → words ≤ fewer) := by
  refine ⟨escape_printable bytes,readQuoted_escape bytes,?_,fun fits => ?_⟩
  · exact ⟨_,asciiz?_escape bytes,render_string label length bytes⟩
  · refine ⟨(bytes.length + wordSize) / wordSize,stringWords_toInt fits,?_,?_⟩
    · simp only [wordSize]
      omega
    · intro fewer enough
      simp only [wordSize] at enough ⊢
      omega

/-- A bell before a digit, a backslash before a quote, a zero and a byte that is no character. -/
def awkward : Bytes := [0x07,0x31,0x5c,0x22,0x00,0xff]

theorem awkward_denoted :
    escape awkward = "\\0071\\\\\\\"\\000\\377" ∧
    awkward.length + wordSize < 1 <<< 63 ∧
    readQuoted ((escape awkward).toList ++ ['"']) = some (awkward,[]) ∧
    ∃ words : Nat, (string "str_const0" awkward "int_const0").size = (headerWords + 1 + words : Nat) ∧
      awkward.length + 1 ≤ words * wordSize ∧
      ∀ fewer, awkward.length + 1 ≤ fewer * wordSize → words ≤ fewer := by
  obtain ⟨-,read,-,sized⟩ := string_constants_denote_bytes "str_const0" "int_const0" awkward
  exact ⟨by decide,by decide,read [],sized (by decide)⟩

end CoolBackend.Literal
