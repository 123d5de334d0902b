import CoolBackend.Toml.Document

/-!
Basic strings stand in double quotes and have escapes; literal strings stand in single quotes and
have none. Between three quotes either kind may hold line breaks and up to two quotes in a row, also
in front of its end.
-/
namespace CoolBackend.Toml

def isBlank (c : Char) : Bool := c = ' ' || c = '\t'

def isNewline (c : Char) : Bool := c = '\n' || c = '\r'

def simpleEscape? : Char → Option Char
  | 'b' => some '\x08'
  | 't' => some '\t'
  | 'n' => some '\n'
  | 'f' => some '\x0c'
  | 'r' => some '\r'
  | 'e' => some '\x1b'
  | '"' => some '"'
  | '\\' => some '\\'
  | _ => none

/-- How many digits follow a letter that introduces the number of a character. -/
def escapeDigits? : Char → Option Nat
  | 'x' => some 2
  | 'u' => some 4
  | 'U' => some 8
  | _ => none

def hexDigit? (c : Char) : Option Nat :=
  if '0' ≤ c ∧ c ≤ '9' then some (c.toNat - '0'.toNat)
  else if 'a' ≤ c ∧ c ≤ 'f' then some (c.toNat - 'a'.toNat + 10)
  else if 'A' ≤ c ∧ c ≤ 'F' then some (c.toNat - 'A'.toNat + 10)
  else none

def hexNumber? (digits : List Char) : Option Nat :=
  digits.foldlM (fun n c => (hexDigit? c).map (16 * n + ·)) 0

def numberedChar? (width : Nat) (digits : List Char) : Option Char :=
  if digits.length = width then
    (hexNumber? digits).bind fun n => if n.isValidChar then some (Char.ofNat n) else none
  else none

def Reading.prepend (cs : List Char) (reading : Reading (List Char)) : Reading (List Char) :=
  reading.map fun (text, rest) => (cs ++ text, rest)

/-- Reads an escape whose backslash is behind us; `next` reads on behind it. -/
def escaped (c : Char) (rest : List Char)
    (next : (r : List Char) → r.length ≤ rest.length → Reading (List Char)) :
    Reading (List Char) :=
  match simpleEscape? c with
  | some d => (next rest (Nat.le_refl _)).prepend [d]
  | none =>
    match (escapeDigits? c).bind fun width =>
      (numberedChar? width (rest.take width)).map fun d => (width, d) with
    | some (width, d) =>
      (next (rest.drop width) (by simp only [List.length_drop]; omega)).prepend [d]
    | none => .error .badEscape

def basicString (cs : List Char) : Reading (List Char) :=
  match cs with
  | [] => .error .unclosedString
  | '"' :: rest => .ok ([], rest)
  | '\\' :: c :: rest => escaped c rest fun r _ => basicString r
  | c :: rest =>
    if isNewline c then .error .unclosedString else (basicString rest).prepend [c]
termination_by cs.length
decreasing_by
  · simp only [List.length_cons]; omega
  · simp only [List.length_cons]; omega

def literalString : List Char → Reading (List Char)
  | [] => .error .unclosedString
  | c :: rest =>
    if c = '\x27' then .ok ([], rest)
    else if isNewline c then .error .unclosedString
    else (literalString rest).prepend [c]

/-- A line break right behind the opening quotes does not count. -/
def dropNewline : List Char → List Char
  | '\n' :: rest => rest
  | '\r' :: '\n' :: rest => rest
  | cs => cs

/-- What closes a string of several lines at this point: some quotes of its own in front of the
closing ones. -/
def closing? (quote : Char) (cs : List Char) : Option (Except Fault (Nat × List Char)) :=
  let run := (cs.takeWhile (· = quote)).length
  if run < 3 then none
  else if run ≤ 5 then some (.ok (run - 3, cs.drop run))
  else some (.error (.unexpected (some quote)))

def literalLines : List Char → Reading (List Char)
  | [] => .error .unclosedString
  | c :: rest =>
    match closing? '\x27' (c :: rest) with
    | some found => found.map fun (own, rest) => (List.replicate own '\x27', rest)
    | none => (literalLines rest).prepend [c]

/-- A backslash at the end of a line joins it with the next text: this is what follows the blank
space, if a line break is in it. -/
def joined? (cs : List Char) : Option (List Char) :=
  match cs.dropWhile isBlank with
  | c :: _ =>
    if isNewline c then some (cs.dropWhile fun c => isBlank c || isNewline c) else none
  | [] => none

theorem joined?_length {cs rest : List Char} (h : joined? cs = some rest) :
    rest.length ≤ cs.length := by
  unfold joined? at h
  split at h
  · split at h
    · cases h
      exact (List.dropWhile_sublist _).length_le
    · contradiction
  · contradiction

def basicLines (cs : List Char) : Reading (List Char) :=
  match cs with
  | [] => .error .unclosedString
  | '\\' :: tail =>
    match _joined : joined? tail with
    | some rest => basicLines rest
    | none =>
      match tail with
      | [] => .error .unclosedString
      | c :: rest => escaped c rest fun r _ => basicLines r
  | c :: rest =>
    match closing? '"' (c :: rest) with
    | some found => found.map fun (own, rest) => (List.replicate own '"', rest)
    | none => (basicLines rest).prepend [c]
termination_by cs.length
decreasing_by
  · have := joined?_length _joined
    simp only [List.length_cons]; omega
  · simp only [List.length_cons]; omega
  · simp only [List.length_cons]; omega

end CoolBackend.Toml
