import CoolBackend.Text.Bytes
import CoolBackend.Toml.Number

/-!
From bytes to statements. Each function reads from the front of a text and gives the text behind
what it read. Fuel bounds the nesting of calls by the length of the text, which every second call
shortens.
-/
namespace CoolBackend.Toml

def isBareChar (c : Char) : Bool := c.isAlphanum || c = '_' || c = '-'

def skipBlanks (cs : List Char) : List Char := cs.dropWhile isBlank

def skipSpace (inComment : Bool) : List Char → List Char
  | [] => []
  | c :: rest =>
    if inComment then skipSpace (!isNewline c) rest
    else if isBlank c || isNewline c then skipSpace false rest
    else if c = '#' then skipSpace true rest
    else c :: rest

def unexpected {α : Type} (cs : List Char) : Except Fault α := .error (.unexpected cs.head?)

def Reading.text (reading : Reading (List Char)) : Reading String :=
  reading.map fun (text, rest) => (String.ofList text, rest)

def keyPart (cs : List Char) : Reading String :=
  match cs with
  | '"' :: rest => (basicString rest).text
  | '\x27' :: rest => (literalString rest).text
  | _ =>
    match cs.takeWhile isBareChar with
    | [] => unexpected cs
    | name => .ok (String.ofList name, cs.drop name.length)

def dottedKey : Nat → List Char → Except Fault (Key × List Char)
  | 0, cs => unexpected cs
  | fuel + 1, cs => do
    let (part, rest) ← keyPart (skipBlanks cs)
    match skipBlanks rest with
    | '.' :: rest =>
      let (parts, rest) ← dottedKey fuel rest
      return (part :: parts, rest)
    | rest => return ([part], rest)

def key (cs : List Char) : Reading Key := dottedKey cs.length cs

def expect (c : Char) : List Char → Except Fault (List Char)
  | d :: rest => if d = c then .ok rest else unexpected (d :: rest)
  | [] => unexpected []

def word (text : List Char) (value : Scalar) (cs : List Char) : Reading Written :=
  if text.isPrefixOf cs then .ok (.scalar value, cs.drop text.length) else unexpected cs

def scalar (reading : Reading Scalar) : Reading Written :=
  reading.map fun (value, rest) => (.scalar value, rest)

def string (reading : Reading (List Char)) : Reading Written :=
  reading.map fun (text, rest) => (.scalar (.string (String.ofList text)), rest)

def signed (sign : Char) (cs : List Char) : Reading Written :=
  match cs with
  | 'i' :: _ => word ['i', 'n', 'f'] (.float (String.ofList [sign, 'i', 'n', 'f'])) cs
  | 'n' :: _ => word ['n', 'a', 'n'] (.float (String.ofList [sign, 'n', 'a', 'n'])) cs
  | c :: _ => if isDigit c then scalar (decimal [sign] cs) else unexpected cs
  | [] => unexpected cs

mutual

def value : Nat → List Char → Reading Written
  | 0, cs => unexpected cs
  | fuel + 1, cs =>
    match cs with
    | [] => unexpected cs
    | '"' :: '"' :: '"' :: rest => string (basicLines (dropNewline rest))
    | '"' :: rest => string (basicString rest)
    | '\x27' :: '\x27' :: '\x27' :: rest => string (literalLines (dropNewline rest))
    | '\x27' :: rest => string (literalString rest)
    | '[' :: rest => (arrayItems fuel rest).map fun (items, rest) => (.array items, rest)
    | '\x7b' :: rest => (inlineEntries fuel rest).map fun (entries, rest) => (.inline entries, rest)
    | 't' :: _ => word ['t', 'r', 'u', 'e'] (.boolean true) cs
    | 'f' :: _ => word ['f', 'a', 'l', 's', 'e'] (.boolean false) cs
    | 'i' :: _ => word ['i', 'n', 'f'] (.float "inf") cs
    | 'n' :: _ => word ['n', 'a', 'n'] (.float "nan") cs
    | '+' :: rest => signed '+' rest
    | '-' :: rest => signed '-' rest
    | c :: _ => if isDigit c then scalar (numberOrMoment cs) else unexpected cs

/-- Reads items up to the closing bracket. A comma may follow the last one. -/
def arrayItems : Nat → List Char → Except Fault (List Written × List Char)
  | 0, cs => unexpected cs
  | fuel + 1, cs =>
    match skipSpace false cs with
    | ']' :: rest => .ok ([], rest)
    | cs => do
      let (item, rest) ← value fuel cs
      match skipSpace false rest with
      | ',' :: rest =>
        let (items, rest) ← arrayItems fuel rest
        return (item :: items, rest)
      | ']' :: rest => return ([item], rest)
      | rest => unexpected rest

def inlineEntries : Nat → List Char → Except Fault (List (Key × Written) × List Char)
  | 0, cs => unexpected cs
  | fuel + 1, cs =>
    match skipSpace false cs with
    | '\x7d' :: rest => .ok ([], rest)
    | cs => do
      let (name, rest) ← key cs
      let (item, rest) ← value fuel (skipBlanks (← expect '=' rest))
      match skipSpace false rest with
      | ',' :: rest =>
        let (entries, rest) ← inlineEntries fuel rest
        return ((name, item) :: entries, rest)
      | '\x7d' :: rest => return ([(name, item)], rest)
      | rest => unexpected rest

end

/-- A statement has to end with its line, a comment aside. -/
def lineEnd (cs : List Char) : Except Fault (List Char) :=
  match skipBlanks cs with
  | [] => .ok []
  | c :: rest => if c = '#' || isNewline c then .ok (c :: rest) else unexpected (c :: rest)

def statement (cs : List Char) : Except Fault (Statement × List Char) := do
  match cs with
  | '[' :: '[' :: rest =>
    let (name, rest) ← key rest
    return (.arrayTable name, ← expect ']' (← expect ']' rest))
  | '[' :: rest =>
    let (name, rest) ← key rest
    return (.table name, ← expect ']' rest)
  | _ =>
    let (name, rest) ← key cs
    let rest := skipBlanks (← expect '=' rest)
    let (item, rest) ← value (2 * rest.length + 2) rest
    return (.assign name item, rest)

def statements : Nat → List Char → Except Fault (List Statement)
  | 0, cs => unexpected cs
  | fuel + 1, cs =>
    match skipSpace false cs with
    | [] => return []
    | cs => do
      let (first, rest) ← statement cs
      return first :: (← statements fuel (← lineEnd rest))

/-- Control characters other than the tab, line feeds, and carriage returns in front of a line feed
have no place in a document. -/
def hasControl : List Char → Bool
  | [] => false
  | '\r' :: rest =>
    match rest with
    | '\n' :: _ => hasControl rest
    | _ => true
  | c :: rest =>
    (c ≠ '\t' && c ≠ '\n' && (c < ' ' || c = '\x7f')) || hasControl rest

def skipMark : Bytes → Bytes
  | 0xef :: 0xbb :: 0xbf :: rest => rest
  | 0xff :: 0xfe :: rest => rest
  | 0xfe :: 0xff :: rest => rest
  | bytes => bytes

def parse (bytes : Bytes) : Except Fault (List Statement) :=
  match Bytes.toText? (skipMark bytes) with
  | none => .error .notText
  | some text =>
    let cs := text.toList
    if hasControl cs then .error .controlCharacter else statements (cs.length + 1) cs

end CoolBackend.Toml
