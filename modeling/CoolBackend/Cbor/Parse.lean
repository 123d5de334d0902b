import CoolBackend.Cbor.Item

/-!
One item from a byte string that holds nothing else. Containers that are not complete are kept in a
list, innermost first, so that the depth of the input is bounded by `maxNesting` alone.
-/
namespace CoolBackend.Cbor

/-- Why bytes were refused: no item can be read from them, or an item is of the wrong kind for its
place. -/
inductive Fault where
  | unexpectedEnd
  | trailingBytes
  | reservedHead
  | strayBreak
  | badChunk
  | oddMap
  | tooDeep
  | tooMany
  | badTag
  | badKey
  | badText
  | outOfRange
  | wrongKind
  deriving DecidableEq

def Fault.message : Fault → String
  | unexpectedEnd => "unexpected end of data"
  | trailingBytes => "bytes after the item"
  | reservedHead => "reserved head"
  | strayBreak => "unexpected break"
  | badChunk => "wrong chunk in an indefinite string"
  | oddMap => "key without value"
  | tooDeep => "items nest too deeply"
  | tooMany => "too many elements"
  | badTag => "tag on an item of the wrong type"
  | badKey => "wrong kind of map key"
  | badText => "invalid text"
  | outOfRange => "number out of range"
  | wrongKind => "item of the wrong kind"

/-- Levels that arrays, maps and tags on tags may nest. -/
def maxNesting : Nat := 65535

/-- Elements of an array, or pairs of a map. -/
def maxElements : Nat := 131072

inductive Argument where
  | definite (n : Nat)
  | indefinite

inductive Head where
  | uint (n : Nat)
  | negative (n : Nat)
  | bytes (length : Argument)
  | text (length : Argument)
  | array (length : Argument)
  | map (length : Argument)
  | tag (number : Nat)
  | simple (n : Nat)
  | float (content : Bytes)
  | stop

/-- The next `n` bytes, put before the reverse of `done`, and what follows them. -/
def takeBytes : Nat → Bytes → Bytes → Except Fault (Bytes × Bytes)
  | 0, done, rest => .ok (done.reverse, rest)
  | _ + 1, _, [] => .error .unexpectedEnd
  | n + 1, done, b :: rest => takeBytes n (b :: done) rest

def ofBigEndian (bytes : Bytes) : Nat := bytes.foldl (fun n b => 256 * n + b.toNat) 0

def readArgument (info : UInt8) (rest : Bytes) : Except Fault (Argument × Bytes) :=
  let wide (width : Nat) : Except Fault (Argument × Bytes) := do
    let (bytes, rest) ← takeBytes width [] rest
    return (.definite (ofBigEndian bytes), rest)
  if info < 24 then .ok (.definite info.toNat, rest)
  else if info = 24 then wide 1
  else if info = 25 then wide 2
  else if info = 26 then wide 4
  else if info = 27 then wide 8
  else if info = 31 then .ok (.indefinite, rest)
  else .error .reservedHead

/-- The head of a major type. Simple values below 32 have only the short form. -/
def Head.of (major info : UInt8) : Argument → Except Fault Head
  | .definite n =>
    if major = 0 then .ok (.uint n)
    else if major = 1 then .ok (.negative n)
    else if major = 2 then .ok (.bytes (.definite n))
    else if major = 3 then .ok (.text (.definite n))
    else if major = 4 then .ok (.array (.definite n))
    else if major = 5 then .ok (.map (.definite n))
    else if major = 6 then .ok (.tag n)
    else if info = 24 then (if n < 32 then .error .reservedHead else .ok (.simple n))
    else if info = 25 then .ok (.float (bigEndian 2 n))
    else if info = 26 then .ok (.float (bigEndian 4 n))
    else if info = 27 then .ok (.float (bigEndian 8 n))
    else .ok (.simple n)
  | .indefinite =>
    if major = 2 then .ok (.bytes .indefinite)
    else if major = 3 then .ok (.text .indefinite)
    else if major = 4 then .ok (.array .indefinite)
    else if major = 5 then .ok (.map .indefinite)
    else if major = 7 then .ok .stop
    else .error .reservedHead

def readHead : Bytes → Except Fault (Head × Bytes)
  | [] => .error .unexpectedEnd
  | b :: rest => do
    let (argument, rest) ← readArgument (b &&& 31) rest
    return (← Head.of (b >>> 5) (b &&& 31) argument, rest)

/-- What is still open around the next item. `left` counts the items that a container of known
length still needs; elements, keys with values, and chunks are kept in reverse. -/
inductive Frame where
  | bytes (chunks : List Bytes)
  | text (chunks : List Bytes)
  | array (left : Option Nat) (count : Nat) (done : List Item)
  | map (left : Option Nat) (count : Nat) (done : List Item)
  | tag (number : Nat)

/-- The open containers, innermost first, each with the number of levels up to it. -/
abbrev Stack := List (Frame × Nat)

def level : Stack → Nat
  | [] => 0
  | (_, n) :: _ => n

def pairUp : List Item → List (Item × Item) → Except Fault (List (Item × Item))
  | [], entries => .ok entries
  | value :: key :: rest, entries => pairUp rest ((key, value) :: entries)
  | [_], _ => .error .oddMap

inductive Progress where
  | more (stack : Stack)
  | done (item : Item)

/-- Puts a complete item into the innermost open container, and closes those that it completes. -/
def deliver (item : Item) : Stack → Except Fault Progress
  | [] => .ok (.done item)
  | (.tag number, _) :: rest => deliver (.tag number item) rest
  | (.array left count items, n) :: rest =>
    match left with
    | some 0 | some 1 => deliver (.array (item :: items).reverse) rest
    | some (k + 2) => .ok (.more ((.array (some (k + 1)) (count + 1) (item :: items), n) :: rest))
    | none =>
      if maxElements < count + 1 then .error .tooMany
      else .ok (.more ((.array none (count + 1) (item :: items), n) :: rest))
  | (.map left count items, n) :: rest =>
    match left with
    | some 0 | some 1 => do
      let entries ← pairUp (item :: items) []
      deliver (.map entries) rest
    | some (k + 2) => .ok (.more ((.map (some (k + 1)) (count + 1) (item :: items), n) :: rest))
    | none =>
      if 2 * maxElements < count + 1 then .error .tooMany
      else .ok (.more ((.map none (count + 1) (item :: items), n) :: rest))
  | (.bytes _, _) :: _ | (.text _, _) :: _ => .error .badChunk

def close : Stack → Except Fault Progress
  | (.bytes chunks, _) :: rest => deliver (.bytes chunks.reverse.flatten) rest
  | (.text chunks, _) :: rest => deliver (.text chunks.reverse) rest
  | (.array none _ items, _) :: rest => deliver (.array items.reverse) rest
  | (.map none _ items, _) :: rest => do
    let entries ← pairUp items []
    deliver (.map entries) rest
  | _ => .error .strayBreak

/-- Whether a chunk is awaited, so that only a string of known length may follow. -/
def awaitsChunk : Stack → Bool
  | (.bytes _, _) :: _ | (.text _, _) :: _ => true
  | _ => false

/-- Opens a container one level further in; one without elements is complete at once. -/
def enter (length : Argument) (empty : Item) (frame : Option Nat → Frame) (stack : Stack) :
    Except Fault Progress :=
  if awaitsChunk stack then .error .badChunk
  else if maxNesting < level stack + 1 then .error .tooDeep
  else match length with
    | .indefinite => .ok (.more ((frame none, level stack + 1) :: stack))
    | .definite 0 => deliver empty stack
    | .definite (n + 1) =>
      if maxElements < n + 1 then .error .tooMany
      else .ok (.more ((frame (some (n + 1)), level stack + 1) :: stack))

/-- Opens a tag. Only a tag on a tag goes a level further in. -/
def enterTag (number : Nat) (stack : Stack) : Except Fault Progress :=
  match stack with
  | (.tag outer, n) :: rest =>
    if maxNesting < n + 1 then .error .tooDeep
    else .ok (.more ((.tag number, n + 1) :: (.tag outer, n) :: rest))
  | stack =>
    if awaitsChunk stack then .error .badChunk
    else .ok (.more ((.tag number, level stack) :: stack))

def enterString (frame : Frame) (stack : Stack) : Except Fault Progress :=
  if awaitsChunk stack then .error .badChunk else .ok (.more ((frame, level stack) :: stack))

def deliverBytes (content : Bytes) : Stack → Except Fault Progress
  | (.bytes chunks, n) :: rest => .ok (.more ((.bytes (content :: chunks), n) :: rest))
  | stack => deliver (.bytes content) stack

def deliverText (content : Bytes) : Stack → Except Fault Progress
  | (.text chunks, n) :: rest => .ok (.more ((.text (content :: chunks), n) :: rest))
  | stack => deliver (.text [content]) stack

/-- The effect of one head. Strings take their content from the bytes behind it. -/
def step (head : Head) (rest : Bytes) (stack : Stack) : Except Fault (Progress × Bytes) :=
  match head with
  | .uint n => return (← deliver (.uint n) stack, rest)
  | .negative n => return (← deliver (.negative n) stack, rest)
  | .bytes (.definite n) => do
    let (content, rest) ← takeBytes n [] rest
    return (← deliverBytes content stack, rest)
  | .bytes .indefinite => return (← enterString (.bytes []) stack, rest)
  | .text (.definite n) => do
    let (content, rest) ← takeBytes n [] rest
    return (← deliverText content stack, rest)
  | .text .indefinite => return (← enterString (.text []) stack, rest)
  | .array length => return (← enter length (.array []) (.array · 0 []) stack, rest)
  | .map length =>
    return (← enter length (.map []) (fun left => .map (left.map (2 * ·)) 0 []) stack, rest)
  | .tag n => return (← enterTag n stack, rest)
  | .simple n => return (← deliver (.simple n) stack, rest)
  | .float content => return (← deliver (.float content) stack, rest)
  | .stop => return (← close stack, rest)

/-- Reads on until the outermost item is complete. Every round takes a byte at least, so that `fuel`
bytes need no more rounds. -/
def readItem : Nat → Bytes → Stack → Except Fault (Item × Bytes)
  | 0, _, _ => .error .unexpectedEnd
  | fuel + 1, bytes, stack =>
    match readHead bytes with
    | .error e => .error e
    | .ok (head, rest) =>
      match step head rest stack with
      | .error e => .error e
      | .ok (.done item, rest) => .ok (item, rest)
      | .ok (.more stack, rest) => readItem fuel rest stack

def parse (bytes : Bytes) : Except Fault Item := do
  let (item, rest) ← readItem bytes.length bytes []
  if rest.isEmpty then return item else throw .trailingBytes

end CoolBackend.Cbor
