import CoolBackend.Text.Bytes

/-!
Items as a tree, and their canonical bytes: the shortest head for every number and length, and
definite lengths throughout.
-/
namespace CoolBackend.Cbor

/-- A data item. `negative n` is the number `-1 - n`. The content of a text may have come in several
chunks, each of which has to be valid on its own. A `float` has two, four or eight bytes. -/
inductive Item where
  | uint (n : Nat)
  | negative (n : Nat)
  | bytes (content : Bytes)
  | text (chunks : List Bytes)
  | array (items : List Item)
  | map (entries : List (Item × Item))
  | tag (number : Nat) (content : Item)
  | simple (n : Nat)
  | float (content : Bytes)

namespace Item

def ofInt (n : Int) : Item :=
  match n with
  | .ofNat n => .uint n
  | .negSucc n => .negative n

def ofBytes (content : Bytes) : Item := .text [content]

def ofText (s : String) : Item := .text [Bytes.ofText s]

def ofBool (b : Bool) : Item := .simple (if b then 21 else 20)

def null : Item := .simple 22

def isNull : Item → Bool
  | .simple n => n = 22 || n = 23
  | _ => false

end Item

def bigEndian (width n : Nat) : Bytes :=
  (List.range width).reverse.map fun i => UInt8.ofNat (n >>> (8 * i))

def encodeHead (major n : Nat) : Bytes :=
  let initial (info : Nat) : UInt8 := UInt8.ofNat (32 * major + info)
  if n < 24 then [initial n]
  else if n < 1 <<< 8 then initial 24 :: bigEndian 1 n
  else if n < 1 <<< 16 then initial 25 :: bigEndian 2 n
  else if n < 1 <<< 32 then initial 26 :: bigEndian 4 n
  else initial 27 :: bigEndian 8 n

mutual

def Item.encode : Item → Bytes
  | .uint n => encodeHead 0 n
  | .negative n => encodeHead 1 n
  | .bytes content => encodeHead 2 content.length ++ content
  | .text chunks => encodeHead 3 chunks.flatten.length ++ chunks.flatten
  | .array items => encodeHead 4 items.length ++ encodeItems items
  | .map entries => encodeHead 5 entries.length ++ encodeEntries entries
  | .tag number content => encodeHead 6 number ++ content.encode
  | .simple n => encodeHead 7 n
  | .float content =>
    (if content.length = 2 then 0xf9 else if content.length = 4 then 0xfa else 0xfb) :: content

def encodeItems : List Item → Bytes
  | [] => []
  | item :: rest => item.encode ++ encodeItems rest

def encodeEntries : List (Item × Item) → Bytes
  | [] => []
  | (key, value) :: rest => key.encode ++ value.encode ++ encodeEntries rest

end

end CoolBackend.Cbor
