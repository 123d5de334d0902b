import CoolBackend.Text.Bytes
import CoolBackend.Text.Integer
import CoolBackend.Text.Split

/-!
Where a database is kept. Its name is a path, which settings can follow behind a question mark, or a
`file:` URI. A question mark at the very start belongs to the path. Settings are taken to leave the
file alone, apart from the one that asks for a database in memory.
-/
namespace CoolBackend

inductive DatabaseHome where
  | file (path : String)
  | memory
  | refused
  deriving DecidableEq

namespace DatabaseHome

/-- A database without a name is temporary. -/
def ofPath (path : String) : DatabaseHome :=
  if path = "" || path = ":memory:" then memory else file path

def hexValue? (c : Char) : Option Nat := (Text.digitValue? c).filter (· < 16)

/-- The bytes that a URI names. An escaped zero ends them; a percent sign that escapes nothing
stands for itself. -/
def unescape : List Char → Bytes
  | [] => []
  | '%' :: a :: b :: rest =>
    match hexValue? a, hexValue? b with
    | some 0, some 0 => []
    | some high, some low => UInt8.ofNat (16 * high + low) :: unescape rest
    | _, _ => 37 :: unescape (a :: b :: rest)
  | c :: rest => String.utf8EncodeChar c ++ unescape rest

/-- A URI behind its scheme, without the authority, which can only be this machine. -/
def dropAuthority? : List Char → Option (List Char)
  | '/' :: '/' :: rest =>
    let authority := rest.takeWhile (· ≠ '/')
    if authority = [] || authority = "localhost".toList then some (rest.drop authority.length)
    else none
  | rest => some rest

def ofUri (uri : List Char) : DatabaseHome :=
  match dropAuthority? uri with
  | none => refused
  | some rest =>
    let text := rest.takeWhile (· ≠ '#')
    let path := text.takeWhile (· ≠ '?')
    if (Text.splitAt '&' (text.drop (path.length + 1))).contains "mode=memory".toList then memory
    else match Bytes.toText? (unescape path) with
      | some path => ofPath path
      | none => refused

def ofName (name : String) : DatabaseHome :=
  let chars := name.toList
  if "file:".toList.isPrefixOf chars then ofUri (chars.drop 5)
  else if chars.head? = some '?' then ofPath name
  else ofPath (String.ofList (chars.takeWhile (· ≠ '?')))

end DatabaseHome

end CoolBackend
