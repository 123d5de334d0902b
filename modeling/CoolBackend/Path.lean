import CoolBackend.Text.Bytes
import CoolBackend.Text.Split

/-!
Paths are sequences of elements between slashes. The functions here look at the text of a path only,
never at files.
-/
namespace CoolBackend.Path

/-- What stands behind the last separator, not counting separators at the end. -/
def lastElement {α : Type} [DecidableEq α] (separator : α) (path : List α) : List α :=
  ((path.reverse.dropWhile (· = separator)).takeWhile (· ≠ separator)).reverse

/-- The last element of a path of bytes; a slash for the root, a dot for the empty path. -/
def baseBytes (path : Bytes) : Bytes :=
  if path.isEmpty then Bytes.ofText "."
  else match lastElement 0x2f path with
    | [] => Bytes.ofText "/"
    | element => element

/-- The last element of a path; a slash for the root, a dot for the empty path. -/
def base (path : String) : String :=
  if path = "" then "."
  else match lastElement '/' path.toList with
    | [] => "/"
    | element => String.ofList element

/-- The elements of a path, an empty one for every slash that no name precedes or follows. -/
def elements (path : String) : List String := (Text.splitAt '/' path.toList).map String.ofList

def isAbsolute (path : String) : Bool := path.toList.head? = some '/'

/-- Puts an element behind those kept so far, of which the last comes first. A step up takes
back the last name; at the top of an absolute path it goes nowhere, and in front of a relative
one it stays. -/
def keep (absolute : Bool) (kept : List String) (element : String) : List String :=
  if element = "" ∨ element = "." then kept
  else if element = ".." then
    match kept with
    | [] => if absolute then [] else [".."]
    | last :: before => if last = ".." then ".." :: kept else before
  else element :: kept

def ofNames (names : List String) : String := "/" ++ "/".intercalate names

/-- The names that are left of a path when its steps up are carried out on the text. -/
def names (path : String) : List String :=
  ((elements path).foldl (keep (isAbsolute path)) []).reverse

/-- The shortest text for the same path: no empty elements, no dots, and steps up only in front. -/
def clean (path : String) : String :=
  if isAbsolute path then ofNames (names path)
  else match names path with
    | [] => "."
    | kept => "/".intercalate kept

/-- Paths one below the other, cleaned. Empty ones do not count. -/
def join (parts : List String) : String :=
  match parts.filter (· ≠ "") with
  | [] => ""
  | parts => clean ("/".intercalate parts)

def withParents (path : String) : List String :=
  (Text.suffixes (names path).reverse).map fun reversed => ofNames reversed.reverse

end CoolBackend.Path
