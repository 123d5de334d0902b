import CoolBackend.Text.Split

/-!
Integers with an optional sign, in base 10, or in base 16, 8 or 2 behind `0x`, `0o` or `0b`; a zero
in front alone means base 8. Underscores may stand between digits and behind the mark of a base. The
digits are taken from left to right, and the first one that makes the number too large for a word of
64 bits decides, whatever follows it.
-/
namespace CoolBackend.Text

inductive IntegerFault where
  | malformed
  | outOfRange
  deriving DecidableEq, Repr

def IntegerFault.message : IntegerFault → String
  | malformed => "parse error"
  | outOfRange => "value out of range"

/-- The value of a digit or letter, letters counting on from ten. -/
def digitValue? (c : Char) : Option Nat :=
  if c.isDigit then some (c.toNat - '0'.toNat)
  else if c.isAlpha then some (c.toLower.toNat - 'a'.toNat + 10)
  else none

/-- The base of digits, the digits behind its mark, and whether it has one of two characters. -/
def baseOf : List Char → Nat × List Char × Bool
  | '0' :: mark :: first :: rest =>
    match mark.toLower with
    | 'x' => (16, first :: rest, true)
    | 'o' => (8, first :: rest, true)
    | 'b' => (2, first :: rest, true)
    | _ => (8, mark :: first :: rest, false)
  | '0' :: rest => (8, rest, false)
  | digits => (10, digits, false)

def maxWord : Nat := 1 <<< 64

def magnitude (base : Nat) : List Char → Nat → Except IntegerFault Nat
  | [], n => .ok n
  | '_' :: rest, n => magnitude base rest n
  | c :: rest, n =>
    match digitValue? c with
    | none => .error .malformed
    | some d =>
      if base ≤ d then .error .malformed
      else if maxWord ≤ base * n + d then .error .outOfRange
      else magnitude base rest (base * n + d)

/-- Whether every underscore has a digit on both sides. The mark of a base counts as a digit. -/
def underscoresBetween (digits : List Char) : Bool :=
  let (_, behind, marked) := baseOf digits
  let parts := splitAt '_' (if marked then '0' :: behind else digits)
  parts.length = 1 || parts.all (!·.isEmpty)

def readNatural (digits : List Char) : Except IntegerFault Nat := do
  if digits.isEmpty then throw .malformed
  let (base, behind, _) := baseOf digits
  let n ← magnitude base behind 0
  if underscoresBetween digits then return n else throw .malformed

def readInteger (text : String) : Except IntegerFault Int := do
  match text.toList with
  | '-' :: digits =>
    let n ← readNatural digits
    if n ≤ 1 <<< 63 then return -n else throw .outOfRange
  | '+' :: digits =>
    let n ← readNatural digits
    if n < 1 <<< 63 then return n else throw .outOfRange
  | digits =>
    let n ← readNatural digits
    if n < 1 <<< 63 then return n else throw .outOfRange

end CoolBackend.Text
