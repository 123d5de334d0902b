import CoolBackend.Text.Split
import CoolBackend.Toml.Quoted

/-!
Integers are signed words of 64 bits, in base 10, 16, 8 or 2. Floating-point numbers are kept as
text, but must not be too large for a double. Underscores may stand between digits. Moments are
dates, times of day, or both, the latter with or without an offset.
-/
namespace CoolBackend.Toml

def isDigit (c : Char) : Bool := '0' ≤ c && c ≤ '9'

def areGrouped (isDigit : Char → Bool) (cs : List Char) : Bool :=
  (Text.splitAt '_' cs).all fun group => !group.isEmpty && group.all isDigit

def numberIn (base : Nat) (cs : List Char) : Nat :=
  (cs.filterMap hexDigit?).foldl (fun n d => base * n + d) 0

/-- A zero in front is allowed only if it is all. -/
def hasLeadingZero : List Char → Bool
  | '0' :: _ :: _ => true
  | _ => false

def inWord (n : Int) : Bool := Int64.minValue.toInt ≤ n && n ≤ Int64.maxValue.toInt

def integer? (sign : List Char) (digits : List Char) : Option Int :=
  if areGrouped isDigit digits && !hasLeadingZero digits then
    let n : Int := numberIn 10 digits
    let n := if sign = ['-'] then -n else n
    if inWord n then some n else none
  else none

def base? : Char → Option (Nat × (Char → Bool))
  | 'x' => some (16, fun c => (hexDigit? c).isSome)
  | 'o' => some (8, fun c => '0' ≤ c && c ≤ '7')
  | 'b' => some (2, fun c => c = '0' || c = '1')
  | _ => none

/-- Cuts a text in front of the first character of a kind; the second part is without it. -/
def cutAt (isCut : Char → Bool) (cs : List Char) : List Char × Option (List Char) :=
  match cs.dropWhile (!isCut ·) with
  | [] => (cs, none)
  | _ :: rest => (cs.takeWhile (!isCut ·), some rest)

/-- The least number that a double holds only as infinity. -/
def doubleBound : Nat := 1 <<< 1024 - 1 <<< 970

/-- Whether `n * 10 ^ e` is too large for a double. -/
def exceedsDouble (n : Nat) (e : Int) : Bool :=
  let places := (Nat.toDigits 10 n).length + e
  if n = 0 || places < 308 then false
  else if places > 310 then true
  else if 0 ≤ e then doubleBound ≤ n * Nat.pow 10 e.toNat
  else doubleBound * Nat.pow 10 (-e).toNat ≤ n

def exponent? (cs : List Char) : Option Int :=
  let (sign, digits) := match cs with
    | '-' :: digits => (-1, digits)
    | '+' :: digits => (1, digits)
    | digits => ((1 : Int), digits)
  if areGrouped isDigit digits then some (sign * numberIn 10 digits) else none

/-- Whether a text without its sign is a floating-point number: digits, then a fraction, an exponent
or both. -/
def isFloat (cs : List Char) : Bool :=
  let (mantissa, exponent) := cutAt (fun c => c = 'e' || c = 'E') cs
  let (whole, fraction) := cutAt (· = '.') mantissa
  let digits := fraction.getD []
  match exponent.elim (some 0) exponent? with
  | none => false
  | some e =>
    areGrouped isDigit whole && !hasLeadingZero whole && fraction.all (areGrouped isDigit) &&
      !exceedsDouble (numberIn 10 (whole ++ digits)) (e - (digits.filter isDigit).length)

def isFloatChar (c : Char) : Bool := isDigit c || ['_', '.', '+', '-', 'e', 'E'].contains c

def decimal (sign : List Char) (cs : List Char) : Reading Scalar :=
  let digits := cs.takeWhile fun c => isDigit c || c = '_'
  let rest := cs.drop digits.length
  if rest.head?.any ['.', 'e', 'E'].contains then
    let text := cs.takeWhile isFloatChar
    if isFloat text then .ok (.float (String.ofList (sign ++ text)), cs.drop text.length)
    else .error (.badNumber (String.ofList text))
  else match integer? sign digits with
    | some n => .ok (.integer n, rest)
    | none => .error (.badNumber (String.ofList digits))

def basedInteger (base : Nat) (isDigit : Char → Bool) (cs : List Char) : Reading Scalar :=
  let digits := cs.takeWhile fun c => isDigit c || c = '_'
  if areGrouped isDigit digits && inWord (numberIn base digits) then
    .ok (.integer (numberIn base digits), cs.drop digits.length)
  else .error (.badNumber (String.ofList digits))

def twoDigits? : List Char → Option (Nat × List Char)
  | a :: b :: rest =>
    if isDigit a && isDigit b then some (numberIn 10 [a, b], rest) else none
  | _ => none

def skip? (c : Char) : List Char → Option (List Char)
  | d :: rest => if d = c then some rest else none
  | [] => none

def isLeapYear (year : Nat) : Bool := year % 4 = 0 && (year % 100 ≠ 0 || year % 400 = 0)

def daysIn (year month : Nat) : Nat :=
  if month = 2 then if isLeapYear year then 29 else 28
  else if [4, 6, 9, 11].contains month then 30
  else 31

def skipDate? (cs : List Char) : Option (List Char) := do
  let (century, cs) ← twoDigits? cs
  let (year, cs) ← twoDigits? cs
  let (month, cs) ← twoDigits? (← skip? '-' cs)
  let (day, cs) ← twoDigits? (← skip? '-' cs)
  guard (1 ≤ month ∧ month ≤ 12 ∧ 1 ≤ day ∧ day ≤ daysIn (100 * century + year) month)
  return cs

def skipFraction (cs : List Char) : List Char :=
  match cs with
  | '.' :: c :: _ => if isDigit c then (cs.drop 1).dropWhile isDigit else cs
  | _ => cs

/-- What follows a time of day. Its seconds may be left out. -/
def skipTime? (cs : List Char) : Option (List Char) := do
  let (hour, cs) ← twoDigits? cs
  let (minute, cs) ← twoDigits? (← skip? ':' cs)
  guard (hour < 24 ∧ minute < 60)
  match cs with
  | ':' :: cs =>
    let (second, cs) ← twoDigits? cs
    guard (second < 60)
    return skipFraction cs
  | _ => return cs

def isOffset : List Char → Bool
  | [] => true
  | ['Z'] => true
  | ['+', a, b, ':', c, d] | ['-', a, b, ':', c, d] =>
    match twoDigits? [a, b], twoDigits? [c, d] with
    | some (hours, _), some (minutes, _) => hours ≤ 24 && minutes ≤ 60
    | _, _ => false
  | _ => false

def isMoment (cs : List Char) : Bool :=
  match skipDate? cs with
  | some [] => true
  | some ('T' :: rest) => (skipTime? rest).any isOffset
  | some _ => false
  | none => skipTime? cs = some []

def isMomentChar (c : Char) : Bool :=
  isDigit c || ['-', ':', 'T', 't', ' ', '.', 'Z', 'z', '+'].contains c

/-- One spelling for the letters of a moment; a blank may stand between date and time. -/
def momentChar : Char → Char
  | 'z' => 'Z'
  | 't' => 'T'
  | ' ' => 'T'
  | c => c

def moment (cs : List Char) : Reading Scalar :=
  let token := cs.takeWhile isMomentChar
  let text := (token.reverse.dropWhile (· = ' ')).reverse
  if isMoment (text.map momentChar) then
    .ok (.datetime (String.ofList text), cs.drop token.length)
  else .error (.badDatetime (String.ofList text))

def numberOrMoment (cs : List Char) : Reading Scalar :=
  let digits := cs.takeWhile isDigit
  let next := (cs.drop digits.length).head?
  if next.any ['-', ':'].contains then moment cs
  else match cs with
    | '0' :: c :: rest =>
      match base? c with
      | some (base, isDigit) => basedInteger base isDigit rest
      | none => decimal [] cs
    | _ => decimal [] cs

end CoolBackend.Toml
