import EventFlow.Number.Binary64
import EventFlow.Text

/-!
The numbers that a value can hold, and how they are read and written.

Numerals that people write may be surrounded by white space, with an optional sign, in the decimal
digits of any script, with single underscores between digits.

Whole numbers and floating point numbers are kept apart, as `1` and `1.0` are written differently.
A floating point number is written with the fewest digits that read back; positional notation is
used while the decimal exponent is at least `-4` and below `16`.
-/

namespace EventFlow

/-! ### Numerals -/

namespace Numeral

open EventFlow.Text

/-- Whole numbers are read and written up to this many digits. -/
def digitLimit : Nat := 4300

/-- The values of a row of digits, where one underscore may stand between two digits. -/
def digitRow? : List Char → Option (List Nat)
  | [] => none
  | [c] => (digitValue? c).map ([·])
  | c :: '_' :: rest => do return (← digitValue? c) :: (← digitRow? rest)
  | c :: rest => do return (← digitValue? c) :: (← digitRow? rest)

def takeSign : List Char → Bool × List Char
  | '-' :: rest => (true, rest)
  | '+' :: rest => (false, rest)
  | cs => (false, cs)

def integer? (s : String) : Option Int := do
  let (negative, cs) := takeSign (trimWhile isMargin s.toList)
  let ds ← digitRow? cs
  if digitLimit < ds.length then none
  else
    let n : Int := natOfDigits ds
    return if negative then -n else n

def optionalRow? : List Char → Option (List Nat)
  | [] => some []
  | cs => digitRow? cs

def power? (cs : List Char) : Option Int := do
  let (negative, cs) := takeSign cs
  let n : Int := natOfDigits (← digitRow? cs)
  return if negative then -n else n

/-- The digits and the power of an unsigned decimal: a whole part and a fraction, one of which
may be empty, and an exponent. -/
def decimal? (cs : List Char) : Option (Nat × Int) := do
  let isMark := fun c : Char => c == 'e' || c == 'E'
  let body := cs.takeWhile (! isMark ·)
  let power ← match cs.dropWhile (! isMark ·) with
    | [] => some 0
    | _ :: rest => power? rest
  let whole ← optionalRow? (body.takeWhile (· != '.'))
  let fraction ← match body.dropWhile (· != '.') with
    | [] => some []
    | _ :: rest => optionalRow? rest
  if whole.isEmpty && fraction.isEmpty then none
  else return (natOfDigits (whole ++ fraction), power - fraction.length)

/-- The number nearest to the decimal that a text writes; the words for the numbers that are not
finite count in any case. -/
def float? (s : String) : Option Binary64 := do
  let (negative, cs) := takeSign (trimWhile isMargin s.toList)
  let word := String.ofList (cs.map Char.toLower)
  if word = "inf" ∨ word = "infinity" then return .infinite negative
  else if word = "nan" then return .nan .numeral
  else
    let (digits, power) ← decimal? cs
    return .ofDecimal negative digits power

end Numeral

/-! ### Numbers -/

inductive Number where
  | int (n : Int)
  | float (x : Binary64)
deriving DecidableEq, Repr

namespace Number

structure Words where
  nan : String
  infinity : String

def writeDecimal (digits : List Char) (power : Int) : List Char :=
  let point : Int := digits.length + power
  if -4 < point ∧ point ≤ 16 then
    if point ≤ 0 then
      "0.".toList ++ List.replicate (-point).toNat '0' ++ digits
    else if power ≥ 0 then
      digits ++ List.replicate power.toNat '0' ++ ".0".toList
    else
      digits.take point.toNat ++ '.' :: digits.drop point.toNat
  else
    let exponent := point - 1
    let mark := if exponent < 0 then "e-" else "e+"
    let places := Text.natDigits exponent.natAbs
    let padded := if places.length < 2 then '0' :: places else places
    let mantissa := match digits with
      | [d] => [d]
      | d :: rest => d :: '.' :: rest
      | [] => []
    mantissa ++ mark.toList ++ padded

def writeFloat (words : Words) : Binary64 → List Char
  | .nan _ => words.nan.toList
  | .infinite negative => (if negative then ['-'] else []) ++ words.infinity.toList
  | .finite negative m e =>
    let sign := if negative then ['-'] else []
    if m = 0 then sign ++ "0.0".toList
    else
      let shortest := Shortest.decimal m e
      sign ++ writeDecimal (Text.natDigits shortest.1) shortest.2

def write (words : Words) : Number → List Char
  | .int n => Text.intDigits n
  | .float x => writeFloat words x

/-- Whole numbers beyond the digit limit have no written form. -/
def isWritable : Number → Bool
  | .int n => n.natAbs < Nat.pow 10 Numeral.digitLimit
  | .float _ => true

def isNonzero : Number → Bool
  | .int n => n != 0
  | .float x => x.isNonzero

def same : Number → Number → Bool
  | .int m, .int n => m == n
  | .int m, .float y => y.sameInteger m
  | .float x, .int n => x.sameInteger n
  | .float x, .float y => x.sameNumber y

end Number

end EventFlow
