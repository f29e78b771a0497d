/-!
Double precision numbers as exact data, and the decimals that read back as them.

A finite number is a sign, a whole mantissa and a power of two, so that reading a decimal and
comparing two numbers are computations on whole numbers. Numbers made by this module are in
normal form: the mantissa is below `2 ^ 53` and the exponent is the least one, `-1074`, unless the
mantissa has all its 53 bits.

The numbers that round to `m · 2 ^ e` fill an interval around it. For one, two, … digits the two
neighbours of the number on that decimal grid are tested against the interval. The first grid with
a hit gives the shortest decimal: of two hits the nearer one, and of two equally near the even one.
-/

namespace EventFlow

inductive NanOrigin where
  /-- A value spells it out. -/
  | spelled
  /-- A numeral was read. -/
  | numeral
deriving DecidableEq, Repr

/-- `finite s m e` is `m · 2 ^ e`, with a minus sign if `s` holds. -/
inductive Binary64 where
  | finite (negative : Bool) (mantissa : Nat) (exponent : Int)
  | infinite (negative : Bool)
  | nan (origin : NanOrigin)
deriving DecidableEq, Repr

namespace Binary64

def leastExponent : Int := -1074

def greatestExponent : Int := 971

def zero (negative : Bool) : Binary64 :=
  .finite negative 0 leastExponent

/-- The whole number nearest to `num / den`; a half goes to the even neighbour. -/
def roundQuotient (num den : Nat) : Nat :=
  let q := num / den
  let r := num % den
  if 2 * r < den then q
  else if den < 2 * r then q + 1
  else q + q % 2

def scaleDown (num den : Nat) : Int → Nat × Nat
  | .ofNat k => (num, den * Nat.pow 2 k)
  | .negSucc k => (num * Nat.pow 2 (k + 1), den)

/-- The `k` with `2 ^ k ≤ num / den < 2 ^ (k + 1)`. -/
def highBit (num den : Nat) : Int :=
  let k : Int := (num.log2 : Int) - (den.log2 : Int)
  let scaled := scaleDown num den k
  if scaled.1 < scaled.2 then k - 1 else k

/-- The number nearest to the positive fraction `num / den`; a half goes to the even mantissa. -/
def ofFraction (negative : Bool) (num den : Nat) : Binary64 :=
  let e := max leastExponent (highBit num den - 52)
  let scaled := scaleDown num den e
  let m := roundQuotient scaled.1 scaled.2
  let rounded := if m = Nat.pow 2 53 then (Nat.pow 2 52, e + 1) else (m, e)
  if greatestExponent < rounded.2 then .infinite negative
  else .finite negative rounded.1 rounded.2

/-- The number nearest to `digits · 10 ^ power`. Powers that are far outside the range are
settled without computing them. -/
def ofDecimal (negative : Bool) (digits : Nat) (power : Int) : Binary64 :=
  if digits = 0 then zero negative
  else match power with
    | .ofNat k => if 400 < k then .infinite negative else ofFraction negative (digits * Nat.pow 10 k) 1
    | .negSucc k =>
      if 400 + digits.log2 < k then zero negative
      else ofFraction negative digits (Nat.pow 10 (k + 1))

def isFinite : Binary64 → Bool
  | .finite .. => true
  | _ => false

def isNonzero : Binary64 → Bool
  | .finite _ m _ => m != 0
  | _ => true

def fraction? : Binary64 → Option (Int × Nat)
  | .finite s m e =>
    let magnitude := match e with
      | .ofNat k => (m * Nat.pow 2 k, 1)
      | .negSucc k => (m, Nat.pow 2 (k + 1))
    some (if s then -(magnitude.1 : Int) else magnitude.1, magnitude.2)
  | _ => none

/-- Equality of numbers: the two zeros are equal. The `nan` that values spell out is one and the
same, but every reading of a numeral makes a `nan` that equals no other. -/
def sameNumber (x y : Binary64) : Bool :=
  match x, y with
  | .infinite s, .infinite t => s == t
  | .nan .spelled, .nan .spelled => true
  | x, y =>
    match x.fraction?, y.fraction? with
    | some (a, b), some (c, d) => a * d == c * b
    | _, _ => false

def sameInteger (x : Binary64) (n : Int) : Bool :=
  match x.fraction? with
  | some (a, b) => a == n * b
  | none => false

end Binary64

/-! ### The shortest decimal -/

namespace Shortest

/-- A positive number with the interval that rounds to it. All three are whole multiples of
`unit / scale`. -/
structure Target where
  low : Nat
  value : Nat
  high : Nat
  unit : Nat
  scale : Nat
  /-- The ends of the interval round to the number as well. -/
  closed : Bool

/-- In quarters of the last place, the interval reaches two up and two down; below the least
mantissa of a power of two the numbers lie twice as close, and it reaches one down. -/
def Target.ofFinite (m : Nat) (e : Int) : Target :=
  let halfGap := if m = Nat.pow 2 52 ∧ Binary64.leastExponent < e then 1 else 2
  let shift := e - 2
  { low := 4 * m - halfGap
    value := 4 * m
    high := 4 * m + 2
    unit := Nat.pow 2 shift.toNat
    scale := Nat.pow 2 (-shift).toNat
    closed := m % 2 = 0 }

/-- The order of `n · unit / scale` and `c · 10 ^ s`. -/
def Target.compareTo (t : Target) (n c : Nat) (s : Int) : Ordering :=
  compare (n * t.unit * Nat.pow 10 (-s).toNat) (c * Nat.pow 10 s.toNat * t.scale)

def Target.accepts (t : Target) (c : Nat) (s : Int) : Bool :=
  match t.compareTo t.low c s, t.compareTo t.high c s with
  | .lt, .gt => true
  | .eq, _ => t.closed
  | _, .eq => t.closed
  | _, _ => false

/-- The greatest `c` with `c · 10 ^ s` at most the number. -/
def Target.floorAt (t : Target) (s : Int) : Nat :=
  t.value * t.unit * Nat.pow 10 (-s).toNat / (t.scale * Nat.pow 10 s.toNat)

/-- The least `p` such that the number is below `10 ^ p`. -/
def Target.magnitude (t : Target) : Int :=
  ((List.range 700).map fun (i : Nat) => (i : Int) - 350).find? (fun p => t.compareTo t.value 1 p == .lt)
    |>.getD 350

/-- The neighbour on the grid of step `10 ^ s` that stands for the number, if one does. -/
def Target.neighbour? (t : Target) (s : Int) : Option Nat :=
  let c := t.floorAt s
  match t.accepts c s, t.accepts (c + 1) s with
  | true, true =>
    match t.compareTo (2 * t.value) (2 * c + 1) s with
    | .lt => some c
    | .gt => some (c + 1)
    | .eq => some (c + c % 2)
  | true, false => some c
  | false, true => some (c + 1)
  | false, false => none

def dropZeros (digits : Nat) (power : Int) : Nat × Int :=
  if digits ≠ 0 ∧ digits % 10 = 0 then dropZeros (digits / 10) (power + 1) else (digits, power)
termination_by digits
decreasing_by omega

/-- The digits and the power of ten of the shortest decimal that reads back as `m · 2 ^ e`;
seventeen digits always do. -/
def decimal (m : Nat) (e : Int) : Nat × Int :=
  let t := Target.ofFinite m e
  let p := t.magnitude
  let hit := ((List.range 17).map fun (i : Nat) => p - ((i : Int) + 1)).findSome? fun s =>
    (t.neighbour? s).map fun c => (c, s)
  let found := hit.getD (t.floorAt (p - 17), p - 17)
  dropZeros found.1 found.2

end Shortest

end EventFlow
