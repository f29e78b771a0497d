/-!
Characters written as numbers, and bytes in which they are encoded.

A character may be written in hexadecimal digits, or as units of which two may make up one
character. A text that starts with an ASCII character shows its encoding by where the zero bytes are
among the first four. Bytes without such zeros are in the encoding of one byte units.
-/

namespace EventFlow.Text

/-! ### Units -/

def hexValue? (c : Char) : Option Nat :=
  let n := c.toNat
  if 48 ≤ n ∧ n ≤ 57 then some (n - 48)
  else if 65 ≤ n ∧ n ≤ 70 then some (n - 55)
  else if 97 ≤ n ∧ n ≤ 102 then some (n - 87)
  else none

def isHighSurrogate (n : Nat) : Bool := 0xd800 ≤ n && n < 0xdc00

def isLowSurrogate (n : Nat) : Bool := 0xdc00 ≤ n && n < 0xe000

/-- The characters that units stand for: two surrogates in a row are one character. A surrogate
without its partner becomes the replacement character. -/
def charsOfUnits : List Nat → List Char
  | [] => []
  | h :: l :: rest =>
    if isHighSurrogate h && isLowSurrogate l then
      Char.ofNat (0x10000 + (h - 0xd800) * 0x400 + (l - 0xdc00)) :: charsOfUnits rest
    else if isHighSurrogate h || isLowSurrogate h then
      '\ufffd' :: charsOfUnits (l :: rest)
    else Char.ofNat h :: charsOfUnits (l :: rest)
  | [n] => [if isHighSurrogate n || isLowSurrogate n then '\ufffd' else Char.ofNat n]

/-! ### Bytes -/

/-- The units of an encoding, and whether the high byte of a unit comes first. -/
inductive Encoding where
  | bytes
  | pairs (highFirst : Bool)
  | quads (highFirst : Bool)
deriving DecidableEq, Repr

namespace Encoding

def detect : List UInt8 → Encoding
  | [a, b] => if a = 0 then .pairs true else if b = 0 then .pairs false else .bytes
  | a :: b :: c :: d :: _ =>
    if a = 0 then (if b = 0 then .quads true else .pairs true)
    else if b = 0 then (if c = 0 && d = 0 then .quads false else .pairs false)
    else .bytes
  | _ => .bytes

end Encoding

def encoded (s : String) : List UInt8 :=
  s.toList.flatMap String.utf8EncodeChar

def pairValue (highFirst : Bool) (a b : UInt8) : Nat :=
  if highFirst then a.toNat * 256 + b.toNat else b.toNat * 256 + a.toNat

def pairUnits? (highFirst : Bool) : List UInt8 → Option (List Nat)
  | [] => some []
  | [_] => none
  | a :: b :: rest => do return pairValue highFirst a b :: (← pairUnits? highFirst rest)

def quadUnits? (highFirst : Bool) : List UInt8 → Option (List Nat)
  | [] => some []
  | a :: b :: c :: d :: rest => do
    let first := pairValue highFirst a b
    let second := pairValue highFirst c d
    let unit := if highFirst then first * 65536 + second else second * 65536 + first
    return unit :: (← quadUnits? highFirst rest)
  | _ => none

/-- Reads a text whose bytes may be in another encoding than its own. There is no result if they
are not in the encoding that they show. -/
def recode? (s : String) : Option String :=
  let bytes := encoded s
  match Encoding.detect bytes with
  | .bytes => some s
  | .pairs highFirst => do
    let units ← pairUnits? highFirst bytes
    return String.ofList (charsOfUnits units)
  | .quads highFirst => do
    let units ← quadUnits? highFirst bytes
    if units.all (· ≤ 0x10ffff) then return String.ofList (charsOfUnits units) else none

end EventFlow.Text
