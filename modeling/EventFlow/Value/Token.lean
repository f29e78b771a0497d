import EventFlow.Text.Encoding
import EventFlow.Value

/-!
The lexical pieces of the `json` spelling.

`Token.scan` cuts a text into tokens and stops at the first place where no token begins, which it
marks by `junk`. A whole number beyond the digit limit is a token of its own, `overlong`: whether it
or an error before it decides the outcome is up to the reader, which takes the tokens in order.
-/

namespace EventFlow

inductive Token where
  | openList
  | closeList
  | openObject
  | closeObject
  | colon
  | comma
  | text (s : String)
  /-- A word or a number. -/
  | scalar (v : Value)
  /-- A whole number with too many digits. -/
  | overlong
  /-- No token begins here. -/
  | junk

namespace Token

def isLayout (c : Char) : Bool :=
  c == ' ' || c == '\t' || c == '\n' || c == '\r'

def hex4? (a b c d : Char) : Option Nat := do
  return (((← Text.hexValue? a) * 16 + (← Text.hexValue? b)) * 16 + (← Text.hexValue? c)) * 16 + (← Text.hexValue? d)

def escape? (c : Char) : Option Char :=
  if c = '\x22' ∨ c = '\\' ∨ c = '/' then some c
  else if c = 'b' then some '\x08'
  else if c = 'f' then some '\x0c'
  else if c = 'n' then some '\n'
  else if c = 'r' then some '\r'
  else if c = 't' then some '\t'
  else none

/-- The code units up to the closing quote, and the text behind it. A control character must be
escaped. -/
def scanQuoted : List Char → Option (List Nat × List Char)
  | [] => none
  | '\x22' :: rest => some ([], rest)
  | '\\' :: 'u' :: a :: b :: c :: d :: rest => do
    let unit ← hex4? a b c d
    let (units, rest) ← scanQuoted rest
    return (unit :: units, rest)
  | '\\' :: e :: rest => do
    let char ← escape? e
    let (units, rest) ← scanQuoted rest
    return (char.toNat :: units, rest)
  | c :: rest =>
    if c.toNat < 0x20 ∨ c = '\\' then none
    else do
      let (units, rest) ← scanQuoted rest
      return (c.toNat :: units, rest)

def dropWord? : List Char → List Char → Option (List Char)
  | [], cs => some cs
  | _ :: _, [] => none
  | w :: word, c :: cs => if w = c then dropWord? word cs else none

def words : List (String × Value) :=
  [("null", .null), ("true", .bool true), ("false", .bool false), ("NaN", .float (.nan .spelled)),
    ("Infinity", .float (.infinite false)), ("-Infinity", .float (.infinite true))]

def scanWord (cs : List Char) : Option (Token × List Char) :=
  words.findSome? fun (word, v) => (dropWord? word.toList cs).map fun rest => (.scalar v, rest)

/-- The whole part of a number: a zero, or digits that do not begin with one. -/
def scanWhole : List Char → Option (List Char × List Char)
  | [] => none
  | '0' :: rest => some (['0'], rest)
  | cs =>
    let ds := cs.takeWhile Text.isAsciiDigit
    if ds.isEmpty then none else some (ds, cs.dropWhile Text.isAsciiDigit)

def scanFraction : List Char → Option (List Char × List Char)
  | '.' :: rest =>
    let ds := rest.takeWhile Text.isAsciiDigit
    if ds.isEmpty then none else some (ds, rest.dropWhile Text.isAsciiDigit)
  | _ => none

/-- The power behind an exponent mark, if at least one digit stands there. -/
def scanPower : List Char → Option (Int × List Char)
  | c :: rest =>
    if c = 'e' ∨ c = 'E' then
      let (negative, rest) := Numeral.takeSign rest
      let ds := rest.takeWhile Text.isAsciiDigit
      if ds.isEmpty then none
      else
        let n : Int := Text.natOfDigits (ds.map (·.toNat - 48))
        some (if negative then -n else n, rest.dropWhile Text.isAsciiDigit)
    else none
  | [] => none

structure Parts where
  whole : List Char
  fraction : Option (List Char)
  power : Option Int

def optionalPart {α : Type} (scanPart : List Char → Option (α × List Char)) (cs : List Char) :
    Option α × List Char :=
  match scanPart cs with
  | some (a, rest) => (some a, rest)
  | none => (none, cs)

def scanParts (cs : List Char) : Option (Parts × List Char) :=
  (scanWhole cs).map fun (whole, rest) =>
    let fraction := optionalPart scanFraction rest
    let power := optionalPart scanPower fraction.2
    (⟨whole, fraction.1, power.1⟩, power.2)

/-- The number that the parts write. Without a fraction and a power it is whole. -/
def Parts.token (digitLimit : Nat) (negative : Bool) (parts : Parts) : Token :=
  let fraction := parts.fraction.getD []
  let n := Text.natOfDigits ((parts.whole ++ fraction).map (·.toNat - 48))
  if parts.fraction.isNone && parts.power.isNone then
    if digitLimit < parts.whole.length then .overlong
    else .scalar (.int (if negative then -(n : Int) else n))
  else .scalar (.float (.ofDecimal negative n (parts.power.getD 0 - (fraction.length : Int))))

def takeMinus : List Char → Bool × List Char
  | '-' :: rest => (true, rest)
  | cs => (false, cs)

def scanNumber (digitLimit : Nat) (cs : List Char) : Option (Token × List Char) :=
  (scanParts (takeMinus cs).2).map fun (parts, rest) =>
    (parts.token digitLimit (takeMinus cs).1, rest)

def scanOne (digitLimit : Nat) : List Char → Option (Token × List Char)
  | [] => none
  | '[' :: rest => some (.openList, rest)
  | ']' :: rest => some (.closeList, rest)
  | '\x7b' :: rest => some (.openObject, rest)
  | '\x7d' :: rest => some (.closeObject, rest)
  | ':' :: rest => some (.colon, rest)
  | ',' :: rest => some (.comma, rest)
  | '\x22' :: rest =>
    (scanQuoted rest).map fun (units, rest) => (.text (String.ofList (Text.charsOfUnits units)), rest)
  | cs => (scanWord cs).or (scanNumber digitLimit cs)

/-! ### Every token takes something off the text -/

theorem scanQuoted_length {cs rest : List Char} {units : List Nat}
    (h : scanQuoted cs = some (units, rest)) : rest.length < cs.length := by
  fun_induction scanQuoted cs generalizing units rest with
  | case1 => simp at h
  | case2 r => simp at h; simp [h.2]
  | case3 a b c d r ih =>
    simp only [Option.bind_eq_bind, Option.bind_eq_some_iff] at h
    obtain ⟨_, _, ⟨us, r'⟩, hr, heq⟩ := h
    have := ih hr
    simp only [Option.pure_def, Option.some.injEq, Prod.mk.injEq] at heq
    simp only [List.length_cons, ← heq.2]
    omega
  | case4 e r _ ih =>
    simp only [Option.bind_eq_bind, Option.bind_eq_some_iff] at h
    obtain ⟨_, _, ⟨us, r'⟩, hr, heq⟩ := h
    have := ih hr
    simp only [Option.pure_def, Option.some.injEq, Prod.mk.injEq] at heq
    simp only [List.length_cons, ← heq.2]
    omega
  | case5 => simp at h
  | case6 c r _ _ _ _ ih =>
    simp only [Option.bind_eq_bind, Option.bind_eq_some_iff] at h
    obtain ⟨⟨us, r'⟩, hr, heq⟩ := h
    have := ih hr
    simp only [Option.pure_def, Option.some.injEq, Prod.mk.injEq] at heq
    simp only [List.length_cons, ← heq.2]
    omega

theorem dropWord?_length {word cs rest : List Char} (h : dropWord? word cs = some rest) :
    rest.length + word.length = cs.length := by
  fun_induction dropWord? word cs with
  | case1 => simp_all
  | case2 => simp at h
  | case3 word c cs ih => have := ih h; simp only [List.length_cons]; omega
  | case4 => simp at h

theorem scanWord_length {cs rest : List Char} {t : Token} (h : scanWord cs = some (t, rest)) :
    rest.length < cs.length := by
  rw [scanWord] at h
  obtain ⟨⟨word, v⟩, hmem, h⟩ := List.exists_of_findSome?_eq_some h
  simp only [Option.map_eq_some_iff, Prod.mk.injEq] at h
  obtain ⟨r, hr, _, rfl⟩ := h
  have hlen := dropWord?_length hr
  have hpos : 0 < word.toList.length := by
    simp only [words, List.mem_cons, Prod.mk.injEq, List.not_mem_nil, or_false] at hmem
    rcases hmem with h | h | h | h | h | h <;> simp [h.1]
  omega

theorem length_dropWhile_lt {p : Char → Bool} {cs : List Char} (h : cs.takeWhile p ≠ []) :
    (cs.dropWhile p).length < cs.length := by
  have hcat := congrArg List.length (List.takeWhile_append_dropWhile (p := p) (l := cs))
  have hpos := List.length_pos_iff.2 h
  simp only [List.length_append] at hcat
  omega

theorem scanWhole_length {cs ds rest : List Char} (h : scanWhole cs = some (ds, rest)) :
    rest.length < cs.length := by
  rw [scanWhole.eq_def] at h
  split at h
  · simp at h
  · simp at h; simp [h.2]
  · simp only at h
    split at h
    · simp at h
    · next hne =>
      simp only [Option.some.injEq, Prod.mk.injEq] at h
      rw [← h.2]
      exact length_dropWhile_lt (by simpa using hne)

theorem scanFraction_length {cs ds rest : List Char} (h : scanFraction cs = some (ds, rest)) :
    rest.length < cs.length := by
  rw [scanFraction.eq_def] at h
  split at h
  · next r =>
    simp only at h
    split at h
    · simp at h
    · next hne =>
      simp only [Option.some.injEq, Prod.mk.injEq] at h
      rw [← h.2]
      have : (r.dropWhile Text.isAsciiDigit).length < r.length :=
        length_dropWhile_lt (by simpa using hne)
      simp only [List.length_cons]
      omega
  · simp at h

theorem takeSign_length (cs : List Char) : (Numeral.takeSign cs).2.length ≤ cs.length := by
  rw [Numeral.takeSign.eq_def]
  split <;> simp

theorem scanPower_length {cs rest : List Char} {n : Int} (h : scanPower cs = some (n, rest)) :
    rest.length < cs.length := by
  rw [scanPower.eq_def] at h
  split at h
  · next c r =>
    split at h
    · simp only at h
      split at h
      · simp at h
      · next hne =>
        simp only [Option.some.injEq, Prod.mk.injEq] at h
        rw [← h.2]
        have h1 : ((Numeral.takeSign r).2.dropWhile Text.isAsciiDigit).length <
            (Numeral.takeSign r).2.length := length_dropWhile_lt (by simpa using hne)
        have h2 := takeSign_length r
        simp only [List.length_cons]
        omega
    · simp at h
  · simp at h

theorem optionalPart_length {α : Type} {scanPart : List Char → Option (α × List Char)}
    (hscan : ∀ {cs rest a}, scanPart cs = some (a, rest) → rest.length < cs.length)
    (cs : List Char) : (optionalPart scanPart cs).2.length ≤ cs.length := by
  rw [optionalPart]
  split
  · next h => exact Nat.le_of_lt (hscan h)
  · exact Nat.le_refl _

theorem scanNumber_length {limit : Nat} {cs rest : List Char} {t : Token}
    (h : scanNumber limit cs = some (t, rest)) : rest.length < cs.length := by
  simp only [scanNumber, scanParts, Option.map_eq_some_iff, Prod.mk.injEq] at h
  obtain ⟨_, ⟨⟨whole, after⟩, hwhole, rfl⟩, _, rfl⟩ := h
  have hminus : (takeMinus cs).2.length ≤ cs.length := by
    rw [takeMinus.eq_def]
    split <;> simp
  have h0 := scanWhole_length hwhole
  have h1 := optionalPart_length scanFraction_length after
  have h2 := optionalPart_length scanPower_length (optionalPart scanFraction after).2
  exact Nat.lt_of_le_of_lt (Nat.le_trans h2 h1) (Nat.lt_of_lt_of_le h0 hminus)

theorem scanOne_length {limit : Nat} {cs rest : List Char} {t : Token}
    (h : scanOne limit cs = some (t, rest)) : rest.length < cs.length := by
  rw [scanOne.eq_def] at h
  split at h
  · simp at h
  all_goals try (simp at h; simp [h.2]; done)
  · next r =>
    simp only [Option.map_eq_some_iff, Prod.mk.injEq] at h
    obtain ⟨⟨units, r'⟩, hq, _, rfl⟩ := h
    have := scanQuoted_length hq
    simp only [List.length_cons]
    omega
  · rw [Option.or_eq_some_iff] at h
    rcases h with h | ⟨_, h⟩
    · exact scanWord_length h
    · exact scanNumber_length h

def scan (digitLimit : Nat) : List Char → List Token
  | [] => []
  | c :: cs =>
    if isLayout c then scan digitLimit cs
    else match _h : scanOne digitLimit (c :: cs) with
      | none => [.junk]
      | some (t, rest) => t :: scan digitLimit rest
termination_by cs => cs.length
decreasing_by
  · simp
  · exact scanOne_length _h

end Token

end EventFlow
