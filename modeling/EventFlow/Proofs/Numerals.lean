import EventFlow.Value.Token
import EventFlow.Value.Written
import Mathlib.Data.Nat.Digits.Defs

/-!
Scanning a number.

A number is spelled by a row of digits, maybe a fraction and maybe an exponent. The scanner takes a
number apart as it was put together (`scanParts_write`), wherever it ends. Both kinds of numbers are
written in this form, whole numbers by their digits alone and the others with a fraction or an
exponent, so each is read as a number of its kind (`exists_scanned`).
-/

namespace EventFlow

namespace Text

theorem natOfDigits_natDigits (n : Nat) : natOfDigits ((natDigits n).map (·.toNat - 48)) = n := by
  rw [natOfDigits, List.foldl_map]
  exact Nat.ofDigitChars_toDigits (by decide) (by decide)

/-- A row that ends where `p` fails is cut off there. -/
theorem span_append {p : Char → Bool} {cs rest : List Char} (h : ∀ c ∈ cs, p c = true)
    (hrest : ∀ c ∈ rest.head?, p c = false) :
    (cs ++ rest).takeWhile p = cs ∧ (cs ++ rest).dropWhile p = rest := by
  rw [List.takeWhile_append_of_pos h, List.dropWhile_append_of_pos h]
  cases rest with
  | nil => simp
  | cons c rest => simp [hrest c rfl]

theorem head?_natDigits {n : Nat} (h : n ≠ 0) : (natDigits n).head? ≠ some '0' := by
  induction n using Nat.strongRecOn with
  | ind n ih =>
      rw [natDigits, Nat.toDigits_eq_if (by decide)]
      split
      · next hlt =>
          have hdigits : ∀ d < 10, d ≠ 0 → Nat.digitChar d ≠ '0' := by decide
          simpa using hdigits n hlt h
      · next hge =>
          have hhead := ih (n / 10) (by omega) (by omega)
          obtain ⟨c, cs, hcs⟩ := List.exists_cons_of_ne_nil
            (List.ne_nil_of_length_pos (Nat.length_toDigits_pos (b := 10)))
          rw [natDigits, hcs] at hhead
          rwa [hcs]

end Text

namespace Token

def IsRow (ds : List Char) : Prop :=
  ds ≠ [] ∧ ∀ c ∈ ds, Text.isAsciiDigit c = true

/-- The row of digits before `rest` ends there. -/
def EndsRow (rest : List Char) : Prop :=
  ∀ c ∈ rest.head?, Text.isAsciiDigit c = false

theorem isRow_natDigits (n : Nat) : IsRow (Text.natDigits n) := by
  refine ⟨List.ne_nil_of_length_pos Nat.length_toDigits_pos, fun c hc => ?_⟩
  have hdigit := Nat.isDigit_of_mem_toDigits (by decide) (by decide) hc
  rw [Char.isDigit, Bool.and_eq_true, decide_eq_true_eq, decide_eq_true_eq] at hdigit
  rw [Text.isAsciiDigit, Bool.and_eq_true, decide_eq_true_eq, decide_eq_true_eq]
  exact hdigit

theorem isRow_zero : IsRow ['0'] :=
  ⟨by simp, List.forall_mem_singleton.2 (by decide)⟩

theorem IsRow.append {ds es : List Char} (h : IsRow ds)
    (h' : ∀ c ∈ es, Text.isAsciiDigit c = true) : IsRow (ds ++ es) :=
  ⟨List.append_ne_nil_of_left_ne_nil h.1 _, List.forall_mem_append.2 ⟨h.2, h'⟩⟩

theorem takeWhile_row {ds rest : List Char} (h : ∀ c ∈ ds, Text.isAsciiDigit c = true)
    (hrest : EndsRow rest) :
    (ds ++ rest).takeWhile Text.isAsciiDigit = ds ∧
      (ds ++ rest).dropWhile Text.isAsciiDigit = rest :=
  Text.span_append h hrest

/-- An unsigned number as it is spelled. The sign of an exponent is always there. -/
structure Spelled where
  whole : List Char
  fraction : Option (List Char) := none
  exponent : Option (Bool × List Char) := none

namespace Spelled

def writeFraction (n : Spelled) : List Char :=
  n.fraction.elim [] ('.' :: ·)

def writeExponent (n : Spelled) : List Char :=
  n.exponent.elim [] fun e => 'e' :: (if e.1 then '-' else '+') :: e.2

def write (n : Spelled) : List Char :=
  n.whole ++ n.writeFraction ++ n.writeExponent

def power? (n : Spelled) : Option Int :=
  n.exponent.map fun e =>
    let k : Int := Text.natOfDigits (e.2.map (·.toNat - 48))
    if e.1 then -k else k

/-- The parts are rows of digits, and only a zero begins with one. -/
structure IsSound (n : Spelled) : Prop where
  whole : IsRow n.whole
  leading : n.whole = ['0'] ∨ n.whole.head? ≠ some '0'
  fraction : ∀ ds ∈ n.fraction, IsRow ds
  exponent : ∀ e ∈ n.exponent, IsRow e.2

def Ends (rest : List Char) : Prop :=
  ∀ c ∈ rest.head?, Text.isAsciiDigit c = false ∧ c ≠ '.' ∧ c ≠ 'e' ∧ c ≠ 'E'

variable {n : Spelled} {rest : List Char}

theorem Ends.endsRow (h : Ends rest) : EndsRow rest :=
  fun c hc => (h c hc).1

theorem scanWhole_append (h : n.IsSound) (hrest : EndsRow rest) :
    scanWhole (n.whole ++ rest) = some (n.whole, rest) := by
  obtain hzero | hhead := h.leading
  · rw [hzero]
    rfl
  · obtain ⟨htake, hdrop⟩ := takeWhile_row h.whole.2 hrest
    rw [scanWhole.eq_def]
    split
    · next heq => exact absurd (List.append_eq_nil_iff.1 heq).1 h.whole.1
    · next r heq =>
        obtain ⟨c, cs, hcs⟩ := List.exists_cons_of_ne_nil h.whole.1
        rw [hcs] at heq hhead
        exact absurd (congrArg some (List.cons.inj heq).1) hhead
    · simp only [htake, hdrop]
      rw [if_neg (by simpa using h.whole.1)]

theorem scanFraction_append (h : n.IsSound) (hrest : EndsRow rest)
    (hpoint : rest.head? ≠ some '.') :
    optionalPart scanFraction (n.writeFraction ++ rest) = (n.fraction, rest) := by
  rw [optionalPart, writeFraction]
  cases hf : n.fraction with
  | none =>
      have hnone : scanFraction rest = none := by
        cases rest with
        | nil => rfl
        | cons c rest =>
            rw [scanFraction.eq_def]
            split
            · next heq => exact absurd (congrArg some (List.cons.inj heq).1) hpoint
            · rfl
      simp [hnone]
  | some ds =>
      have hrow := h.fraction ds hf
      obtain ⟨htake, hdrop⟩ := takeWhile_row hrow.2 hrest
      have hsome : scanFraction ('.' :: (ds ++ rest)) = some (ds, rest) := by
        rw [scanFraction, htake, hdrop, if_neg (by simpa using hrow.1)]
      simp [hsome]

theorem scanPower_append (h : n.IsSound) (hrest : Ends rest) :
    optionalPart scanPower (n.writeExponent ++ rest) = (n.power?, rest) := by
  rw [optionalPart, writeExponent, power?]
  cases he : n.exponent with
  | none =>
      have hnone : scanPower rest = none := by
        cases rest with
        | nil => rfl
        | cons c rest =>
            obtain ⟨-, -, he, hE⟩ := hrest c rfl
            rw [scanPower, if_neg (by simp [he, hE])]
      simp [hnone]
  | some e =>
      obtain ⟨negative, ds⟩ := e
      have hrow := h.exponent (negative, ds) he
      obtain ⟨htake, hdrop⟩ := takeWhile_row hrow.2 hrest.endsRow
      have hne : ds.isEmpty = false := by simpa using hrow.1
      cases negative <;> simp [scanPower, Numeral.takeSign, htake, hdrop, hne]

theorem endsRow_writeExponent (hrest : Ends rest) :
    EndsRow (n.writeExponent ++ rest) ∧ (n.writeExponent ++ rest).head? ≠ some '.' := by
  rw [writeExponent]
  cases n.exponent with
  | none =>
      refine ⟨hrest.endsRow, fun h => ?_⟩
      exact (hrest '.' h).2.1 rfl
  | some e => exact ⟨fun c hc => by cases hc; decide, by simp⟩

theorem endsRow_writeFraction (hrest : EndsRow rest) : EndsRow (n.writeFraction ++ rest) := by
  rw [writeFraction]
  cases n.fraction with
  | none => exact hrest
  | some ds => exact fun c hc => by cases hc; decide

/-- A number is taken apart as it was put together. -/
theorem scanParts_write (h : n.IsSound) (hrest : Ends rest) :
    scanParts (n.write ++ rest) = some (⟨n.whole, n.fraction, n.power?⟩, rest) := by
  obtain ⟨hrow, hpoint⟩ := endsRow_writeExponent (n := n) hrest
  rw [write, List.append_assoc, List.append_assoc, scanParts,
    scanWhole_append h (endsRow_writeFraction hrow)]
  simp only [Option.map_some, scanFraction_append h hrow hpoint, scanPower_append h hrest]

end Spelled

theorem ne_of_isAsciiDigit {c d : Char} (hc : Text.isAsciiDigit c = true)
    (hd : Text.isAsciiDigit d = false) : c ≠ d := by
  rintro rfl
  rw [hc] at hd
  cases hd

/-- What begins with a digit is no word. -/
theorem scanWord_of_digit {c : Char} (hc : Text.isAsciiDigit c = true) (cs : List Char) :
    scanWord (c :: cs) = none ∧ scanWord ('-' :: c :: cs) = none := by
  have hne (d : Char) (hd : Text.isAsciiDigit d = false) : d ≠ c := (ne_of_isAsciiDigit hc hd).symm
  constructor
  · simp [scanWord, words, dropWord?, hne 'n' (by decide), hne 't' (by decide), hne 'f' (by decide),
      hne 'N' (by decide), hne 'I' (by decide), hne '-' (by decide)]
  · simp [scanWord, words, dropWord?, hne 'I' (by decide)]

/-- What is not set apart by its first character is a word or a number. -/
theorem scanOne_of_head {limit : Nat} {c : Char} (cs : List Char)
    (hc : c ∉ ['[', ']', '\x7b', '\x7d', ':', ',', '\x22']) :
    scanOne limit (c :: cs) = (scanWord (c :: cs)).or (scanNumber limit (c :: cs)) := by
  rw [scanOne.eq_def]
  split
  · next heq => cases heq
  all_goals first
    | (next heq => obtain ⟨rfl, -⟩ := List.cons.inj heq; simp at hc)
    | rfl

def writeSign (negative : Bool) : List Char :=
  if negative then ['-'] else []

/-- A number is scanned as the number that its parts write. -/
theorem scanOne_spelled {limit : Nat} (negative : Bool) {n : Spelled} (h : n.IsSound)
    {rest : List Char} (hrest : Spelled.Ends rest) :
    scanOne limit (writeSign negative ++ n.write ++ rest) =
      some (Parts.token limit negative ⟨n.whole, n.fraction, n.power?⟩, rest) := by
  have hparts := Spelled.scanParts_write h hrest
  obtain ⟨c, cs, hcs⟩ := List.exists_cons_of_ne_nil h.whole.1
  have hc : Text.isAsciiDigit c = true := h.whole.2 c (hcs ▸ .head _)
  have hwrite : n.write ++ rest = c :: (cs ++ n.writeFraction ++ n.writeExponent ++ rest) := by
    simp [Spelled.write, hcs]
  have hne (d : Char) (hd : Text.isAsciiDigit d = false) : c ≠ d := ne_of_isAsciiDigit hc hd
  rw [List.append_assoc, hwrite]
  rw [hwrite] at hparts
  generalize cs ++ n.writeFraction ++ n.writeExponent ++ rest = after at hparts
  cases negative with
  | false =>
      have hminus : takeMinus (c :: after) = (false, c :: after) := by
        rw [takeMinus.eq_def]
        split
        · next heq => exact absurd (List.cons.inj heq).1 (hne '-' (by decide))
        · rfl
      change scanOne limit (c :: after) = _
      rw [scanOne_of_head, (scanWord_of_digit hc after).1, Option.none_or, scanNumber, hminus,
        hparts]
      · rfl
      · simp [hne '[' (by decide), hne ']' (by decide), hne '\x7b' (by decide),
          hne '\x7d' (by decide), hne ':' (by decide), hne ',' (by decide), hne '\x22' (by decide)]
  | true =>
      change scanOne limit ('-' :: c :: after) = _
      rw [scanOne_of_head _ (by decide), (scanWord_of_digit hc after).2, Option.none_or, scanNumber,
        takeMinus, hparts]
      rfl

end Token

/-! ### Decimals -/

namespace Shortest

theorem dropZeros_eq_zero {digits : Nat} {power : Int} (h : (dropZeros digits power).1 = 0) :
    digits = 0 ∧ (dropZeros digits power).2 = power := by
  induction digits using Nat.strongRecOn generalizing power with
  | ind digits ih =>
      rw [dropZeros] at h ⊢
      split at h
      · next hdigits =>
          obtain ⟨hzero, -⟩ := ih (digits / 10) (by omega) h
          omega
      · next hdigits =>
          rw [if_neg hdigits]
          exact ⟨h, rfl⟩

namespace Target

variable {t : Target} {c : Nat} {s : Int}

/-- Nothing rounds to a positive number but positive numbers. -/
theorem ne_zero_of_accepts (hlow : 0 < t.low) (hunit : 0 < t.unit) (hhigh : 0 < t.high)
    (h : t.accepts c s = true) : c ≠ 0 := by
  have hpos (n : Nat) (hn : 0 < n) : t.compareTo n 0 s = .gt := by
    rw [compareTo, Nat.zero_mul, Nat.zero_mul]
    exact Nat.compare_eq_gt.2 (Nat.mul_pos (Nat.mul_pos hn hunit) (Nat.pow_pos (by decide)))
  rintro rfl
  rw [accepts, hpos t.low hlow, hpos t.high hhigh] at h
  cases h

theorem ne_zero_of_neighbour? (hlow : 0 < t.low) (hunit : 0 < t.unit) (hhigh : 0 < t.high)
    (h : t.neighbour? s = some c) : c ≠ 0 := by
  have hpos {c : Nat} := ne_zero_of_accepts (c := c) (s := s) hlow hunit hhigh
  rw [neighbour?] at h
  split at h
  · next hfloor _ =>
      have := hpos hfloor
      split at h <;> cases h <;> omega
  · next hfloor _ =>
      cases h
      exact hpos hfloor
  · cases h
    omega
  · cases h

theorem magnitude_eq (t : Target) :
    ∃ i : Nat, i ≤ 700 ∧ t.magnitude = (i : Int) - 350 ∧
      ∀ j : Nat, j < i → (t.compareTo t.value 1 ((j : Int) - 350) == .lt) = false := by
  rw [magnitude, List.find?_map]
  cases hfind : (List.range 700).find?
      ((fun p => t.compareTo t.value 1 p == .lt) ∘ fun (i : Nat) => (i : Int) - 350) with
  | none =>
      refine ⟨700, le_rfl, rfl, fun j hj => ?_⟩
      simpa using List.find?_eq_none.1 hfind j (List.mem_range.2 hj)
  | some i =>
      obtain ⟨-, hi, hleast⟩ := List.find?_range_eq_some.1 hfind
      refine ⟨i, le_of_lt (List.mem_range.1 hi), rfl, fun j hj => ?_⟩
      simpa using hleast j hj

/-- A number is at least each power of ten below its magnitude, down to a very small one. -/
theorem floorAt_ne_zero (hscale : 0 < t.scale) (hs : -350 ≤ s) (h : s < t.magnitude) :
    t.floorAt s ≠ 0 := by
  obtain ⟨i, hi, hmagnitude, hleast⟩ := t.magnitude_eq
  have hnot := hleast (s + 350).toNat (by omega)
  rw [show ((s + 350).toNat : Int) - 350 = s by omega, beq_eq_false_iff_ne, compareTo, Nat.one_mul,
    ne_eq, Nat.compare_eq_lt, not_lt, Nat.mul_comm] at hnot
  rw [floorAt]
  have hstep : 0 < t.scale * Nat.pow 10 s.toNat := Nat.mul_pos hscale (Nat.pow_pos (by decide))
  exact (Nat.div_pos hnot hstep).ne'

end Target

/-- If the shortest decimal of a number had no digits but zero, no zeros would be added to it. -/
theorem decimal_power_le {m : Nat} {e : Int} (hm : m ≠ 0) (h : (decimal m e).1 = 0) :
    (decimal m e).2 ≤ 0 := by
  have hlow : 0 < (Target.ofFinite m e).low := by
    have hgap : (if m = Nat.pow 2 52 ∧ Binary64.leastExponent < e then 1 else 2) ≤ 2 := by
      split <;> omega
    change 0 < 4 * m - _
    omega
  have hunit : 0 < (Target.ofFinite m e).unit := Nat.pow_pos (by decide)
  have hhigh : 0 < (Target.ofFinite m e).high := Nat.succ_pos _
  have hscale : 0 < (Target.ofFinite m e).scale := Nat.pow_pos (by decide)
  rw [decimal] at h ⊢
  generalize Target.ofFinite m e = t at *
  obtain ⟨hfound, hpower⟩ := dropZeros_eq_zero h
  rw [hpower]
  generalize hhit : List.findSome? _ _ = hit at hfound ⊢
  cases hit with
  | some hit =>
      obtain ⟨s, -, hs⟩ := List.exists_of_findSome?_eq_some hhit
      obtain ⟨c, hc, rfl⟩ := Option.map_eq_some_iff.1 hs
      exact absurd hfound (Target.ne_zero_of_neighbour? hlow hunit hhigh hc)
  | none =>
      by_contra hpos
      have hpos : 0 < t.magnitude - 17 := not_le.1 hpos
      exact Target.floorAt_ne_zero hscale (by omega) (by omega) hfound

end Shortest

namespace Number

open EventFlow.Token

theorem forall_mem_zeros (k : Nat) : ∀ c ∈ List.replicate k '0', Text.isAsciiDigit c = true := by
  intro c hc
  rw [(List.mem_replicate.1 hc).2]
  decide

/-- A decimal is written as a number with a fraction or an exponent. If its digits are those of zero
the power must not add more of them. -/
theorem exists_spelled {d : Nat} {power : Int} (hzero : d = 0 → power ≤ 0) :
    ∃ n : Spelled, n.IsSound ∧ n.write = writeDecimal (Text.natDigits d) power ∧
      (n.fraction.isSome || n.exponent.isSome) = true := by
  have hrow := isRow_natDigits d
  have hhead (h : d ≠ 0) : (Text.natDigits d).head? ≠ some '0' := Text.head?_natDigits h
  have hd (h : d = 0) : Text.natDigits d = ['0'] := by rw [h]; rfl
  have hplain := isRow_zero
  generalize Text.natDigits d = digits at *
  rw [writeDecimal.eq_def]
  dsimp only
  split
  · next hpositional =>
      split
      · next hsmall =>
          refine ⟨⟨['0'], some (List.replicate (-(digits.length + power)).toNat '0' ++ digits),
            none⟩, ⟨hplain, .inl rfl, ?_, nofun⟩, ?_, rfl⟩
          · rintro _ ⟨⟩
            exact ⟨by simp [hrow.1], List.forall_mem_append.2 ⟨forall_mem_zeros _, hrow.2⟩⟩
          · simp [Spelled.write, Spelled.writeFraction, Spelled.writeExponent]
      · next hlarge =>
          split
          · next hpower =>
              refine ⟨⟨digits ++ List.replicate power.toNat '0', some ['0'], none⟩,
                ⟨hrow.append (forall_mem_zeros _), ?_, ?_, nofun⟩, ?_, rfl⟩
              · by_cases h : d = 0
                · obtain rfl : power = 0 := le_antisymm (hzero h) hpower
                  exact .inl (by simp [hd h])
                · obtain ⟨c, cs, rfl⟩ := List.exists_cons_of_ne_nil hrow.1
                  exact .inr (by simpa using hhead h)
              · rintro _ ⟨⟩
                exact hplain
              · simp [Spelled.write, Spelled.writeFraction, Spelled.writeExponent]
          · next hpower =>
              have hlength : (digits.length + power).toNat < digits.length := by omega
              have hne : d ≠ 0 := by
                intro h
                rw [hd h] at hlarge
                simp only [List.length_singleton] at hlarge
                omega
              obtain ⟨k, hk⟩ : ∃ k, (digits.length + power).toNat = k + 1 :=
                Nat.exists_eq_succ_of_ne_zero (by omega)
              rw [hk] at hlength ⊢
              obtain ⟨c, cs, rfl⟩ := List.exists_cons_of_ne_nil hrow.1
              refine ⟨⟨(c :: cs).take (k + 1), some ((c :: cs).drop (k + 1)), none⟩,
                ⟨⟨by simp, fun x hx => hrow.2 x (List.mem_of_mem_take hx)⟩, .inr (hhead hne), ?_,
                  nofun⟩, ?_, rfl⟩
              · rintro _ ⟨⟩
                refine ⟨?_, fun x hx => hrow.2 x (List.mem_of_mem_drop hx)⟩
                simpa using hlength
              · simp [Spelled.write, Spelled.writeFraction, Spelled.writeExponent]
  · obtain ⟨c, cs, rfl⟩ := List.exists_cons_of_ne_nil hrow.1
    obtain ⟨hc, hcs⟩ := List.forall_mem_cons.1 hrow.2
    generalize hexponent : ((c :: cs).length + power - 1 : Int) = exponent
    have hpadded : IsRow (if (Text.natDigits exponent.natAbs).length < 2 then
        '0' :: Text.natDigits exponent.natAbs else Text.natDigits exponent.natAbs) := by
      have hplaces := isRow_natDigits exponent.natAbs
      split
      · exact hplain.append hplaces.2
      · exact hplaces
    generalize (if (Text.natDigits exponent.natAbs).length < 2 then
        '0' :: Text.natDigits exponent.natAbs
      else Text.natDigits exponent.natAbs) = padded at hpadded ⊢
    refine ⟨⟨[c], if cs = [] then none else some cs, some (decide (exponent < 0), padded)⟩,
      ⟨⟨by simp, by simpa using hc⟩, ?_, ?_, ?_⟩, ?_, ?_⟩
    · by_cases h : c = '0'
      · exact .inl (by rw [h])
      · exact .inr (by simpa using h)
    · intro ds hds
      split at hds
      · cases hds
      · next hne =>
          cases hds
          exact ⟨hne, hcs⟩
    · rintro _ ⟨⟩
      exact hpadded
    · by_cases hneg : exponent < 0
      · cases cs <;> simp [Spelled.write, Spelled.writeFraction, Spelled.writeExponent, hneg]
      · cases cs <;> simp [Spelled.write, Spelled.writeFraction, Spelled.writeExponent, hneg]
    · simp

def IsNumeric (c : Char) : Prop :=
  Text.isAsciiDigit c = true ∨ c = '.' ∨ c = 'e' ∨ c = '+' ∨ c = '-'
deriving Decidable

theorem isNumeric_write {n : Spelled} (h : n.IsSound) : ∀ c ∈ n.write, IsNumeric c := by
  intro c hc
  rw [Spelled.write, List.mem_append, List.mem_append] at hc
  rcases hc with (hc | hc) | hc
  · exact .inl (h.whole.2 c hc)
  · rw [Spelled.writeFraction] at hc
    cases hf : n.fraction with
    | none => simp [hf] at hc
    | some ds =>
        rw [hf] at hc
        rcases List.mem_cons.1 hc with rfl | hc
        · exact .inr (.inl rfl)
        · exact .inl ((h.fraction ds hf).2 c hc)
  · rw [Spelled.writeExponent] at hc
    cases he : n.exponent with
    | none => simp [he] at hc
    | some e =>
        rw [he] at hc
        rcases List.mem_cons.1 hc with rfl | hc
        · exact .inr (.inr (.inl rfl))
        · rcases List.mem_cons.1 hc with rfl | hc
          · split <;> simp [IsNumeric]
          · exact .inl ((h.exponent e he).2 c hc)

/-! ### Reading a number back -/

theorem isSound_natDigits (k : Nat) : Spelled.IsSound ⟨Text.natDigits k, none, none⟩ := by
  refine ⟨isRow_natDigits k, ?_, nofun, nofun⟩
  by_cases h : k = 0
  · rw [h]
    exact .inl rfl
  · exact .inr (Text.head?_natDigits h)

theorem intDigits_eq (n : Int) :
    Text.intDigits n =
      writeSign (decide (n < 0)) ++ Spelled.write ⟨Text.natDigits n.natAbs, none, none⟩ := by
  have hplain (ds : List Char) : Spelled.write ⟨ds, none, none⟩ = ds := by
    simp [Spelled.write, Spelled.writeFraction, Spelled.writeExponent]
  rw [hplain]
  cases n with
  | ofNat k => rfl
  | negSucc k =>
      rw [decide_eq_true (Int.negSucc_lt_zero k)]
      rfl

/-- A finite number is written with a fraction or an exponent. -/
theorem exists_spelled_finite (words : Words) (negative : Bool) (m : Nat) (e : Int) :
    ∃ n : Spelled, n.IsSound ∧ (n.fraction.isSome || n.exponent.isSome) = true ∧
      writeFloat words (.finite negative m e) = writeSign negative ++ n.write := by
  rw [writeFloat]
  split
  · refine ⟨⟨['0'], some ['0'], none⟩, ⟨isRow_zero, .inl rfl, ?_, nofun⟩, rfl, rfl⟩
    rintro _ ⟨⟩
    exact isRow_zero
  · next hm =>
      obtain ⟨n, hsound, hwrite, hpart⟩ :=
        exists_spelled (d := (Shortest.decimal m e).1) (Shortest.decimal_power_le hm)
      exact ⟨n, hsound, hpart, by rw [hwrite]; rfl⟩

/-- The number that is read from the spelling of `n`. -/
def reread (n : Number) : Number :=
  match scanOne Numeral.digitLimit (n.write Value.jsonSpelling.words) with
  | some (.scalar (.number k), _) => k
  | _ => n

theorem token_natDigits {limit : Nat} {n : Int} (hlimit : 0 < limit)
    (h : n.natAbs < Nat.pow 10 limit) :
    Parts.token limit (decide (n < 0)) ⟨Text.natDigits n.natAbs, none, none⟩ =
      .scalar (.number (.int n)) := by
  have hlength : ¬ limit < (Text.natDigits n.natAbs).length :=
    not_lt.2 ((Nat.length_toDigits_le_iff (by decide) hlimit).2 h)
  have hvalue : (if decide (n < 0) = true then -(n.natAbs : Int) else n.natAbs) = n := by
    simp only [decide_eq_true_eq]
    omega
  simp only [Parts.token, Option.getD_none, List.append_nil, Text.natOfDigits_natDigits,
    Option.isNone_none, Bool.and_self, if_true, if_neg hlength, hvalue]
  rfl

theorem token_of_part (limit : Nat) (negative : Bool) {n : Spelled}
    (h : (n.fraction.isSome || n.exponent.isSome) = true) :
    ∃ x, Parts.token limit negative ⟨n.whole, n.fraction, n.power?⟩ =
      .scalar (.number (.float x)) := by
  have hpart : (n.fraction.isNone && n.power?.isNone) = false := by
    rw [Spelled.power?, Option.isNone_map]
    cases hf : n.fraction <;> cases he : n.exponent <;> simp_all
  rw [Parts.token, if_neg (by simp [hpart])]
  exact ⟨_, rfl⟩

/-- A whole number is read as it was written. -/
theorem scanOne_int {n : Int} (h : (Number.int n).isWritable = true) {rest : List Char}
    (hrest : Spelled.Ends rest) :
    scanOne Numeral.digitLimit ((Number.int n).write Value.jsonSpelling.words ++ rest) =
      some (.scalar (.number (.int n)), rest) := by
  rw [isWritable, decide_eq_true_eq] at h
  rw [write, intDigits_eq, scanOne_spelled _ (isSound_natDigits _) hrest, Spelled.power?]
  exact congrArg (fun t => some (t, rest)) (token_natDigits (by decide) h)

theorem reread_int {n : Int} (h : (Number.int n).isWritable = true) :
    (Number.int n).reread = .int n := by
  have hends : Spelled.Ends [] := nofun
  have hscan := scanOne_int h hends
  rw [List.append_nil] at hscan
  rw [reread, hscan]

/-- Wherever the spelling of a number ends, it is read as one number. -/
theorem exists_scanned {n : Number} (h : n.isWritable = true) :
    ∃ k : Number, k.isWritable = true ∧ ∀ rest, Spelled.Ends rest →
      scanOne Numeral.digitLimit (n.write Value.jsonSpelling.words ++ rest) =
        some (.scalar (.number k), rest) := by
  cases n with
  | int n => exact ⟨.int n, h, fun rest hrest => scanOne_int h hrest⟩
  | float x =>
      cases x with
      | nan origin => exact ⟨.float (.nan .spelled), rfl, fun rest _ => rfl⟩
      | infinite negative =>
          refine ⟨.float (.infinite negative), rfl, fun rest _ => ?_⟩
          cases negative <;> rfl
      | finite negative m e =>
          obtain ⟨s, hsound, hpart, hwrite⟩ :=
            exists_spelled_finite Value.jsonSpelling.words negative m e
          obtain ⟨x, hx⟩ := token_of_part Numeral.digitLimit negative hpart
          refine ⟨.float x, rfl, fun rest hrest => ?_⟩
          rw [write, hwrite, scanOne_spelled _ hsound hrest, hx]

theorem scanOne_write {n : Number} (h : n.isWritable = true) {rest : List Char}
    (hrest : Spelled.Ends rest) :
    scanOne Numeral.digitLimit (n.write Value.jsonSpelling.words ++ rest) =
      some (.scalar (.number n.reread), rest) := by
  obtain ⟨k, -, hk⟩ := exists_scanned h
  have hnone := hk [] nofun
  rw [List.append_nil] at hnone
  rw [hk rest hrest, reread, hnone]

theorem isWritable_reread {n : Number} (h : n.isWritable = true) : n.reread.isWritable = true := by
  obtain ⟨k, hwritable, hk⟩ := exists_scanned h
  have hnone := hk [] nofun
  rw [List.append_nil] at hnone
  rw [reread, hnone]
  exact hwritable

/-- Only the characters of a number and those of the words stand in the spelling of a number. -/
theorem notMem_write {c : Char} {words : Words} (n : Number) (hc : ¬ IsNumeric c)
    (hwords : c ∉ words.nan.toList ++ words.infinity.toList) : c ∉ n.write words := by
  have hsign (negative : Bool) : c ∉ writeSign negative := fun hmem => by
    cases negative with
    | false => cases hmem
    | true => exact hc (.inr (.inr (.inr (.inr (List.mem_singleton.1 hmem)))))
  have hspelled {s : Spelled} (hs : s.IsSound) : c ∉ s.write := fun hmem =>
    hc (isNumeric_write hs c hmem)
  rw [List.mem_append, not_or] at hwords
  cases n with
  | int n =>
      rw [write, intDigits_eq, List.mem_append, not_or]
      exact ⟨hsign _, hspelled (isSound_natDigits _)⟩
  | float x =>
      cases x with
      | nan origin => exact hwords.1
      | infinite negative => exact List.not_mem_append (hsign negative) hwords.2
      | finite negative m e =>
          obtain ⟨s, hsound, -, hwrite⟩ := exists_spelled_finite words negative m e
          rw [write, hwrite, List.mem_append, not_or]
          exact ⟨hsign _, hspelled hsound⟩

end Number

end EventFlow
