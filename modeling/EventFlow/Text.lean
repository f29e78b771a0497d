/-!
Text: cutting it at a separator, its white space, and its decimal digits.

The functions on characters are plain recursions; those on `String` wrap them. `split` always
returns at least one piece, and joining the pieces gives the text back (`join_split`); pieces
without the separator are found again when they have been joined (`split_join`).

Two classes of white space are in use. `isBlank` is what surrounds names and words; a numeral may
only be surrounded by `isMargin`, which leaves out the four separators U+001C to U+001F. Each script
that has decimal digits has ten of them in a row, in the order of their values, so the table of
digits lists only the zeros.
-/

namespace EventFlow.Text

/-! ### Cutting -/

def split (sep : Char) : List Char → List (List Char)
  | [] => [[]]
  | c :: cs =>
    if c = sep then [] :: split sep cs
    else match split sep cs with
      | [] => [[c]]
      | piece :: pieces => (c :: piece) :: pieces

theorem split_ne_nil (sep : Char) (cs : List Char) : split sep cs ≠ [] := by
  cases cs with
  | nil => simp [split]
  | cons c cs =>
    rw [split]
    split
    · simp
    · split <;> simp

def join (sep : List Char) : List (List Char) → List Char
  | [] => []
  | [piece] => piece
  | piece :: pieces => piece ++ sep ++ join sep pieces

theorem join_cons (sep piece : List Char) {pieces : List (List Char)} (h : pieces ≠ []) :
    join sep (piece :: pieces) = piece ++ sep ++ join sep pieces := by
  cases pieces with
  | nil => exact absurd rfl h
  | cons => rfl

theorem join_split (sep : Char) (cs : List Char) : join [sep] (split sep cs) = cs := by
  induction cs with
  | nil => rfl
  | cons c cs ih =>
    rw [split]
    split
    · next h => rw [join_cons _ _ (split_ne_nil sep cs), ih, h]; rfl
    · cases hs : split sep cs with
      | nil => exact absurd hs (split_ne_nil sep cs)
      | cons piece pieces =>
        rw [hs] at ih
        cases pieces with
        | nil => simpa [join] using ih
        | cons => simpa [join] using ih

section Split

variable {sep : Char} {piece : List Char}

theorem split_of_notMem (h : sep ∉ piece) : split sep piece = [piece] := by
  induction piece with
  | nil => rfl
  | cons c piece ih =>
      obtain ⟨hc, hpiece⟩ := not_or.1 (mt List.mem_cons.2 h)
      rw [split, if_neg (Ne.symm hc), ih hpiece]

theorem split_append (h : sep ∉ piece) (rest : List Char) :
    split sep (piece ++ sep :: rest) = piece :: split sep rest := by
  induction piece with
  | nil => simp [split]
  | cons c piece ih =>
      obtain ⟨hc, hpiece⟩ := not_or.1 (mt List.mem_cons.2 h)
      rw [List.cons_append, split, if_neg (Ne.symm hc), ih hpiece]

/-- Pieces that do not hold the separator are found again. -/
theorem split_join {pieces : List (List Char)} (hne : pieces ≠ [])
    (h : ∀ piece ∈ pieces, sep ∉ piece) : split sep (join [sep] pieces) = pieces := by
  induction pieces with
  | nil => exact absurd rfl hne
  | cons piece pieces ih =>
      obtain ⟨hpiece, hpieces⟩ := List.forall_mem_cons.1 h
      by_cases hlast : pieces = []
      · subst hlast
        exact split_of_notMem hpiece
      · rw [join_cons [sep] piece hlast, List.append_assoc, List.singleton_append,
          split_append hpiece, ih hlast hpieces]

end Split

/-- The text after the first `sep`, or all of it if there is none. -/
def afterFirst (sep : Char) (cs : List Char) : List Char :=
  match cs.dropWhile (· != sep) with
  | [] => cs
  | _ :: rest => rest

theorem dropWhile_append {sep : Char} {front : List Char} (h : sep ∉ front) (rest : List Char) :
    (front ++ rest).dropWhile (· != sep) = rest.dropWhile (· != sep) :=
  List.dropWhile_append_of_pos fun c hc => by
    have hne : c ≠ sep := fun heq => h (heq ▸ hc)
    simpa using hne

theorem afterFirst_of_notMem {sep : Char} {cs : List Char} (h : sep ∉ cs) :
    afterFirst sep cs = cs := by
  have hdrop := dropWhile_append h []
  rw [List.append_nil] at hdrop
  rw [afterFirst, hdrop]
  rfl

theorem afterFirst_append {sep : Char} {front : List Char} (h : sep ∉ front) (rest : List Char) :
    afterFirst sep (front ++ sep :: rest) = rest := by
  rw [afterFirst, dropWhile_append h, List.dropWhile_cons_of_neg (by simp)]

theorem afterFirst_eq_iff {sep : Char} {cs rest : List Char} :
    afterFirst sep cs = rest ↔
      (∃ front, sep ∉ front ∧ cs = front ++ sep :: rest) ∨ (sep ∉ cs ∧ rest = cs) := by
  constructor
  · rintro rfl
    by_cases h : sep ∈ cs
    · obtain ⟨front, rest, rfl, hfront⟩ := List.eq_append_cons_of_mem h
      exact .inl ⟨front, hfront, by rw [afterFirst_append hfront]⟩
    · exact .inr ⟨h, afterFirst_of_notMem h⟩
  · rintro (⟨front, hfront, rfl⟩ | ⟨h, rfl⟩)
    · exact afterFirst_append hfront rest
    · exact afterFirst_of_notMem h

/-- The text after the last `sep`, or all of it if there is none. -/
def afterLast (sep : Char) (cs : List Char) : List Char :=
  (cs.reverse.takeWhile (· != sep)).reverse

theorem afterLast_append {sep : Char} {front piece : List Char}
    (hfront : front = [] ∨ front.getLast? = some sep) (h : sep ∉ piece) :
    afterLast sep (front ++ piece) = piece := by
  have hpiece : ∀ c ∈ piece.reverse, (c != sep) = true := fun c hc =>
    bne_iff_ne.2 fun heq => h (heq ▸ List.mem_reverse.1 hc)
  have hrest : front.reverse.takeWhile (· != sep) = [] := by
    obtain rfl | hlast := hfront
    · rfl
    · obtain ⟨before, rfl⟩ := List.getLast?_eq_some_iff.1 hlast
      simp
  rw [afterLast, List.reverse_append, List.takeWhile_append_of_pos hpiece, hrest, List.append_nil,
    List.reverse_reverse]

def segments (s : String) : List String :=
  (split '.' s.toList).map String.ofList

def joinWith (sep : String) (pieces : List String) : String :=
  String.ofList (join sep.toList (pieces.map String.toList))

def replaceChar (old new : Char) (s : String) : String :=
  String.ofList (s.toList.map fun c => if c = old then new else c)

/-! ### White space -/

/-- White space: the Unicode property, with the information separators U+001C to U+001F. -/
def isBlank (c : Char) : Bool :=
  let n := c.toNat
  (0x09 ≤ n && n ≤ 0x0d) || (0x1c ≤ n && n ≤ 0x20) || n == 0x85 || n == 0xa0 || n == 0x1680 ||
    (0x2000 ≤ n && n ≤ 0x200a) || n == 0x2028 || n == 0x2029 || n == 0x202f || n == 0x205f ||
    n == 0x3000

def isMargin (c : Char) : Bool :=
  isBlank c && !(0x1c ≤ c.toNat && c.toNat ≤ 0x1f)

/-- The characters up to the last one that fails `p`. -/
def dropEndWhile (p : Char → Bool) (cs : List Char) : List Char :=
  (cs.reverse.dropWhile p).reverse

/-- The characters from the first to the last one that fails `p`. -/
def trimWhile (p : Char → Bool) (cs : List Char) : List Char :=
  dropEndWhile p (cs.dropWhile p)

def trim (s : String) : String :=
  String.ofList (trimWhile isBlank s.toList)

def dropTrailing (c : Char) (s : String) : String :=
  String.ofList (dropEndWhile (· == c) s.toList)

/-! ### Digits -/

def digitZeros : List Nat :=
  [
   0x30, 0x660, 0x6f0, 0x7c0, 0x966, 0x9e6, 0xa66, 0xae6, 0xb66, 0xbe6, 0xc66, 0xce6,
   0xd66, 0xde6, 0xe50, 0xed0, 0xf20, 0x1040, 0x1090, 0x17e0, 0x1810, 0x1946, 0x19d0, 0x1a80,
   0x1a90, 0x1b50, 0x1bb0, 0x1c40, 0x1c50, 0xa620, 0xa8d0, 0xa900, 0xa9d0, 0xa9f0, 0xaa50, 0xabf0,
   0xff10, 0x104a0, 0x10d30, 0x11066, 0x110f0, 0x11136, 0x111d0, 0x112f0, 0x11450, 0x114d0, 0x11650, 0x116c0,
   0x11730, 0x118e0, 0x11950, 0x11c50, 0x11d50, 0x11da0, 0x16a60, 0x16ac0, 0x16b50, 0x1d7ce, 0x1d7d8, 0x1d7e2,
   0x1d7ec, 0x1d7f6, 0x1e140, 0x1e2f0, 0x1e950, 0x1fbf0
  ]

def digitValue? (c : Char) : Option Nat :=
  (digitZeros.find? fun z => z ≤ c.toNat && c.toNat < z + 10).map (c.toNat - ·)

def isAsciiDigit (c : Char) : Bool :=
  48 ≤ c.toNat && c.toNat ≤ 57

/-- The number that a row of digit values writes, most significant first. -/
def natOfDigits (ds : List Nat) : Nat :=
  ds.foldl (fun n d => 10 * n + d) 0

def natDigits (n : Nat) : List Char :=
  Nat.toDigits 10 n

def intDigits : Int → List Char
  | .ofNat n => natDigits n
  | .negSucc n => '-' :: natDigits (n + 1)

def ofNat (n : Nat) : String :=
  String.ofList (natDigits n)

end EventFlow.Text
