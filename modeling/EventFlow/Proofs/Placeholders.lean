import EventFlow.Proofs.Spelling
import EventFlow.Template
import Mathlib.Data.List.Basic

/-!
Resolving templates inside a spelled value.

A placeholder that a text opens and does not close ends at the next closing pair behind the text,
be it in another text or where two objects end. A value in which there is none of these is resolved
text by text (`resolveChars_write`): the pieces of texts in a row are those of each text
(`pieces_append`), and neither quotes nor escapes get in the way (`pieces_escape`). What comes out
is then read back (`resolve_nested`).
-/

namespace EventFlow

namespace Text

def escapeMarks : List Char :=
  "\\\"nrtfbu0123456789abcdef".toList

/-- A character stands for itself, or it is a control character, a quote or a backslash and is
escaped. -/
theorem escapeChar_marks (c : Char) :
    (escapeChar c = [c] ∧ 0x20 ≤ c.toNat) ∨
      ((c.toNat < 0x20 ∨ c = '\x22' ∨ c = '\\') ∧ escapeChar c ≠ [] ∧
        ∀ x ∈ escapeChar c, x ∈ escapeMarks) := by
  rcases Token.escapeChar_cases c with ⟨hself, hplain, -⟩ | ⟨e, he, hletter⟩ | ⟨hc, hhex⟩
  · exact .inl ⟨hself, hplain⟩
  · have hall : ∀ pair ∈ Token.escapes, pair.2 ∈ escapeMarks ∧
        (pair.1.toNat < 0x20 ∨ pair.1 = '\x22' ∨ pair.1 = '\\') := by decide
    obtain ⟨hmark, hescaped⟩ := hall (c, e) he
    rw [hletter]
    refine .inr ⟨hescaped, by simp, ?_⟩
    simp only [List.forall_mem_cons]
    exact ⟨by decide, hmark, nofun⟩
  · have hall : ∀ n < 0x20, hexDigits 4 n ⊆ escapeMarks := by decide
    rw [hhex]
    refine .inr ⟨.inl hc, by simp, ?_⟩
    simp only [List.forall_mem_cons]
    exact ⟨by decide, by decide, fun x hx => hall c.toNat hc hx⟩

section Uniform

variable {p q : Char → Bool} {spell : Char → List Char}

/-- The characters that spell `c` have the property `q` if and only if `c` has the property `p`. -/
def Uniform (spell : Char → List Char) (p q : Char → Bool) : Prop :=
  ∀ c, spell c ≠ [] ∧ ∀ x ∈ spell c, q x = p c

theorem Uniform.notMem {c d : Char} (h : Uniform spell (· != c) (· != c)) (hd : d ≠ c) :
    c ∉ spell d := by
  intro hc
  have hne := (h d).2 c hc
  simp [hd] at hne

theorem Uniform.reverse (h : Uniform spell p q) : Uniform (List.reverse ∘ spell) p q := by
  intro c
  obtain ⟨hne, hall⟩ := h c
  exact ⟨by simpa using hne, by simpa using hall⟩

/-- Spelling out the characters moves the first one without the property, and nothing else. -/
theorem Uniform.span (h : Uniform spell p q) (cs : List Char) :
    (cs.flatMap spell).takeWhile q = (cs.takeWhile p).flatMap spell ∧
      (cs.flatMap spell).dropWhile q = (cs.dropWhile p).flatMap spell := by
  induction cs with
  | nil => exact ⟨rfl, rfl⟩
  | cons c cs ih =>
      obtain ⟨hne, hall⟩ := h c
      rw [List.flatMap_cons]
      cases hp : p c with
      | true =>
          have hpos : ∀ x ∈ spell c, q x = true := fun x hx => (hall x hx).trans hp
          rw [List.takeWhile_append_of_pos hpos, List.dropWhile_append_of_pos hpos, ih.1, ih.2]
          simp [hp]
      | false =>
          obtain ⟨x, xs, hxs⟩ := List.exists_cons_of_ne_nil hne
          have hx : q x = false := (hall x (by simp [hxs])).trans hp
          simp [hp, hxs, hx]

theorem Uniform.trimWhile (h : Uniform spell p q) (cs : List Char) :
    Text.trimWhile q (cs.flatMap spell) = (Text.trimWhile p cs).flatMap spell := by
  rw [Text.trimWhile, (h.span cs).2, dropEndWhile, List.reverse_flatMap, (h.reverse.span _).2,
    List.reverse_flatMap]
  simp [Text.trimWhile, dropEndWhile, Function.comp_def]

theorem Uniform.afterLast {sep : Char} (h : Uniform spell (· != sep) (· != sep)) (cs : List Char) :
    Text.afterLast sep (cs.flatMap spell) = (Text.afterLast sep cs).flatMap spell := by
  rw [Text.afterLast, List.reverse_flatMap, (h.reverse.span _).1, List.reverse_flatMap]
  simp [Text.afterLast, Function.comp_def]

end Uniform

def isPlainBlank (c : Char) : Bool :=
  isBlank c && decide (0x20 ≤ c.toNat)

theorem uniform_blank : Uniform escapeChar isPlainBlank isBlank := by
  intro c
  rcases escapeChar_marks c with ⟨hself, hplain⟩ | ⟨hescaped, hne, hmarks⟩
  · simp [hself, isPlainBlank, hplain]
  · have hmark : escapeMarks.filter isBlank = [] := by decide
    have hblank : isPlainBlank c = false := by
      rcases hescaped with hcontrol | rfl | rfl
      · simp [isPlainBlank, hcontrol]
      · decide
      · decide
    refine ⟨hne, fun x hx => ?_⟩
    rw [hblank, Bool.eq_false_iff]
    exact List.filter_eq_nil_iff.1 hmark x (hmarks x hx)

theorem uniform_ne {c : Char} (hc : c ∉ escapeMarks) (hplain : 0x20 ≤ c.toNat) :
    Uniform escapeChar (· != c) (· != c) := by
  intro d
  rcases escapeChar_marks d with ⟨hself, -⟩ | ⟨hescaped, hne, hmarks⟩
  · simp [hself]
  · have hd : d ≠ c := by
      rintro rfl
      rcases hescaped with hcontrol | rfl | rfl
      · omega
      · exact hc (by decide)
      · exact hc (by decide)
    refine ⟨hne, fun x hx => ?_⟩
    have hx : x ≠ c := fun h => hc (h ▸ hmarks x hx)
    exact (bne_iff_ne.2 hx).trans (bne_iff_ne.2 hd).symm

end Text

namespace Template

variable {c : Char} {cs before after rest : List Char}

theorem cutAtPair_of_notMem (h : c ∉ cs) : cutAtPair c cs = none := by
  fun_induction cutAtPair c cs with
  | case1 rest => simp_all
  | case2 a b rest hab ih => simp_all
  | case3 => rfl

theorem cutAtPair_append (h : cutAtPair c cs = some (before, after)) (rest : List Char) :
    cutAtPair c (cs ++ rest) = some (before, after ++ rest) := by
  fun_induction cutAtPair c cs generalizing before with
  | case1 => simp_all [cutAtPair]
  | case2 a b cs hab ih =>
      obtain ⟨⟨x, y⟩, hxy, heq⟩ := Option.map_eq_some_iff.1 h
      cases heq
      have htail := ih hxy
      rw [List.cons_append] at htail
      simp [cutAtPair, hab, htail]
  | case3 => cases h

/-- A text without a pair does not hide one, unless it ends in half of it. -/
theorem cutAtPair_append_of_none (h : cutAtPair c cs = none)
    (hrest : cs.getLast? = some c → rest.head? ≠ some c) :
    cutAtPair c (cs ++ rest) = (cutAtPair c rest).map fun r => (cs ++ r.1, r.2) := by
  fun_induction cutAtPair c cs with
  | case1 => cases h
  | case2 a b cs hab ih =>
      have htail := ih (Option.map_eq_none_iff.1 h) (by simpa using hrest)
      rw [List.cons_append] at htail
      simp [cutAtPair, hab, htail, Function.comp_def]
  | case3 cs hcs =>
      rcases cs with - | ⟨a, - | ⟨b, cs⟩⟩
      · simp
      · rcases rest with - | ⟨b, rest⟩
        · simp [cutAtPair]
        · have hab : ¬ (a = c ∧ b = c) := by
            rintro ⟨rfl, rfl⟩
            simp at hrest
          simp [cutAtPair, hab]
      · exact absurd rfl (hcs a b cs)

section Spelled

variable {spell : Char → List Char} (hself : spell c = [c])
  (hspell : Text.Uniform spell (· != c) (· != c))

include hself hspell

theorem cutAtPair_spell {d : Char} (hd : d = c → rest.head? ≠ some c) :
    cutAtPair c (spell d ++ rest) = (cutAtPair c rest).map fun r => (spell d ++ r.1, r.2) := by
  by_cases h : d = c
  · subst h
    rw [hself]
    exact cutAtPair_append_of_none rfl fun _ => hd rfl
  · have hmem := hspell.notMem h
    exact cutAtPair_append_of_none (cutAtPair_of_notMem hmem) fun hlast =>
      absurd (List.mem_of_getLast? hlast) hmem

/-- Spelling out the characters leaves the pairs of `c` where they are if `c` stands for itself and
no other character is spelled with it. -/
theorem cutAtPair_flatMap (cs : List Char) :
    cutAtPair c (cs.flatMap spell) =
      (cutAtPair c cs).map fun r => (r.1.flatMap spell, r.2.flatMap spell) := by
  fun_induction cutAtPair c cs with
  | case1 a b rest hab =>
      obtain ⟨rfl, rfl⟩ := hab
      simp [hself, cutAtPair]
  | case2 a b rest hab ih =>
      have hhead : a = c → ((b :: rest).flatMap spell).head? ≠ some c := by
        rintro ha hhead
        have hmem := hspell.notMem fun hb => hab ⟨ha, hb⟩
        obtain ⟨x, xs, hxs⟩ := List.exists_cons_of_ne_nil (hspell b).1
        rw [List.flatMap_cons, hxs] at hhead
        cases hhead
        simp [hxs] at hmem
      rw [List.flatMap_cons, cutAtPair_spell hself hspell hhead, ih, Option.map_map, Option.map_map]
      rfl
  | case3 cs hcs =>
      rcases cs with - | ⟨a, - | ⟨b, cs⟩⟩
      · rfl
      · rw [List.flatMap_singleton, ← List.append_nil (spell a),
          cutAtPair_spell hself hspell (by simp)]
        rfl
      · exact absurd rfl (hcs a b cs)

end Spelled

/-! ### Texts in a row -/

theorem pieces_of_none (h : nextPlaceholder cs = none) : pieces cs = [.plain cs] := by
  rw [pieces]
  split
  · rfl
  · next hsome => rw [h] at hsome; cases hsome

theorem pieces_of_some {body : List Char} (h : nextPlaceholder cs = some (before, body, after)) :
    pieces cs = .plain before :: .placeholder body :: pieces after := by
  rw [pieces]
  split
  · next hnone => rw [h] at hnone; cases hnone
  · next hsome =>
      rw [h] at hsome
      cases hsome
      rfl

theorem nextPlaceholder_append {body : List Char}
    (h : nextPlaceholder cs = some (before, body, after)) (rest : List Char) :
    nextPlaceholder (cs ++ rest) = some (before, body, after ++ rest) := by
  simp only [nextPlaceholder, Option.bind_eq_some_iff, Option.map_eq_some_iff] at h
  obtain ⟨⟨x, y⟩, hopen, ⟨z, w⟩, hclose, heq⟩ := h
  cases heq
  simp [nextPlaceholder, cutAtPair_append hopen, cutAtPair_append hclose]

theorem nextPlaceholder_append_of_none (h : cutAtPair '\x7b' cs = none)
    (hrest : cs.getLast? = some '\x7b' → rest.head? ≠ some '\x7b') :
    nextPlaceholder (cs ++ rest) = (nextPlaceholder rest).map fun r => (cs ++ r.1, r.2) := by
  rw [nextPlaceholder, cutAtPair_append_of_none h hrest, nextPlaceholder]
  rcases cutAtPair '\x7b' rest with - | ⟨x, y⟩
  · rfl
  · simp [Function.comp_def]

theorem eq_of_cutAtPair (h : cutAtPair c cs = some (before, after)) :
    cs = before ++ c :: c :: after := by
  fun_induction cutAtPair c cs generalizing before with
  | case1 a b rest hab => simp_all
  | case2 a b rest hab ih =>
      obtain ⟨⟨x, y⟩, hxy, heq⟩ := Option.map_eq_some_iff.1 h
      cases heq
      simp [ih hxy]
  | case3 => cases h

/-- What stands behind a placeholder stands at the end of the text. -/
theorem suffix_of_nextPlaceholder {body : List Char}
    (h : nextPlaceholder cs = some (before, body, after)) : after <:+ cs := by
  simp only [nextPlaceholder, Option.bind_eq_some_iff, Option.map_eq_some_iff] at h
  obtain ⟨⟨x, y⟩, hopen, ⟨z, w⟩, hclose, heq⟩ := h
  cases heq
  have hclose : cutAtPair '\x7d' y = some (z, w) := hclose
  rw [eq_of_cutAtPair hopen, eq_of_cutAtPair hclose]
  exact ⟨x ++ '\x7b' :: '\x7b' :: (z ++ ['\x7d', '\x7d']), by simp⟩

/-- The end of a text without a pair has none. -/
theorem cutAtPair_of_append (lead : List Char) (h : cutAtPair c (lead ++ cs) = none) :
    cutAtPair c cs = none := by
  induction lead with
  | nil => exact h
  | cons a lead ih =>
      refine ih ?_
      rw [List.cons_append] at h
      generalize lead ++ cs = text at h
      rcases text with - | ⟨b, rest⟩
      · rfl
      · rw [cutAtPair] at h
        split at h
        · cases h
        · exact Option.map_eq_none_iff.1 h

/-- Without a closing pair there is no placeholder. -/
theorem nextPlaceholder_of_none (h : cutAtPair '\x7d' cs = none) : nextPlaceholder cs = none := by
  rw [nextPlaceholder]
  cases hopen : cutAtPair '\x7b' cs with
  | none => rfl
  | some next =>
      rw [eq_of_cutAtPair hopen] at h
      have hclose : cutAtPair '\x7d' next.2 = none :=
        cutAtPair_of_append (next.1 ++ ['\x7b', '\x7b']) (by simpa using h)
      simp [hclose]

def Piece.isClosed : Piece → Bool
  | .plain text => (cutAtPair '\x7b' text).isNone
  | .placeholder _ => true

/-- Whether every opening pair of a text is closed in it. -/
def closes (cs : List Char) : Bool :=
  (pieces cs).all Piece.isClosed

/-- With `rest` behind it, a text closes its placeholders or nothing does. -/
def Confined (cs rest : List Char) : Prop :=
  closes cs = true ∨ cutAtPair '\x7d' rest = none ∧ rest.head? ≠ some '\x7d'

/-- Behind such a text the pieces go on as if nothing stood before, but for the plain text between
the two. -/
theorem pieces_append (h : Confined cs rest)
    (hrest : cs.getLast? = some '\x7b' → rest.head? ≠ some '\x7b') :
    ∃ init last first more, pieces cs = init ++ [.plain last] ∧
      pieces rest = .plain first :: more ∧
      pieces (cs ++ rest) = init ++ .plain (last ++ first) :: more := by
  induction hlength : cs.length using Nat.strongRecOn generalizing cs with
  | ind n ih =>
      subst hlength
      cases hnext : nextPlaceholder cs with
      | none =>
          rw [pieces_of_none hnext]
          cases hopen : cutAtPair '\x7b' cs with
          | none =>
              have happend := nextPlaceholder_append_of_none hopen hrest
              cases hmore : nextPlaceholder rest with
              | none =>
                  rw [hmore] at happend
                  exact ⟨[], cs, rest, [], rfl, pieces_of_none hmore, pieces_of_none happend⟩
              | some next =>
                  rw [hmore] at happend
                  exact ⟨[], cs, next.1, _, rfl, pieces_of_some hmore, pieces_of_some happend⟩
          | some next =>
              -- A placeholder begins here, and its end is not to be found in `rest` either.
              obtain ⟨before, body⟩ := next
              have hbody : cutAtPair '\x7d' body = none := by
                simpa [nextPlaceholder, hopen] using hnext
              obtain hcloses | ⟨hno, hhead⟩ := h
              · rw [closes, pieces_of_none hnext] at hcloses
                simp [Piece.isClosed, hopen] at hcloses
              · have happend : nextPlaceholder (cs ++ rest) = none := by
                  simp [nextPlaceholder, cutAtPair_append hopen,
                    cutAtPair_append_of_none hbody fun _ => hhead, hno]
                exact ⟨[], cs, rest, [], rfl, pieces_of_none (nextPlaceholder_of_none hno),
                  pieces_of_none happend⟩
      | some next =>
          obtain ⟨before, body, after⟩ := next
          have hafter : Confined after rest := by
            refine h.imp_left fun hcloses => ?_
            rw [closes, pieces_of_some hnext] at hcloses
            simp only [List.all_cons, Bool.and_eq_true] at hcloses
            exact hcloses.2.2
          obtain ⟨lead, hlead⟩ := suffix_of_nextPlaceholder hnext
          obtain ⟨init, last, first, more, hpieces, hmore, hall⟩ :=
            ih after.length (length_nextPlaceholder hnext) hafter
              (fun hlast => hrest (by rw [← hlead, List.getLast?_append, hlast]; rfl)) rfl
          refine ⟨.plain before :: .placeholder body :: init, last, first, more, ?_, hmore, ?_⟩
          · rw [pieces_of_some hnext, hpieces]
            rfl
          · rw [pieces_of_some (nextPlaceholder_append hnext rest), hall]
            rfl

section Gathered

-- What is gathered from the pieces of a text, if it does not matter where plain text is cut.
variable {β : Type} {f : Piece → List β}
  (hf : ∀ a b, f (.plain (a ++ b)) = f (.plain a) ++ f (.plain b))

include hf

theorem gathered_append (h : Confined cs rest)
    (hrest : cs.getLast? = some '\x7b' → rest.head? ≠ some '\x7b') :
    (pieces (cs ++ rest)).flatMap f = (pieces cs).flatMap f ++ (pieces rest).flatMap f := by
  obtain ⟨init, last, first, more, hpieces, hmore, hall⟩ := pieces_append h hrest
  simp [hpieces, hmore, hall, hf]

theorem gathered_append_of_none (h : cutAtPair '\x7b' cs = none)
    (hrest : cs.getLast? = some '\x7b' → rest.head? ≠ some '\x7b') :
    (pieces (cs ++ rest)).flatMap f = f (.plain cs) ++ (pieces rest).flatMap f := by
  have hpieces : pieces cs = [.plain cs] := pieces_of_none (by rw [nextPlaceholder, h]; rfl)
  have hcloses : closes cs = true := by simp [closes, hpieces, Piece.isClosed, h]
  rw [gathered_append hf (.inl hcloses) hrest]
  simp [hpieces]

/-- Text without opening braces is plain. -/
theorem gathered_append_of_notMem (h : '\x7b' ∉ cs) (rest : List Char) :
    (pieces (cs ++ rest)).flatMap f = f (.plain cs) ++ (pieces rest).flatMap f :=
  gathered_append_of_none hf (cutAtPair_of_notMem h)
    fun hlast => absurd (List.mem_of_getLast? hlast) h

/-- A single opening brace is plain. -/
theorem gathered_brace (h : rest.head? ≠ some '\x7b') :
    (pieces ('\x7b' :: rest)).flatMap f = f (.plain ['\x7b']) ++ (pieces rest).flatMap f := by
  have hnone : cutAtPair '\x7b' ['\x7b'] = none := rfl
  exact gathered_append_of_none hf hnone fun _ => h

end Gathered

def resolveChars (cs : List Char) : List Char :=
  (pieces cs).flatMap Piece.write

/-- Text without opening braces is left as it is. -/
theorem resolveChars_append_of_notMem (h : '\x7b' ∉ cs) (rest : List Char) :
    resolveChars (cs ++ rest) = cs ++ resolveChars rest :=
  gathered_append_of_notMem (fun _ _ => rfl) h rest

/-! ### Escapes -/

def Piece.escape : Piece → Piece
  | .plain text => .plain (text.flatMap Text.escapeChar)
  | .placeholder body => .placeholder (body.flatMap Text.escapeChar)

theorem cutAtPair_escape (hc : c = '\x7b' ∨ c = '\x7d') (cs : List Char) :
    cutAtPair c (cs.flatMap Text.escapeChar) = (cutAtPair c cs).map fun r =>
      (r.1.flatMap Text.escapeChar, r.2.flatMap Text.escapeChar) := by
  rcases hc with rfl | rfl
  · exact cutAtPair_flatMap (by decide) (Text.uniform_ne (by decide) (by decide)) cs
  · exact cutAtPair_flatMap (by decide) (Text.uniform_ne (by decide) (by decide)) cs

theorem nextPlaceholder_escape (cs : List Char) :
    nextPlaceholder (cs.flatMap Text.escapeChar) = (nextPlaceholder cs).map fun r =>
      (r.1.flatMap Text.escapeChar, r.2.1.flatMap Text.escapeChar,
        r.2.2.flatMap Text.escapeChar) := by
  rw [nextPlaceholder, cutAtPair_escape (.inl rfl), nextPlaceholder]
  rcases cutAtPair '\x7b' cs with - | ⟨before, rest⟩
  · rfl
  · simp [cutAtPair_escape, Function.comp_def]

theorem pieces_escape (cs : List Char) :
    pieces (cs.flatMap Text.escapeChar) = (pieces cs).map Piece.escape := by
  induction hlength : cs.length using Nat.strongRecOn generalizing cs with
  | ind n ih =>
      subst hlength
      have hescape := nextPlaceholder_escape cs
      cases hnext : nextPlaceholder cs with
      | none =>
          rw [hnext] at hescape
          rw [pieces_of_none hescape, pieces_of_none hnext]
          rfl
      | some next =>
          obtain ⟨before, body, after⟩ := next
          rw [hnext] at hescape
          rw [pieces_of_some hescape, pieces_of_some hnext,
            ih after.length (length_nextPlaceholder hnext) after rfl]
          rfl

theorem closes_escape (cs : List Char) : closes (cs.flatMap Text.escapeChar) = closes cs := by
  rw [closes, pieces_escape, List.all_map, closes]
  congr 1
  funext piece
  cases piece with
  | plain text => simp [Piece.escape, Piece.isClosed, cutAtPair_escape]
  | placeholder body => rfl

/-- The name that a path refers to between quotes, where white space that is escaped belongs to the
name. -/
def quotedName (path : List Char) : List Char :=
  Text.afterLast '.' (Text.trimWhile Text.isPlainBlank path)

def Piece.writeQuoted : Piece → List Char
  | .plain text => text
  | .placeholder body => '$' :: '\x7b' :: quotedName body ++ ['\x7d']

def resolveQuoted (s : String) : String :=
  String.ofList ((pieces s.toList).flatMap Piece.writeQuoted)

theorem name_escape (path : List Char) :
    name (path.flatMap Text.escapeChar) = (quotedName path).flatMap Text.escapeChar := by
  have hdot : Text.Uniform Text.escapeChar (· != '.') (· != '.') :=
    Text.uniform_ne (by decide) (by decide)
  rw [name, Text.uniform_blank.trimWhile, hdot.afterLast, quotedName]

/-- Resolving a text between quotes gives a text between quotes. -/
theorem resolveChars_escape (s : String) :
    resolveChars (s.toList.flatMap Text.escapeChar) =
      (resolveQuoted s).toList.flatMap Text.escapeChar := by
  rw [resolveChars, pieces_escape, resolveQuoted, String.toList_ofList, List.flatMap_map,
    List.flatMap_assoc]
  congr 1
  funext piece
  cases piece with
  | plain text => rfl
  | placeholder body =>
      have hopen : Text.escapeChar '\x7b' = ['\x7b'] := by decide
      have hclose : Text.escapeChar '\x7d' = ['\x7d'] := by decide
      have hdollar : Text.escapeChar '$' = ['$'] := by decide
      simp [Piece.escape, Piece.write, Piece.writeQuoted, name_escape, hopen, hclose, hdollar]

end Template

namespace Template

@[simp] theorem resolveChars_nil : resolveChars [] = [] := by
  rw [resolveChars, pieces_of_none rfl]
  rfl

theorem resolveChars_cons {c : Char} (h : c ≠ '\x7b') (rest : List Char) :
    resolveChars (c :: rest) = c :: resolveChars rest := by
  have hc : '\x7b' ∉ [c] := by simpa using h.symm
  exact resolveChars_append_of_notMem hc rest

/-- A single opening brace is left as it is. -/
theorem resolveChars_brace {rest : List Char} (h : rest.head? ≠ some '\x7b') :
    resolveChars ('\x7b' :: rest) = '\x7b' :: resolveChars rest :=
  gathered_brace (fun _ _ => rfl) h

/-- Whether the placeholders of a text between quotes end in it, or nowhere: `rest` is what stands
behind the closing quote. -/
def isConfined (s : String) (rest : List Char) : Bool :=
  closes s.toList || (cutAtPair '\x7d' rest).isNone

theorem gathered_doubleQuoted {β : Type} {f : Piece → List β}
    (hf : ∀ a b, f (.plain (a ++ b)) = f (.plain a) ++ f (.plain b)) {s : String}
    {rest : List Char} (h : isConfined s rest = true) :
    (pieces (Text.doubleQuoted s ++ rest)).flatMap f =
      f (.plain ['\x22']) ++ ((pieces (s.toList.flatMap Text.escapeChar)).flatMap f ++
        (f (.plain ['\x22']) ++ (pieces rest).flatMap f)) := by
  have hconfined : Confined (s.toList.flatMap Text.escapeChar) ('\x22' :: rest) := by
    refine (Bool.or_eq_true_iff.1 h).imp (closes_escape s.toList).trans fun hnone => ⟨?_, by simp⟩
    have hquote : '\x7d' ∉ ['\x22'] := by decide
    rw [← List.singleton_append, cutAtPair_append_of_none (cutAtPair_of_notMem hquote) (by simp),
      Option.isNone_iff_eq_none.1 hnone]
    rfl
  have hquote (rest : List Char) :
      (pieces ('\x22' :: rest)).flatMap f = f (.plain ['\x22']) ++ (pieces rest).flatMap f := by
    have hbrace : '\x7b' ∉ ['\x22'] := by decide
    exact gathered_append_of_notMem hf hbrace rest
  simp only [Text.doubleQuoted, List.cons_append, List.append_assoc, List.nil_append]
  rw [hquote, gathered_append hf hconfined (by simp), hquote]

theorem resolveChars_doubleQuoted {s : String} {rest : List Char} (h : isConfined s rest = true) :
    resolveChars (Text.doubleQuoted s ++ rest) =
      Text.doubleQuoted (resolveQuoted s) ++ resolveChars rest := by
  rw [resolveChars, gathered_doubleQuoted (fun _ _ => rfl) h, ← resolveChars, resolveChars_escape]
  simp [Text.doubleQuoted, Piece.write, resolveChars]

end Template

namespace Value

open EventFlow.Template

mutual

/-- Whether, with `rest` behind the value, every placeholder in its spelling ends in the text where
it begins. -/
def isConfined (rest : List Char) : Value → Bool
  | .text s => Template.isConfined s rest
  | .list items => itemsConfined (']' :: rest) items
  | .object fields => fieldsConfined ('\x7d' :: rest) fields
  | _ => true

def itemsConfined (rest : List Char) : List Value → Bool
  | [] => true
  | v :: items =>
    v.isConfined (Text.following (writeItems jsonSpelling items) ++ rest) &&
      itemsConfined rest items

def fieldsConfined (rest : List Char) : List (String × Value) → Bool
  | [] => true
  | (k, v) :: fields =>
    Template.isConfined k (':' :: ' ' ::
        (write jsonSpelling v ++ (Text.following (writeFields jsonSpelling fields) ++ rest))) &&
      v.isConfined (Text.following (writeFields jsonSpelling fields) ++ rest) &&
      fieldsConfined rest fields

end

mutual

def mapTexts (f : String → String) : Value → Value
  | .text s => .text (f s)
  | .list items => .list (mapItems f items)
  | .object fields => .object (mapFields f fields)
  | v => v

def mapItems (f : String → String) : List Value → List Value
  | [] => []
  | v :: rest => v.mapTexts f :: mapItems f rest

def mapFields (f : String → String) : List (String × Value) → List (String × Value)
  | [] => []
  | (k, v) :: rest => (f k, v.mapTexts f) :: mapFields f rest

end

theorem resolveChars_member {key : String} {rest : List Char}
    (h : Template.isConfined key (':' :: ' ' :: rest) = true) :
    resolveChars (jsonSpelling.text key ++ ':' :: ' ' :: rest) =
      jsonSpelling.text (resolveQuoted key) ++ ':' :: ' ' :: resolveChars rest := by
  rw [jsonSpelling, resolveChars_doubleQuoted h, resolveChars_cons (by decide),
    resolveChars_cons (by decide)]

mutual

/-- A value whose placeholders are confined to its texts is resolved text by text. -/
theorem resolveChars_write {v : Value} {rest : List Char} (h : v.isConfined rest = true) :
    resolveChars (write jsonSpelling v ++ rest) =
      write jsonSpelling (v.mapTexts resolveQuoted) ++ resolveChars rest := by
  cases v with
  | null => exact resolveChars_append_of_notMem (by decide) rest
  | bool b => cases b <;> exact resolveChars_append_of_notMem (by decide) rest
  | number n => exact resolveChars_append_of_notMem (n.notMem_write (by decide) (by decide)) rest
  | text s => exact resolveChars_doubleQuoted h
  | list items =>
      simp only [write, mapTexts, List.cons_append, List.append_assoc, List.nil_append]
      rw [resolveChars_cons (by decide)]
      cases items with
      | nil => exact congrArg _ (resolveChars_cons (by decide) rest)
      | cons v items =>
          simp only [isConfined, itemsConfined, Bool.and_eq_true] at h
          simp only [writeItems, mapItems, Text.join_cons_eq, List.append_assoc]
          rw [resolveChars_write h.1, resolveChars_writeItems h.2, resolveChars_cons (by decide)]
  | object fields =>
      simp only [write, mapTexts, List.cons_append, List.append_assoc, List.nil_append]
      cases fields with
      | nil =>
          exact (resolveChars_brace (by simp [writeFields, Text.join])).trans
            (congrArg _ (resolveChars_cons (by decide) rest))
      | cons field fields =>
          simp only [isConfined, fieldsConfined, Bool.and_eq_true] at h
          simp only [writeFields, mapFields, Text.join_cons_eq, List.append_assoc, List.cons_append]
          rw [resolveChars_brace (by simp [jsonSpelling, Text.doubleQuoted]),
            resolveChars_member h.1.1, resolveChars_write h.1.2, resolveChars_writeFields h.2,
            resolveChars_cons (by decide)]

theorem resolveChars_writeItems {items : List Value} {rest : List Char}
    (h : itemsConfined rest items = true) :
    resolveChars (Text.following (writeItems jsonSpelling items) ++ rest) =
      Text.following (writeItems jsonSpelling (mapItems resolveQuoted items)) ++
        resolveChars rest := by
  cases items with
  | nil => rfl
  | cons v items =>
      rw [itemsConfined, Bool.and_eq_true] at h
      simp only [writeItems, mapItems, Text.following_cons, List.cons_append, List.append_assoc]
      rw [resolveChars_cons (by decide), resolveChars_cons (by decide), resolveChars_write h.1,
        resolveChars_writeItems h.2]

theorem resolveChars_writeFields {fields : List (String × Value)} {rest : List Char}
    (h : fieldsConfined rest fields = true) :
    resolveChars (Text.following (writeFields jsonSpelling fields) ++ rest) =
      Text.following (writeFields jsonSpelling (mapFields resolveQuoted fields)) ++
        resolveChars rest := by
  cases fields with
  | nil => rfl
  | cons field fields =>
      simp only [fieldsConfined, Bool.and_eq_true] at h
      simp only [writeFields, mapFields, Text.following_cons, List.cons_append, List.append_assoc]
      rw [resolveChars_cons (by decide), resolveChars_cons (by decide),
        resolveChars_member h.1.1, resolveChars_write h.1.2, resolveChars_writeFields h.2]

end

mutual

theorem isWritable_mapTexts (f : String → String) (v : Value) :
    (v.mapTexts f).isWritable = v.isWritable := by
  cases v with
  | list items => exact itemsWritable_mapItems f items
  | object fields => exact fieldsWritable_mapFields f fields
  | _ => rfl

theorem itemsWritable_mapItems (f : String → String) (items : List Value) :
    itemsWritable (mapItems f items) = itemsWritable items := by
  cases items with
  | nil => rfl
  | cons v items =>
      simp only [mapItems, itemsWritable, isWritable_mapTexts f v, itemsWritable_mapItems f items]

theorem fieldsWritable_mapFields (f : String → String) (fields : List (String × Value)) :
    fieldsWritable (mapFields f fields) = fieldsWritable fields := by
  cases fields with
  | nil => rfl
  | cons field fields =>
      simp only [mapFields, fieldsWritable, isWritable_mapTexts f field.2,
        fieldsWritable_mapFields f fields]

end

theorem resolve_json {v : Value} (h : v.isConfined [] = true) :
    (Template.resolve v.json).value = (v.mapTexts resolveQuoted).json := by
  have hwrite := resolveChars_write h
  rw [List.append_nil, resolveChars_nil, List.append_nil] at hwrite
  show String.ofList (resolveChars (String.ofList (write jsonSpelling v)).toList) = _
  rw [String.toList_ofList, hwrite, json]

/-- Whether a value is resolved text by text: a list or an object must be written for it, and no
placeholder in it may reach from one text into another. -/
def isResolvable : Value → Bool
  | .list items => (Value.list items).isWritable && (Value.list items).isConfined []
  | .object fields => (Value.object fields).isWritable && (Value.object fields).isConfined []
  | _ => true

/-- Lists and objects are resolved text by text, and read back from that. -/
theorem resolve_nested {v : Value} (hv : (∃ items, v = .list items) ∨ ∃ fields, v = .object fields)
    (hwritable : v.isWritable = true) (hconfined : v.isConfined [] = true) :
    v.resolve =
      .ok ⟨(v.mapTexts resolveQuoted).reread, (Template.resolve v.json).names⟩ := by
  have hread : read (Template.resolve v.json).value = .ok (v.mapTexts resolveQuoted).reread := by
    rw [resolve_json hconfined]
    exact read_json ((isWritable_mapTexts _ v).trans hwritable)
  have hjson : v.json? = .ok v.json := if_pos hwritable
  rcases hv with ⟨items, rfl⟩ | ⟨fields, rfl⟩ <;>
    simp only [resolve, hjson, bind, Except.bind, hread]

/-- A resolvable value is resolved, and what comes out is a text only if it was one. -/
theorem exists_resolve_eq {v : Value} (h : v.isResolvable = true) :
    ∃ r, v.resolve = .ok r ∧ (v.isWritable = true → r.value.isWritable = true) ∧
      ∀ s, r.value = .text s →
        ∃ template, v = .text template ∧ s = (Template.resolve template).value := by
  have hreread (v : Value) (hv : v.isWritable = true) :
      (v.mapTexts resolveQuoted).reread.isWritable = true :=
    isWritable_reread ((isWritable_mapTexts _ v).trans hv)
  cases v with
  | list items =>
      obtain ⟨hwritable, hconfined⟩ := Bool.and_eq_true_iff.1 h
      exact ⟨_, resolve_nested (.inl ⟨items, rfl⟩) hwritable hconfined, hreread (.list items),
        fun s hs => by cases hs⟩
  | object fields =>
      obtain ⟨hwritable, hconfined⟩ := Bool.and_eq_true_iff.1 h
      exact ⟨_, resolve_nested (.inr ⟨fields, rfl⟩) hwritable hconfined, hreread (.object fields),
        fun s hs => by cases hs⟩
  | text s => exact ⟨_, rfl, fun _ => rfl, fun t ht => ⟨s, rfl, (Value.text.inj ht).symm⟩⟩
  | null => exact ⟨_, rfl, id, fun s hs => by cases hs⟩
  | bool b => exact ⟨_, rfl, id, fun s hs => by cases hs⟩
  | number n => exact ⟨_, rfl, id, fun s hs => by cases hs⟩

end Value

end EventFlow
