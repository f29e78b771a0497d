import EventFlow.Proofs.InPlace

/-!
Rewriting a template in place.

A text is cut in one way only if every opening pair is the first one behind the last placeholder and
every closing pair the first one behind its opening pair (`Cut.IsFirst`). Resolving writes a
reference for each placeholder of this cut. The same comes of a loop that rewrites the text in
place (`Rewriting`): a round looks for braces only behind the reference of the round before, so the
loop makes one round for each placeholder and then stops (`rounds_text`).
-/

namespace EventFlow

namespace Names

/-- Adding names appends the new ones, each where it is seen first. -/
theorem addAll_eq_append (names more : List String) :
    addAll names more = names ++ (more.filter (· ∉ names)).eraseDups := by
  induction more generalizing names with
  | nil => simp [addAll]
  | cons name more ih =>
      change addAll (add names name) more = _
      by_cases h : name ∈ names
      · rw [add, if_pos h, ih, List.filter_cons_of_neg (by simpa using h)]
      · rw [add, if_neg h, ih, List.filter_cons_of_pos (by simpa using h), List.eraseDups_cons,
          List.filter_filter, List.append_assoc, List.singleton_append]
        congr 4
        funext x
        by_cases hx : x = name <;> simp [hx]

theorem addAll_nil (more : List String) : addAll [] more = more.eraseDups := by
  rw [addAll_eq_append, List.nil_append, List.filter_eq_self.2 (by simp)]

end Names

namespace Text

variable {p : Char → Bool} {cs : List Char}

theorem any_head?_dropWhile (p : Char → Bool) (cs : List Char) :
    (cs.dropWhile p).head?.any p = false := by
  have hhead := List.head?_dropWhile_not p cs
  cases h : (cs.dropWhile p).head? with
  | none => rfl
  | some c =>
      rw [h] at hhead
      simpa using hhead

/-- The end of a text that is dropped, and the beginning that is left. -/
theorem dropEndWhile_append (p : Char → Bool) (cs : List Char) :
    dropEndWhile p cs ++ (cs.reverse.takeWhile p).reverse = cs := by
  rw [dropEndWhile, ← List.reverse_append, List.takeWhile_append_dropWhile, List.reverse_reverse]

/-- Trimming takes a text out of what surrounds it, and leaves nothing of that at its ends. -/
theorem exists_trimWhile (p : Char → Bool) (cs : List Char) :
    ∃ lead trail, cs = lead ++ trimWhile p cs ++ trail ∧ (∀ c ∈ lead ++ trail, p c = true) ∧
      (trimWhile p cs).head?.any p = false ∧ (trimWhile p cs).getLast?.any p = false := by
  have hend := dropEndWhile_append p (cs.dropWhile p)
  refine ⟨cs.takeWhile p, ((cs.dropWhile p).reverse.takeWhile p).reverse, ?_, ?_, ?_, ?_⟩
  · rw [List.append_assoc, trimWhile, hend, List.takeWhile_append_dropWhile]
  · intro c hc
    rw [List.mem_append, List.mem_reverse] at hc
    exact hc.elim (List.all_eq_true.1 List.all_takeWhile c)
      (List.all_eq_true.1 List.all_takeWhile c)
  · have hhead := any_head?_dropWhile p cs
    rw [← hend, List.head?_append] at hhead
    rw [trimWhile]
    cases h : (dropEndWhile p (cs.dropWhile p)).head? with
    | none => rfl
    | some c =>
        rw [h] at hhead
        exact hhead
  · rw [trimWhile, dropEndWhile, List.getLast?_reverse]
    exact any_head?_dropWhile p _

/-- What stands behind the last separator, if there is one. -/
theorem exists_afterLast (sep : Char) (cs : List Char) :
    sep ∉ afterLast sep cs ∧
      (cs = afterLast sep cs ∨ ∃ before, cs = before ++ sep :: afterLast sep cs) := by
  have hend := dropEndWhile_append (· != sep) cs
  refine ⟨fun hmem => ?_, ?_⟩
  · have hne := List.all_eq_true.1 List.all_takeWhile sep (List.mem_reverse.1 hmem)
    simp at hne
  · cases hrest : cs.reverse.dropWhile (· != sep) with
    | nil =>
        rw [dropEndWhile, hrest] at hend
        exact .inl hend.symm
    | cons c rest =>
        have hhead := any_head?_dropWhile (· != sep) cs.reverse
        rw [hrest] at hhead
        obtain rfl : c = sep := by simpa using hhead
        rw [dropEndWhile, hrest, List.reverse_cons, List.append_assoc] at hend
        exact .inr ⟨rest.reverse, hend.symm⟩

end Text

namespace Template

/-- The name that a path refers to is what stands behind its last dot, white space around the path
left out. -/
def IsNameOf (path name : List Char) : Prop :=
  ∃ lead core trail, path = lead ++ core ++ trail ∧
    (∀ c ∈ lead ++ trail, Text.isBlank c = true) ∧
    core.head?.any Text.isBlank = false ∧ core.getLast?.any Text.isBlank = false ∧
    '.' ∉ name ∧ (core = name ∨ ∃ before, core = before ++ '.' :: name)

theorem isNameOf_name (path : List Char) : IsNameOf path (name path) := by
  obtain ⟨lead, trail, hpath, hblank, hhead, hlast⟩ := Text.exists_trimWhile Text.isBlank path
  obtain ⟨hdot, hname⟩ := Text.exists_afterLast '.' (Text.trimWhile Text.isBlank path)
  exact ⟨lead, _, trail, hpath, hblank, hhead, hlast, hdot, hname⟩

/-! ### Pairs of braces -/

section Pairs

variable {c : Char} {cs before after : List Char}

theorem cutAtPair_eq_none_iff : cutAtPair c cs = none ↔ ¬ [c, c] <:+: cs := by
  refine ⟨?_, cutAtPair_eq_none⟩
  rintro h ⟨before, after, rfl⟩
  rw [List.append_assoc] at h
  have hpair : cutAtPair c (c :: c :: after) = none := cutAtPair_of_append before h
  simp [cutAtPair] at hpair

/-- A text is cut at the first pair, which not even the text before it and half of it hide. -/
theorem cutAtPair_eq_some_iff :
    cutAtPair c cs = some (before, after) ↔
      cs = before ++ c :: c :: after ∧ ¬ [c, c] <:+: before ++ [c] := by
  constructor
  · intro h
    refine ⟨eq_of_cutAtPair h, ?_⟩
    fun_induction cutAtPair c cs generalizing before with
    | case1 a b rest hab =>
        cases h
        exact fun hpair => by simpa using hpair.length_le
    | case2 a b rest hab ih =>
        obtain ⟨cut, hcut, heq⟩ := Option.map_eq_some_iff.1 h
        cases heq
        have htail : b :: rest = cut.1 ++ c :: c :: cut.2 := eq_of_cutAtPair hcut
        rw [List.cons_append, List.infix_cons_iff]
        rintro (hpair | hpair)
        · -- The pair would begin with `a`, and `b` is the character behind it.
          obtain ⟨more, hmore⟩ := hpair
          have hb : (cut.1 ++ [c]).head? = some b := by
            cases hlead : cut.1 with
            | nil => simp_all
            | cons d ds => simp_all
          rw [List.cons_append, List.cons.injEq] at hmore
          rw [← hmore.2] at hb
          exact hab ⟨hmore.1.symm, (Option.some.inj hb).symm⟩
        · exact ih hcut hpair
    | case3 => cases h
  · rintro ⟨rfl, hfirst⟩
    have hbefore : cutAtPair c before = none :=
      cutAtPair_eq_none fun hpair => hfirst (hpair.trans (List.infix_append' [] before [c]))
    rw [cutAtPair_append_of_none hbefore]
    · simp [cutAtPair]
    · intro hlast
      obtain ⟨lead, rfl⟩ := List.getLast?_eq_some_iff.1 hlast
      exact absurd ⟨lead, [], by simp⟩ hfirst

/-- What stands behind some pair stands behind the first one. -/
theorem exists_cutAtPair (before after : List Char) :
    ∃ cut, cutAtPair c (before ++ c :: c :: after) = some cut ∧ after <:+ cut.2 := by
  induction before with
  | nil => exact ⟨([], after), by simp [cutAtPair], List.suffix_rfl⟩
  | cons a before ih =>
      obtain ⟨cut, hcut, hsuffix⟩ := ih
      obtain ⟨b, rest, hrest⟩ : ∃ b rest, before ++ c :: c :: after = b :: rest :=
        List.exists_cons_of_ne_nil (by simp)
      rw [List.cons_append, hrest, cutAtPair]
      split
      · have hafter : after <:+ (before ++ c :: c :: after).tail := by
          cases before with
          | nil => exact List.suffix_cons c after
          | cons d ds => exact ⟨ds ++ [c, c], by simp⟩
        rw [hrest] at hafter
        exact ⟨([], rest), rfl, hafter⟩
      · rw [← hrest, hcut]
        exact ⟨_, rfl, hsuffix⟩

theorem nextPlaceholder_eq_some_iff {body : List Char} :
    nextPlaceholder cs = some (before, body, after) ↔
      cs = before ++ '\x7b' :: '\x7b' :: (body ++ '\x7d' :: '\x7d' :: after) ∧
        ¬ ['\x7b', '\x7b'] <:+: before ++ ['\x7b'] ∧ ¬ ['\x7d', '\x7d'] <:+: body ++ ['\x7d'] := by
  simp only [nextPlaceholder, Option.bind_eq_some_iff, Option.map_eq_some_iff, Prod.exists,
    Prod.mk.injEq, cutAtPair_eq_some_iff]
  constructor
  · rintro ⟨_, rest, ⟨rfl, hopen⟩, _, _, ⟨rfl, hclose⟩, rfl, rfl, rfl⟩
    exact ⟨rfl, hopen, hclose⟩
  · rintro ⟨rfl, hopen, hclose⟩
    exact ⟨before, _, ⟨rfl, hopen⟩, body, after, ⟨rfl, hclose⟩, rfl, rfl, rfl⟩

/-- There is no placeholder if no opening pair is followed by a closing one. -/
theorem nextPlaceholder_eq_none_iff :
    nextPlaceholder cs = none ↔
      ∀ before after, cs = before ++ '\x7b' :: '\x7b' :: after → ¬ ['\x7d', '\x7d'] <:+: after := by
  rw [nextPlaceholder, Option.bind_eq_none_iff]
  constructor
  · rintro h before after rfl hclose
    obtain ⟨cut, hcut, hafter⟩ := exists_cutAtPair (c := '\x7b') before after
    have hnone := cutAtPair_eq_none_iff.1 (Option.map_eq_none_iff.1 (h cut hcut))
    exact hnone (hclose.trans hafter.isInfix)
  · intro h cut hcut
    rw [Option.map_eq_none_iff, cutAtPair_eq_none_iff]
    exact h cut.1 cut.2 (eq_of_cutAtPair hcut)

end Pairs

/-! ### Cuts -/

/-- A text as placeholders, each with the plain text before it, and what is left behind the last
one. -/
structure Cut where
  parts : List (List Char × List Char)
  rest : List Char

namespace Cut

/-- The text that is cut: each placeholder is a body between two pairs of braces. -/
def text (c : Cut) : List Char :=
  (c.parts.flatMap fun part => part.1 ++ '\x7b' :: '\x7b' :: (part.2 ++ ['\x7d', '\x7d'])) ++ c.rest

def writtenParts (c : Cut) : List Char :=
  c.parts.flatMap fun part => part.1 ++ '$' :: '\x7b' :: (name part.2 ++ ['\x7d'])

def written (c : Cut) : List Char :=
  c.writtenParts ++ c.rest

def names (c : Cut) : List String :=
  (c.parts.map fun part => String.ofList (name part.2)).filter (· ≠ "")

/-- Every opening pair is the first one from the end of the last placeholder, and every closing pair
the first one behind its opening pair. Behind the last placeholder no opening pair is closed. -/
structure IsFirst (c : Cut) : Prop where
  opens : ∀ part ∈ c.parts, ¬ ['\x7b', '\x7b'] <:+: part.1 ++ ['\x7b']
  closes : ∀ part ∈ c.parts, ¬ ['\x7d', '\x7d'] <:+: part.2 ++ ['\x7d']
  rest : ∀ before after, c.rest = before ++ '\x7b' :: '\x7b' :: after → ¬ ['\x7d', '\x7d'] <:+: after

def pieces (c : Cut) : List Piece :=
  (c.parts.flatMap fun part => [.plain part.1, .placeholder part.2]) ++ [.plain c.rest]

variable {part : List Char × List Char} {parts : List (List Char × List Char)} {rest : List Char}

@[simp] theorem text_nil : text ⟨[], rest⟩ = rest := rfl

@[simp] theorem text_cons :
    text ⟨part :: parts, rest⟩ =
      part.1 ++ '\x7b' :: '\x7b' :: (part.2 ++ '\x7d' :: '\x7d' :: text ⟨parts, rest⟩) := by
  simp [text]

@[simp] theorem writtenParts_cons :
    writtenParts ⟨part :: parts, rest⟩ =
      part.1 ++ '$' :: '\x7b' :: (name part.2 ++ '\x7d' :: writtenParts ⟨parts, rest⟩) := by
  simp [writtenParts]

theorem names_cons :
    names ⟨part :: parts, rest⟩ =
      (Piece.name? (.placeholder part.2)).toList ++ names ⟨parts, rest⟩ := by
  rw [names, List.map_cons, Piece.name?]
  cases hname : name part.2 with
  | nil => rfl
  | cons d ds =>
      rw [List.filter_cons_of_pos (by simp)]
      rfl

@[simp] theorem pieces_cons :
    pieces ⟨part :: parts, rest⟩ = .plain part.1 :: .placeholder part.2 :: pieces ⟨parts, rest⟩ :=
  rfl

theorem isFirst_nil : IsFirst ⟨[], rest⟩ ↔ nextPlaceholder rest = none := by
  rw [nextPlaceholder_eq_none_iff]
  exact ⟨fun h => h.rest, fun h => ⟨by simp, by simp, h⟩⟩

theorem isFirst_cons :
    IsFirst ⟨part :: parts, rest⟩ ↔
      nextPlaceholder (text ⟨part :: parts, rest⟩) =
        some (part.1, part.2, text ⟨parts, rest⟩) ∧ IsFirst ⟨parts, rest⟩ := by
  rw [nextPlaceholder_eq_some_iff, text_cons]
  constructor
  · rintro ⟨hopens, hcloses, hrest⟩
    rw [List.forall_mem_cons] at hopens hcloses
    exact ⟨⟨rfl, hopens.1, hcloses.1⟩, hopens.2, hcloses.2, hrest⟩
  · rintro ⟨⟨-, hopen, hclose⟩, hopens, hcloses, hrest⟩
    exact ⟨List.forall_mem_cons.2 ⟨hopen, hopens⟩, List.forall_mem_cons.2 ⟨hclose, hcloses⟩, hrest⟩

/-- The pieces of a text are those of its cut. -/
theorem IsFirst.pieces_text {c : Cut} (h : c.IsFirst) : Template.pieces c.text = c.pieces := by
  obtain ⟨parts, rest⟩ := c
  induction parts with
  | nil => exact pieces_of_none (isFirst_nil.1 h)
  | cons part parts ih =>
      obtain ⟨hnext, hparts⟩ := isFirst_cons.1 h
      rw [pieces_of_some hnext, ih hparts, pieces_cons]

theorem pieces_injective {c c' : Cut} (h : c.pieces = c'.pieces) : c = c' := by
  obtain ⟨parts, rest⟩ := c
  obtain ⟨parts', rest'⟩ := c'
  induction parts generalizing parts' with
  | nil =>
      cases parts' with
      | nil =>
          cases h
          rfl
      | cons part' parts' => cases h
  | cons part parts ih =>
      cases parts' with
      | nil => cases h
      | cons part' parts' =>
          simp only [pieces_cons, List.cons.injEq, Piece.plain.injEq, Piece.placeholder.injEq] at h
          obtain ⟨hplain, hbody, hparts⟩ := h
          cases ih parts' hparts
          rw [Prod.ext hplain hbody]

theorem IsFirst.unique {c c' : Cut} (h : c.IsFirst) (h' : c'.IsFirst) (htext : c'.text = c.text) :
    c' = c :=
  pieces_injective (by rw [← h.pieces_text, ← h'.pieces_text, htext])

/-- Every text can be cut. -/
theorem exists_isFirst (cs : List Char) : ∃ c : Cut, c.text = cs ∧ c.IsFirst := by
  induction hlength : cs.length using Nat.strongRecOn generalizing cs with
  | ind n ih =>
      subst hlength
      cases hnext : nextPlaceholder cs with
      | none => exact ⟨⟨[], cs⟩, rfl, isFirst_nil.2 hnext⟩
      | some next =>
          obtain ⟨before, body, after⟩ := next
          obtain ⟨⟨parts, rest⟩, hafter, hparts⟩ :=
            ih after.length (length_nextPlaceholder hnext) after rfl
          have htext : text ⟨(before, body) :: parts, rest⟩ = cs := by
            rw [text_cons, hafter]
            exact (nextPlaceholder_eq_some_iff.1 hnext).1.symm
          refine ⟨⟨(before, body) :: parts, rest⟩, htext, isFirst_cons.2 ⟨?_, hparts⟩⟩
          rw [htext, hafter, hnext]

theorem flatMap_write_pieces (c : Cut) : c.pieces.flatMap Piece.write = c.written := by
  obtain ⟨parts, rest⟩ := c
  induction parts with
  | nil => simp [pieces, written, writtenParts, Piece.write]
  | cons part parts ih =>
      rw [pieces_cons, List.flatMap_cons, List.flatMap_cons, ih]
      simp [written, Piece.write]

theorem filterMap_name?_pieces (c : Cut) : c.pieces.filterMap Piece.name? = c.names := by
  obtain ⟨parts, rest⟩ := c
  induction parts with
  | nil => rfl
  | cons part parts ih =>
      rw [pieces_cons, names_cons, List.filterMap_cons_none rfl, List.filterMap_cons, ih]
      cases (Piece.placeholder part.2).name? <;> rfl

/-- Resolving writes the references of the cut. -/
theorem IsFirst.resolve_eq {c : Cut} {t : String} (h : c.IsFirst) (ht : c.text = t.toList) :
    resolve t = ⟨String.ofList c.written, c.names.eraseDups⟩ := by
  rw [resolve, ← ht, h.pieces_text, flatMap_write_pieces, filterMap_name?_pieces, Names.addAll_nil]

end Cut

/-! ### Rewriting in place -/

/-- A text that is rewritten in place. Up to `position` it is done; `names` has the names so far. -/
structure Rewriting where
  text : List Char
  position : Nat
  names : List String

def pairFrom? (c : Char) (text : List Char) (start : Nat) : Option Nat :=
  (List.range' start (text.length - start)).find? fun i =>
    text[i]? == some c && text[i + 1]? == some c

namespace Rewriting

/-- One round: the next placeholder is replaced by a reference, and the position moves behind it.
There is none if no pair of braces from the position on is closed. -/
def round? (r : Rewriting) : Option Rewriting :=
  (pairFrom? '\x7b' r.text r.position).bind fun first =>
    (pairFrom? '\x7d' r.text (first + 2)).map fun last =>
      let name := name ((r.text.take last).drop (first + 2))
      let reference := '$' :: '\x7b' :: (name ++ ['\x7d'])
      { text := r.text.take first ++ reference ++ r.text.drop (last + 2)
        position := first + reference.length
        names := if name = [] then r.names else Names.add r.names (String.ofList name) }

def rounds : Nat → Rewriting → Option Rewriting
  | 0, r => some r
  | n + 1, r => r.round?.bind (rounds n)

end Rewriting

theorem pairFrom?_append (c : Char) (done todo : List Char) :
    pairFrom? c (done ++ todo) done.length =
      (cutAtPair c todo).map fun cut => done.length + cut.1.length := by
  fun_induction cutAtPair c todo generalizing done with
  | case1 a b rest hab =>
      obtain ⟨rfl, rfl⟩ := hab
      simp [pairFrom?, List.range'_succ]
  | case2 a b rest hab ih =>
      have hplaces : List.range' done.length ((done ++ a :: b :: rest).length - done.length) =
          done.length :: List.range' (done ++ [a]).length
            ((done ++ [a] ++ b :: rest).length - (done ++ [a]).length) := by
        have hcount : (done ++ [a] ++ b :: rest).length - (done ++ [a]).length = rest.length + 1 := by
          rw [List.length_append, Nat.add_sub_cancel_left, List.length_cons]
        rw [hcount, List.length_append, Nat.add_sub_cancel_left, List.length_append]
        rfl
      have htext : done ++ a :: b :: rest = done ++ [a] ++ b :: rest := by simp
      rw [pairFrom?, hplaces, List.find?_cons_of_neg (by simpa using hab), htext]
      refine (ih (done ++ [a])).trans ?_
      cases cutAtPair c (b :: rest) with
      | none => rfl
      | some cut =>
          simp only [Option.map_some, List.length_append, List.length_cons, List.length_nil]
          congr 1
          omega
  | case3 todo htodo =>
      rcases todo with - | ⟨a, - | ⟨b, rest⟩⟩
      · simp [pairFrom?]
      · simp [pairFrom?]
      · exact absurd rfl (htodo a b rest)

namespace Rewriting

/-- A round deals with the next placeholder behind the position, whatever stands before. -/
theorem round?_append (done todo : List Char) (names : List String) :
    round? ⟨done ++ todo, done.length, names⟩ = (nextPlaceholder todo).map fun next =>
      let written := done ++ next.1 ++ '$' :: '\x7b' :: (name next.2.1 ++ ['\x7d'])
      ⟨written ++ next.2.2, written.length,
        Names.addAll names (Piece.name? (.placeholder next.2.1)).toList⟩ := by
  rw [round?, pairFrom?_append, nextPlaceholder]
  cases hopen : cutAtPair '\x7b' todo with
  | none => rfl
  | some cut =>
      obtain ⟨before, rest⟩ := cut
      obtain rfl := eq_of_cutAtPair hopen
      have htext : done ++ (before ++ '\x7b' :: '\x7b' :: rest) =
          (done ++ before ++ ['\x7b', '\x7b']) ++ rest := by simp
      have hlength : done.length + before.length + 2 =
          (done ++ before ++ ['\x7b', '\x7b']).length := by simp [Nat.add_assoc]
      simp only [Option.map_some, Option.bind_some]
      rw [hlength, htext, pairFrom?_append]
      cases hclose : cutAtPair '\x7d' rest with
      | none => rfl
      | some cut =>
          obtain ⟨body, after⟩ := cut
          obtain rfl := eq_of_cutAtPair hclose
          generalize hopened : done ++ before ++ ['\x7b', '\x7b'] = opened
          have hfirst : (opened ++ (body ++ '\x7d' :: '\x7d' :: after)).take
              (done.length + before.length) = done ++ before := by
            rw [← hopened, List.append_assoc (done ++ before)]
            exact List.take_left' (List.length_append ..)
          have hbody : ((opened ++ (body ++ '\x7d' :: '\x7d' :: after)).take
              (opened.length + body.length)).drop opened.length = body := by
            rw [← List.append_assoc, List.take_left' (List.length_append ..), List.drop_left]
          have hafter : (opened ++ (body ++ '\x7d' :: '\x7d' :: after)).drop
              (opened.length + body.length + 2) = after := by
            have hclosed : opened ++ (body ++ '\x7d' :: '\x7d' :: after) =
                (opened ++ body ++ ['\x7d', '\x7d']) ++ after := by simp
            rw [hclosed]
            exact List.drop_left' (by simp [Nat.add_assoc])
          simp only [Option.map_some, hfirst, hbody, hafter, Option.some.injEq, Rewriting.mk.injEq]
          refine ⟨trivial, by simp [Nat.add_assoc], ?_⟩
          rw [Piece.name?]
          cases name body <;> rfl

/-- One round for each placeholder rewrites the text as its cut is written. -/
theorem rounds_text {c : Cut} (h : c.IsFirst) (done : List Char) (names : List String) :
    rounds c.parts.length ⟨done ++ c.text, done.length, names⟩ =
      some ⟨done ++ c.writtenParts ++ c.rest, (done ++ c.writtenParts).length,
        Names.addAll names c.names⟩ := by
  obtain ⟨parts, rest⟩ := c
  induction parts generalizing done names with
  | nil => simp [rounds, Cut.writtenParts, Cut.names, Names.addAll]
  | cons part parts ih =>
      obtain ⟨hnext, hparts⟩ := Cut.isFirst_cons.1 h
      rw [List.length_cons, rounds, round?_append, hnext, Option.map_some, Option.bind_some,
        ih _ _ hparts, Cut.names_cons, Names.addAll_append]
      simp

theorem round?_rest {c : Cut} (h : c.IsFirst) (done : List Char) (names : List String) :
    round? ⟨done ++ c.rest, done.length, names⟩ = none := by
  rw [round?_append, Option.map_eq_none_iff]
  exact nextPlaceholder_eq_none_iff.2 h.rest

end Rewriting

/-- A text has one cut at the first pairs of braces. Resolving writes a reference for each
placeholder of it and lists their names, and so does rewriting the text in place, which stops after
as many rounds as there are placeholders. -/
theorem resolve_eq_cut (t : String) :
    ∃ c : Cut, (c.text = t.toList ∧ c.IsFirst) ∧
      (∀ c' : Cut, c'.text = t.toList → c'.IsFirst → c' = c) ∧
      (∀ part ∈ c.parts, IsNameOf part.2 (name part.2)) ∧
      resolve t = ⟨String.ofList c.written, c.names.eraseDups⟩ ∧
      ∃ last : Rewriting, Rewriting.rounds c.parts.length ⟨t.toList, 0, []⟩ = some last ∧
        last.round? = none ∧ last.text = c.written ∧ last.names = c.names.eraseDups := by
  obtain ⟨c, htext, hfirst⟩ := Cut.exists_isFirst t.toList
  refine ⟨c, ⟨htext, hfirst⟩, fun c' htext' hfirst' => ?_, fun part _ => isNameOf_name part.2,
    hfirst.resolve_eq htext, ?_⟩
  · exact hfirst.unique hfirst' (htext'.trans htext.symm)
  · have hrounds := Rewriting.rounds_text hfirst [] []
    rw [List.nil_append, List.nil_append, htext] at hrounds
    exact ⟨_, hrounds, Rewriting.round?_rest hfirst _ _, rfl, Names.addAll_nil c.names⟩

end Template

end EventFlow
