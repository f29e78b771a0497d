import EventFlow.Proofs.Rewriting

/-!
Resolving a template again.

A resolved text has references where the template had placeholders. A name may have braces in it,
and behind the brace of its reference these can open a pair, which a later pair closes
(`Piece.Reopens`). Such a text has a placeholder again; any other resolved text is left as it is
(`resolve_again`).
-/

namespace EventFlow

namespace Template

/-- Whether the reference that is written for a piece opens a pair of braces, which the rest of the
reference or what is written behind it closes. -/
def Piece.Reopens (behind : List Char) : Piece → Prop
  | .plain _ => False
  | .placeholder body => ∃ before after, '\x7b' :: name body = before ++ '\x7b' :: '\x7b' :: after ∧
      ['\x7d', '\x7d'] <:+: after ++ '\x7d' :: behind

def Reopens : List Piece → Prop
  | [] => False
  | piece :: rest => piece.Reopens (rest.flatMap Piece.write) ∨ Reopens rest

theorem nextPlaceholder_cons {c : Char} (h : c ≠ '\x7b') (cs : List Char) :
    nextPlaceholder (c :: cs) = none ↔ nextPlaceholder cs = none := by
  have hc : '\x7b' ∉ [c] := by simpa using h.symm
  rw [← List.singleton_append, nextPlaceholder_append_of_none (cutAtPair_of_notMem hc)
    (by simpa using fun hc => absurd hc h), Option.map_eq_none_iff]

/-- A reference and what follows it are free of placeholders if the reference opens none and there
is none in what follows. -/
theorem nextPlaceholder_reference (body behind : List Char) :
    nextPlaceholder ('\x7b' :: (name body ++ '\x7d' :: behind)) = none ↔
      ¬ (Piece.placeholder body).Reopens behind ∧ nextPlaceholder behind = none := by
  rw [← List.cons_append]
  cases hopen : cutAtPair '\x7b' ('\x7b' :: name body) with
  | none =>
      have hfree : ¬ (Piece.placeholder body).Reopens behind := by
        rintro ⟨before, after, hname, -⟩
        exact cutAtPair_eq_none_iff.1 hopen ⟨before, after, by simp [hname]⟩
      rw [nextPlaceholder_append_of_none hopen (by simp), Option.map_eq_none_iff,
        nextPlaceholder_cons (by decide)]
      exact (and_iff_right hfree).symm
  | some cut =>
      obtain ⟨before, after⟩ := cut
      rw [nextPlaceholder, cutAtPair_append hopen, Option.bind_some, Option.map_eq_none_iff]
      constructor
      · intro hnone
        have hclosed := cutAtPair_eq_none_iff.1 hnone
        refine ⟨?_, nextPlaceholder_of_none ?_⟩
        · rintro ⟨before', after', hname, hpair⟩
          obtain ⟨cut, hcut, hafter⟩ := exists_cutAtPair (c := '\x7b') before' after'
          rw [← hname, hopen] at hcut
          cases hcut
          obtain ⟨lead, rfl⟩ := hafter
          exact hclosed (hpair.trans ⟨lead, [], by simp⟩)
        · exact cutAtPair_of_append (after ++ ['\x7d']) (by simpa using hnone)
      · rintro ⟨hfree, -⟩
        refine cutAtPair_eq_none fun hpair => hfree ⟨before, after, ?_, hpair⟩
        exact eq_of_cutAtPair hopen

/-- A resolved text has a placeholder only if a reference opens one. -/
theorem nextPlaceholder_resolveChars (cs : List Char) :
    nextPlaceholder (resolveChars cs) = none ↔ ¬ Reopens (pieces cs) := by
  induction hlength : cs.length using Nat.strongRecOn generalizing cs with
  | ind n ih =>
      subst hlength
      cases hnext : nextPlaceholder cs with
      | none =>
          rw [resolveChars, pieces_of_none hnext]
          simpa [Piece.write, Reopens, Piece.Reopens] using hnext
      | some next =>
          obtain ⟨before, body, after⟩ := next
          obtain ⟨-, hopens, -⟩ := nextPlaceholder_eq_some_iff.1 hnext
          have hbefore : cutAtPair '\x7b' before = none :=
            cutAtPair_eq_none fun hpair => hopens (hpair.trans ⟨[], ['\x7b'], rfl⟩)
          have hwritten : resolveChars cs =
              before ++ '$' :: '\x7b' :: (name body ++ '\x7d' :: resolveChars after) := by
            rw [resolveChars, pieces_of_some hnext]
            simp [Piece.write, resolveChars]
          rw [hwritten, nextPlaceholder_append_of_none hbefore (by simp), Option.map_eq_none_iff,
            nextPlaceholder_cons (by decide), nextPlaceholder_reference,
            ih after.length (length_nextPlaceholder hnext) after rfl, pieces_of_some hnext]
          simp [Reopens, Piece.Reopens, resolveChars]

/-- Resolving changes every text with a placeholder. -/
theorem resolve_eq_self_iff (t : String) :
    resolve t = ⟨t, []⟩ ↔ nextPlaceholder t.toList = none := by
  constructor
  · intro h
    cases hnext : nextPlaceholder t.toList with
    | none => rfl
    | some next =>
        obtain ⟨before, body, after⟩ := next
        have hvalue : resolveChars t.toList = t.toList := by
          rw [← String.toList_ofList (l := resolveChars t.toList)]
          exact congrArg (fun r => r.value.toList) h
        rw [resolveChars, pieces_of_some hnext] at hvalue
        rw [(nextPlaceholder_eq_some_iff.1 hnext).1] at hvalue
        simp [Piece.write] at hvalue
  · intro h
    simp only [resolve, pieces_of_none h, List.flatMap_singleton]
    exact congrArg (Resolved.mk · []) String.ofList_toList

/-- Resolving a resolved text changes nothing and finds no names, unless a reference opens a pair of
braces that is closed behind it. -/
theorem resolve_again (t : String) :
    resolve (resolve t).value = ⟨(resolve t).value, []⟩ ↔ ¬ Reopens (pieces t.toList) := by
  have hvalue : (resolve t).value.toList = resolveChars t.toList := String.toList_ofList
  rw [resolve_eq_self_iff, hvalue, nextPlaceholder_resolveChars]

/-- The third of three braces belongs to the name, and with the brace of the reference it opens a
placeholder again. -/
theorem resolve_again_threeBraces :
    resolve "\x7b\x7b\x7ba\x7d\x7d\x7d" = ⟨"$\x7b\x7ba\x7d\x7d", ["\x7ba"]⟩ ∧
      resolve (resolve "\x7b\x7b\x7ba\x7d\x7d\x7d").value = ⟨"$$\x7ba\x7d", ["a"]⟩ := by
  have hnext : nextPlaceholder "\x7b\x7b\x7ba\x7d\x7d\x7d".toList =
      some ([], "\x7ba".toList, "\x7d".toList) := rfl
  have hagain : nextPlaceholder "$\x7b\x7ba\x7d\x7d".toList = some (['$'], ['a'], []) := rfl
  have hfirst : resolve "\x7b\x7b\x7ba\x7d\x7d\x7d" = ⟨"$\x7b\x7ba\x7d\x7d", ["\x7ba"]⟩ := by
    rw [resolve, pieces_of_some hnext, pieces_of_none rfl]
    rfl
  refine ⟨hfirst, ?_⟩
  rw [hfirst, resolve, pieces_of_some hagain, pieces_of_none rfl]
  rfl

end Template

end EventFlow
