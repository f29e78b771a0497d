import EventFlow.Proofs.Sharing

/-!
Values under dotted paths.

A memory is read and written as a tree is (`Memory.get_eq`, `Memory.set_eq`), so the laws of
trees are laws of the values under its paths: a path holds what was written to it last, a path that
leads on from there holds what lies inside that value, and a path beside it is not touched. Writes
beside each other may come in either order; that decides on no more than the order of the fields in
the object where the paths part (`Tree.reordered_write_write`).
-/

namespace EventFlow

namespace Fields

variable {α : Type}

/-- The fields around a name are the same whatever is put there. -/
theorem exists_put_eq (fields : Fields α) (key : String) :
    ∃ before after : Fields α, ∀ a, put fields key a = before ++ (key, a) :: after := by
  induction fields with
  | nil => exact ⟨[], [], fun a => rfl⟩
  | cons e rest ih =>
      by_cases hkey : e.1 = key
      · exact ⟨[], rest, fun a => by simp [put, hkey]⟩
      · obtain ⟨before, after, hput⟩ := ih
        exact ⟨e :: before, after, fun a => by simp [put, hkey, hput]⟩

theorem perm_put_put (fields : Fields α) {key other : String} (a b : α) (h : other ≠ key) :
    (put (put fields key a) other b).Perm (put (put fields other b) key a) := by
  induction fields with
  | nil =>
      simp only [put, if_neg h, if_neg h.symm]
      exact .swap _ _ _
  | cons e rest ih =>
      by_cases hkey : e.1 = key
      · simp [put, hkey, h.symm]
      · by_cases hother : e.1 = other
        · simp [put, hother, h]
        · simpa [put, hkey, hother] using ih

end Fields

namespace Memory

/-- The same but for the order of the fields in one object: the memory itself or one inside it. -/
inductive Reordered : Memory → Memory → Prop where
  | perm {m m' : Memory} (h : m.Perm m') : Reordered m m'
  | inside {m m' : Memory} (before after : Memory) (key : String) (h : Reordered m m') :
      Reordered (before ++ (key, .object m) :: after) (before ++ (key, .object m') :: after)

theorem Reordered.put {m m' : Memory} (h : Reordered m m') (outer : Memory) (key : String) :
    Reordered (Fields.put outer key (.object m)) (Fields.put outer key (.object m')) := by
  obtain ⟨before, after, hput⟩ := Fields.exists_put_eq outer key
  rw [hput, hput]
  exact .inside before after key h

end Memory

namespace Tree

variable {t x y : Tree} {p q : List String}

theorem field?_flat (t : Tree) (key : String) :
    t.flat.field? key = (Fields.get? t.fields key).map flat := by
  cases t with
  | value v h => cases v <;> first | rfl | cases h
  | object label fields =>
      rw [flat, Value.field?, flatFields_eq_map, Fields.get?_map]
      rfl

/-- Nothing lies inside null. -/
theorem flat_get_null (keys : List String) :
    ((Tree.value .null rfl).get keys).flat = .null := by
  induction keys with
  | nil => rfl
  | cons key keys ih => exact ih

/-- Going down a tree is going down the value it stands for, field by field. -/
theorem flat_get (t : Tree) (keys : List String) :
    (t.get keys).flat = (keys.foldlM Value.field? t.flat).getD .null := by
  induction keys generalizing t with
  | nil => rfl
  | cons key keys ih =>
      rw [get, List.foldlM_cons, field?_flat, child]
      cases Fields.get? t.fields key with
      | none => exact flat_get_null keys
      | some s => exact ih s

theorem get_append (t : Tree) (p q : List String) : t.get (p ++ q) = (t.get p).get q := by
  induction p generalizing t with
  | nil => rfl
  | cons key keys ih => exact ih (t.child key)

theorem flat_write (hp : p ≠ []) :
    (t.write p x).flat = .object (flatFields (t.write p x).fields) := by
  cases p with
  | nil => exact absurd rfl hp
  | cons key keys => rfl

theorem ne_nil_of_apart (h : Apart p q) : p ≠ [] ∧ q ≠ [] := by
  constructor
  · rintro rfl
    exact h.1 q.nil_prefix
  · rintro rfl
    exact h.2 p.nil_prefix

/-- Two writes beside each other make the same tree in either order, but for the order of the fields
where the paths part. -/
theorem reordered_write_write (h : Apart p q) :
    Memory.Reordered (flatFields ((t.write p x).write q y).fields)
      (flatFields ((t.write q y).write p x).fields) := by
  induction p generalizing q t with
  | nil => exact absurd rfl (ne_nil_of_apart h).1
  | cons key keys ih =>
      cases q with
      | nil => exact absurd rfl (ne_nil_of_apart h).2
      | cons other others =>
          by_cases hkey : other = key
          · -- The paths go on together, and part further down.
            subst hkey
            have hinner := ih (t := t.child other) (apart_cons h)
            obtain ⟨hkeys, hothers⟩ := ne_nil_of_apart (apart_cons h)
            have hput (p q : List String) (x y : Tree) (hq : q ≠ []) :
                flatFields ((t.write (other :: p) x).write (other :: q) y).fields =
                  Fields.put (flatFields t.fields) other
                    (.object (flatFields (((t.child other).write p x).write q y).fields)) := by
              rw [write, child_write_self, fields, write, fields, Fields.put_put_self,
                flatFields_put, flat_write hq]
            rw [hput keys others x y hothers, hput others keys y x hkeys]
            exact hinner.put (flatFields t.fields) other
          · have hput (k l : String) (p q : List String) (x y : Tree) (hl : l ≠ k) :
                flatFields ((t.write (k :: p) x).write (l :: q) y).fields =
                  Fields.put (Fields.put (flatFields t.fields) k ((t.child k).write p x).flat) l
                    ((t.child l).write q y).flat := by
              rw [write, child_write_of_ne p hl, fields, write, fields, flatFields_put,
                flatFields_put]
            rw [hput key other keys others x y hkey, hput other key others keys y x (Ne.symm hkey)]
            exact .perm (Fields.perm_put_put _ _ _ hkey)

end Tree

namespace Memory

open EventFlow.Tree

def tree (m : Memory) : Tree :=
  .ofValue (.object m)

theorem flatFields_tree (m : Memory) : flatFields m.tree.fields = m :=
  flatFields_ofFields m

theorem getAt?_eq_foldlM (v : Value) (keys : List String) :
    getAt? v keys = keys.foldlM Value.field? v := by
  induction keys generalizing v with
  | nil => cases v <;> rfl
  | cons key keys ih =>
      cases v with
      | object fields =>
          rw [getAt?, List.foldlM_cons]
          exact congrArg _ (funext ih)
      | _ => rfl

theorem get_eq (m : Memory) (path : String) :
    m.get path = (m.tree.get (Text.segments path)).flat := by
  rw [get, getAt?_eq_foldlM, flat_get, tree, flat_ofValue]

theorem set_eq (m : Memory) (path : String) (v : Value) :
    m.set path v = flatFields (m.tree.write (Text.segments path) (.ofValue v)).fields := by
  rw [flatFields_write _ _ (Layout.segments_ne_nil path), flatFields_tree, flat_ofValue, set]

theorem get_set (m : Memory) (p q : String) (v : Value) :
    (m.set p v).get q =
      ((m.tree.write (Text.segments p) (.ofValue v)).get (Text.segments q)).flat := by
  rw [get, getAt?_eq_foldlM, flat_get, flat_write (Layout.segments_ne_nil p), ← set_eq]

theorem set_set (m : Memory) (p q : String) (v w : Value) :
    (m.set p v).set q w = flatFields ((m.tree.write (Text.segments p) (.ofValue v)).write
      (Text.segments q) (.ofValue w)).fields := by
  rw [flatFields_write _ _ (Layout.segments_ne_nil q), ← set_eq, flat_ofValue,
    set.eq_def (m.set p v)]

/-- The laws of stored paths. A path holds what was written to it last, and a path that leads on
from it what is found inside that value. What lies beside it stays, even if something on the way
had to make room for an object, and what lies above it is an object. A second write to a path leaves
no trace of the first, not even in the order of the fields, and of writes beside each other the
order of some fields is all that tells which was first. -/
theorem set_obeys_path_laws (m : Memory) (p q : String) (v w : Value) :
    (m.set p v).get p = v ∧
    (∀ rest, Text.segments q = Text.segments p ++ rest →
      (m.set p v).get q = (rest.foldlM Value.field? v).getD .null) ∧
    (Apart (Text.segments p) (Text.segments q) → (m.set p v).get q = m.get q) ∧
    (Beyond (Text.segments q) (Text.segments p) →
      ∃ fields, (m.set p v).get q = .object fields) ∧
    (m.set p v).set p w = m.set p w ∧
    (Apart (Text.segments p) (Text.segments q) →
      Reordered ((m.set p v).set q w) ((m.set q w).set p v)) := by
  have hinside (rest : List String) (hq : Text.segments q = Text.segments p ++ rest) :
      (m.set p v).get q = (rest.foldlM Value.field? v).getD .null := by
    rw [get_set, hq, get_append, get_write_self, flat_get, flat_ofValue]
  refine ⟨?_, hinside, fun hapart => ?_, fun habove => ?_, ?_, fun hapart => ?_⟩
  · rw [get_set, get_write_self, flat_ofValue]
  · rw [get_set, get_write_of_apart ⟨hapart.2, hapart.1⟩, get_eq]
  · obtain ⟨⟨rest, hrest⟩, hne⟩ := habove
    have hrest_ne : rest ≠ [] := by
      rintro rfl
      exact hne (by simpa using hrest)
    rw [get_set, ← hrest, get_write_append, flat_write hrest_ne]
    exact ⟨_, rfl⟩
  · rw [set_set, write_write_self, ← set_eq]
  · rw [set_set, set_set]
    exact reordered_write_write hapart

/-- A text has to make room for an object with a nameless field, next to a field that is there. -/
theorem set_obeys_path_laws_emptySegment :
    let m : Memory := [("a", .text "x"), ("b", .bool false)]
    Apart (Text.segments "a..c") (Text.segments "b") ∧
    Beyond (Text.segments "a.") (Text.segments "a..c") ∧
    (m.set "a..c" (.bool true)).get "b" = .bool false ∧
    (∃ fields, (m.set "a..c" (.bool true)).get "a." = .object fields) ∧
    Reordered ((m.set "a..c" (.bool true)).set "b" .null)
      ((m.set "b" .null).set "a..c" (.bool true)) := by
  intro m
  have hapart : Apart (Text.segments "a..c") (Text.segments "b") := ⟨by decide, by decide⟩
  have habove : Beyond (Text.segments "a.") (Text.segments "a..c") := ⟨by decide, by decide⟩
  obtain ⟨-, -, hbeside, -, -, hreordered⟩ :=
    set_obeys_path_laws m "a..c" "b" (.bool true) .null
  obtain ⟨-, -, -, hobject, -⟩ := set_obeys_path_laws m "a..c" "a." (.bool true) .null
  exact ⟨hapart, habove, hbeside hapart, hobject habove, hreordered hapart⟩

end Memory

end EventFlow
