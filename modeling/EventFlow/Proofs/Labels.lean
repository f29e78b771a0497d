import EventFlow.Proofs.Inlining

/-!
Where the labelled objects of a tree lie.

`All P p t` says that `P` holds of every labelled object in a tree that lies at `p`, with its own
path, its key and its fields. Of entries with the same name only the first can be reached by a path,
so the others must hold no labelled object. A write keeps what holds of the objects beside it,
changes those on the way to it, and drops those below (`all_write`).
-/

namespace EventFlow

namespace Tree

mutual

def IsPlain : Tree → Prop
  | .value .. => True
  | .object label fields => label = none ∧ IsPlainFields fields

def IsPlainFields : List (String × Tree) → Prop
  | [] => True
  | (_, t) :: rest => IsPlain t ∧ IsPlainFields rest

end

mutual

def All (P : List String → LiteralKey → Fields Tree → Prop) (p : List String) : Tree → Prop
  | .value .. => True
  | .object label fields => (∀ key ∈ label, P p key fields) ∧ AllFields P p fields

def AllFields (P : List String → LiteralKey → Fields Tree → Prop) (p : List String) :
    List (String × Tree) → Prop
  | [] => True
  | (key, t) :: rest =>
    All P (p ++ [key]) t ∧ (∀ e ∈ rest, e.1 = key → IsPlain e.2) ∧ AllFields P p rest

end

variable {P Q : List String → LiteralKey → Fields Tree → Prop} {p q : List String} {t x : Tree}

mutual

theorem isPlain_ofValue (v : Value) : IsPlain (ofValue v) := by
  cases v with
  | object fields => exact ⟨rfl, isPlainFields_ofFields fields⟩
  | _ => trivial

theorem isPlainFields_ofFields (fields : List (String × Value)) :
    IsPlainFields (ofFields fields) := by
  cases fields with
  | nil => trivial
  | cons e rest => exact ⟨isPlain_ofValue e.2, isPlainFields_ofFields rest⟩

end

theorem isPlain_of_mem {fields : Fields Tree} (h : IsPlainFields fields) {e : String × Tree}
    (he : e ∈ fields) : IsPlain e.2 := by
  induction fields with
  | nil => cases he
  | cons e' rest ih =>
      cases he with
      | head => exact h.1
      | tail _ he => exact ih h.2 he

mutual

theorem all_of_isPlain (p : List String) (t : Tree) (h : IsPlain t) : All P p t := by
  cases t with
  | value v hv => trivial
  | object label fields =>
      refine ⟨fun key hkey => ?_, allFields_of_isPlain p fields h.2⟩
      rw [h.1] at hkey
      cases hkey

theorem allFields_of_isPlain (p : List String) (fields : List (String × Tree))
    (h : IsPlainFields fields) : AllFields P p fields := by
  cases fields with
  | nil => trivial
  | cons e rest =>
      exact ⟨all_of_isPlain _ e.2 h.1, fun e' he' _ => isPlain_of_mem h.2 he',
        allFields_of_isPlain p rest h.2⟩

end

mutual

theorem All.mono {p : List String} {t : Tree} (h : All P p t)
    (himp : ∀ r key fields, p <+: r → P r key fields → Q r key fields) : All Q p t := by
  cases t with
  | value v hv => trivial
  | object label fields =>
      exact ⟨fun key hkey => himp p key fields List.prefix_rfl (h.1 key hkey),
        h.2.mono fun r key fs hr => himp r key fs hr.1⟩

theorem AllFields.mono {p : List String} {fields : List (String × Tree)} (h : AllFields P p fields)
    (himp : ∀ r key fields, Beyond p r → P r key fields → Q r key fields) :
    AllFields Q p fields := by
  cases fields with
  | nil => trivial
  | cons e rest =>
      refine ⟨h.1.mono fun r key fs hr => himp r key fs ?_, h.2.1, h.2.2.mono himp⟩
      exact beyond_of_append_isPrefix (List.cons_ne_nil _ _) hr

end

mutual

theorem All.and {p : List String} {t : Tree} (h : All P p t) (h' : All Q p t) :
    All (fun r key fields => P r key fields ∧ Q r key fields) p t := by
  cases t with
  | value v hv => trivial
  | object label fields =>
      exact ⟨fun key hkey => ⟨h.1 key hkey, h'.1 key hkey⟩, h.2.and h'.2⟩

theorem AllFields.and {p : List String} {fields : List (String × Tree)} (h : AllFields P p fields)
    (h' : AllFields Q p fields) :
    AllFields (fun r key fields => P r key fields ∧ Q r key fields) p fields := by
  cases fields with
  | nil => trivial
  | cons e rest => exact ⟨h.1.and h'.1, h.2.1, h.2.2.and h'.2.2⟩

end

theorem All.fields (h : All P p t) : AllFields P p t.fields := by
  cases t with
  | value v hv => trivial
  | object label fields => exact h.2

theorem AllFields.of_get? {fields : Fields Tree} {key : String} (h : AllFields P p fields)
    (hget : Fields.get? fields key = some t) : All P (p ++ [key]) t := by
  induction fields with
  | nil => cases hget
  | cons e rest ih =>
      rw [Fields.get?] at hget
      split at hget
      · next hkey =>
          cases hget
          exact hkey ▸ h.1
      · exact ih h.2.2 hget

theorem All.child (h : All P p t) (key : String) : All P (p ++ [key]) (t.child key) := by
  rw [Tree.child]
  cases hget : Fields.get? t.fields key with
  | none => trivial
  | some s => exact h.fields.of_get? hget

theorem All.get (h : All P p t) (q : List String) : All P (p ++ q) (t.get q) := by
  induction q generalizing p t with
  | nil => rwa [List.append_nil]
  | cons key keys ih =>
      rw [List.append_cons]
      exact ih (h.child key)

theorem All.of_label {key : LiteralKey} {fields : Fields Tree} (h : All P p t)
    (hget : t.get q = .object (some key) fields) : P (p ++ q) key fields := by
  have hq := h.get q
  rw [hget] at hq
  exact hq.1 key rfl

/-- An entry may be replaced without regard to the others with its name, which can hold no labelled
object. -/
theorem AllFields.put {fields : Fields Tree} {key : String} (h : AllFields P p fields)
    (hx : All Q (p ++ [key]) x)
    (hother : ∀ name, name ≠ key → ∀ r literal inside, p ++ [name] <+: r →
      P r literal inside → Q r literal inside) :
    AllFields Q p (Fields.put fields key x) := by
  have hrest (rest : Fields Tree) (hrest : AllFields P p rest)
      (hplain : ∀ e ∈ rest, e.1 = key → IsPlain e.2) : AllFields Q p rest := by
    induction rest with
    | nil => trivial
    | cons e rest ih =>
        refine ⟨?_, hrest.2.1, ih hrest.2.2 fun e' he' => hplain e' (.tail _ he')⟩
        by_cases hkey : e.1 = key
        · exact all_of_isPlain _ _ (hplain e (.head _) hkey)
        · exact hrest.1.mono (hother e.1 hkey)
  induction fields with
  | nil => exact ⟨hx, fun e he => (by cases he), trivial⟩
  | cons e rest ih =>
      rw [Fields.put]
      split
      · next hkey => exact ⟨hx, hkey ▸ h.2.1, hrest rest h.2.2 (hkey ▸ h.2.1)⟩
      · next hkey =>
          refine ⟨h.1.mono (hother e.1 hkey), fun e' he' hname => ?_, ih h.2.2⟩
          obtain he' | rfl := Fields.mem_of_mem_put he'
          · exact h.2.1 e' he' hname
          · exact absurd hname.symm hkey

/-- A write keeps what lies beside it, and changes what lies on its way. -/
theorem all_write (h : All P p t) (hx : All Q (p ++ q) x)
    (hbeside : ∀ r key fields, Apart r (p ++ q) → P r key fields → Q r key fields)
    (hway : ∀ r rest key fields, q = r ++ rest → rest ≠ [] → t.get r = .object (some key) fields →
      P (p ++ r) key fields → Q (p ++ r) key ((t.get r).write rest x).fields) :
    All Q p (t.write q x) := by
  induction q generalizing p t with
  | nil => rwa [List.append_nil] at hx
  | cons key keys ih =>
      rw [write]
      refine ⟨fun literal hliteral => ?_, h.fields.put ?_ ?_⟩
      · have ht : t = .object (some literal) t.fields := get_of_label hliteral
        have hroot := hway [] (key :: keys) literal t.fields rfl (by simp) ht (h.of_label ht)
        rwa [List.append_nil] at hroot
      · refine ih (h.child key) (by simpa using hx) (by simpa using hbeside) ?_
        intro r rest literal inside hq hrest hget hP
        rw [← List.append_cons] at hP ⊢
        exact hway (key :: r) rest literal inside (by rw [hq]; rfl) hrest hget hP
      · intro name hname r literal inside hr
        have happart : ¬ p ++ [name] <+: p ++ key :: keys := by
          rw [List.prefix_append_right_inj]
          exact fun hprefix => hname (List.cons_prefix_cons.1 hprefix).1
        refine hbeside r literal inside
          ⟨fun hprefix => happart (hr.trans hprefix), fun hprefix => ?_⟩
        exact happart (List.prefix_of_prefix_length_le hr hprefix (by simp))

/-! ### Reading a scope -/

mutual

/-- What a scope holds is what the tree says, if the shared objects are what it says of them. -/
theorem toValue_held {contents : LiteralKey → Memory} {p : List String} {t : Tree}
    (h : All (fun _ key fields => contents key = flatFields fields) p t) :
    t.held.toValue contents = t.flat := by
  cases t with
  | value v hv => rfl
  | object label fields =>
      cases label with
      | none => rw [held, Held.toValue, toFields_heldFields h.2, flat]
      | some key => rw [held, Held.toValue, h.1 key rfl, flat]

theorem toFields_heldFields {contents : LiteralKey → Memory} {p : List String}
    {fields : List (String × Tree)}
    (h : AllFields (fun _ key fields => contents key = flatFields fields) p fields) :
    Held.toFields contents (heldFields fields) = flatFields fields := by
  cases fields with
  | nil => rfl
  | cons e rest =>
      rw [heldFields, Held.toFields, toValue_held h.1, toFields_heldFields h.2.2, flatFields]

end

end Tree

end EventFlow
