import EventFlow.Proofs.Tree

/-!
Scopes and shelves as trees.

A tree is read in two ways: as the memory it stands for (`flat`), and as the scope that holds it, in
which a labelled object is only named (`held`). If a shelf has what a tree says of its labelled
objects, then writing to the scope on the shelf is writing to the tree (`setAt_heldFields`,
`get_setAt_of_ne`, `get_setAt_of_label`).
-/

namespace EventFlow

namespace Fields

variable {α β : Type}

def map (f : α → β) (fields : Fields α) : Fields β :=
  List.map (fun e => (e.1, f e.2)) fields

theorem names_map (f : α → β) (fields : Fields α) : names (map f fields) = names fields := by
  rw [names, map, List.map_map]
  rfl

theorem get?_map (f : α → β) (fields : Fields α) (key : String) :
    get? (map f fields) key = (get? fields key).map f := by
  induction fields with
  | nil => rfl
  | cons e rest ih =>
      rw [map, List.map_cons, get?, get?]
      split
      · rfl
      · exact ih

theorem map_put (f : α → β) (fields : Fields α) (key : String) (a : α) :
    map f (put fields key a) = put (map f fields) key (f a) := by
  induction fields with
  | nil => rfl
  | cons e rest ih =>
      rw [put]
      simp only [map, List.map_cons] at ih ⊢
      rw [put]
      split
      · rfl
      · rw [List.map_cons, ih]

theorem put_of_get? {fields : Fields α} {key : String} {a : α} (h : get? fields key = some a) :
    put fields key a = fields := by
  induction fields with
  | nil => cases h
  | cons e rest ih =>
      rw [get?] at h
      rw [put]
      split
      · next hkey =>
          rw [if_pos hkey] at h
          cases h
          rw [← hkey]
      · next hkey =>
          rw [if_neg hkey] at h
          rw [ih h]

end Fields

namespace Shelf

@[simp] theorem get_put_self (shelf : Shelf) (key : LiteralKey) (scope : Scope) :
    (shelf.put key scope).get key = scope := by
  induction shelf with
  | nil => simp [put, get]
  | cons e rest ih => by_cases h : e.1 = key <;> simp [put, get, h, ih]

theorem get_put_of_ne {shelf : Shelf} {key other : LiteralKey} {scope : Scope} (h : key ≠ other) :
    (shelf.put key scope).get other = shelf.get other := by
  induction shelf with
  | nil => simp [put, get, h]
  | cons e rest ih =>
      by_cases hkey : e.1 = key
      · simp [put, get, hkey, h]
      · by_cases hother : e.1 = other <;> simp [put, get, hkey, hother, h.symm, ih]

theorem has_put (shelf : Shelf) (key other : LiteralKey) (scope : Scope) :
    (shelf.put key scope).has other = (shelf.has other || key == other) := by
  induction shelf with
  | nil => simp [put, has]
  | cons e rest ih =>
      by_cases hkey : e.1 = key
      · cases h : key == other <;> simp [put, has, hkey, h]
      · simp only [has] at ih
        simp [put, has, hkey, ih, Bool.or_assoc]

end Shelf

namespace Tree

mutual

def flat : Tree → Value
  | .value v _ => v
  | .object _ fields => .object (flatFields fields)

def flatFields : List (String × Tree) → List (String × Value)
  | [] => []
  | (key, t) :: rest => (key, flat t) :: flatFields rest

end

mutual

def held : Tree → Held
  | .value v _ => .value v
  | .object none fields => .object (heldFields fields)
  | .object (some key) _ => .shared key

def heldFields : List (String × Tree) → List (String × Held)
  | [] => []
  | (key, t) :: rest => (key, held t) :: heldFields rest

end

theorem flatFields_eq_map (fields : Fields Tree) : flatFields fields = Fields.map flat fields := by
  induction fields with
  | nil => rfl
  | cons e rest ih =>
      rw [flatFields, ih]
      rfl

theorem heldFields_eq_map (fields : Fields Tree) : heldFields fields = Fields.map held fields := by
  induction fields with
  | nil => rfl
  | cons e rest ih =>
      rw [heldFields, ih]
      rfl

theorem flatFields_put (fields : Fields Tree) (key : String) (t : Tree) :
    flatFields (Fields.put fields key t) = Fields.put (flatFields fields) key t.flat := by
  rw [flatFields_eq_map, flatFields_eq_map, Fields.map_put]

theorem heldFields_put (fields : Fields Tree) (key : String) (t : Tree) :
    heldFields (Fields.put fields key t) = Fields.put (heldFields fields) key t.held := by
  rw [heldFields_eq_map, heldFields_eq_map, Fields.map_put]

theorem get?_heldFields (fields : Fields Tree) (key : String) :
    Fields.get? (heldFields fields) key = (Fields.get? fields key).map held := by
  rw [heldFields_eq_map, Fields.get?_map]

mutual

theorem flat_ofValue (v : Value) : (ofValue v).flat = v := by
  cases v with
  | object fields => simp [ofValue, flat, flatFields_ofFields fields]
  | _ => rfl

theorem flatFields_ofFields (fields : List (String × Value)) :
    flatFields (ofFields fields) = fields := by
  cases fields with
  | nil => rfl
  | cons e rest => simp [ofFields, flatFields, flat_ofValue e.2, flatFields_ofFields rest]

end

mutual

theorem held_ofValue (v : Value) : (ofValue v).held = Held.ofValue v := by
  cases v with
  | object fields => simp [ofValue, held, Held.ofValue, heldFields_ofFields fields]
  | _ => rfl

theorem heldFields_ofFields (fields : List (String × Value)) :
    heldFields (ofFields fields) = Held.ofFields fields := by
  cases fields with
  | nil => rfl
  | cons e rest =>
      simp [ofFields, heldFields, Held.ofFields, held_ofValue e.2, heldFields_ofFields rest]

end

/-! ### Writing to a memory -/

theorem child_flatFields (t : Tree) (key : String) :
    Memory.child (flatFields t.fields) key = flatFields (t.child key).fields := by
  rw [Memory.child, flatFields_eq_map, Fields.get?_map, child]
  cases Fields.get? t.fields key with
  | none => rfl
  | some s =>
      cases s with
      | value v h => cases v <;> first | rfl | cases h
      | object label fields => rfl

theorem flatFields_write (t x : Tree) {q : List String} (hq : q ≠ []) :
    flatFields (t.write q x).fields = Memory.setAt (flatFields t.fields) q x.flat := by
  induction q generalizing t with
  | nil => exact absurd rfl hq
  | cons key keys ih =>
      rw [write, fields, flatFields_put]
      cases keys with
      | nil => rfl
      | cons key' keys' =>
          have hinner := ih (t.child key) (by simp)
          rw [Memory.setAt, child_flatFields, ← hinner]
          · rfl
          · simp

/-! ### Writing on a shelf -/

/-- The shelf has what the tree says of the labelled objects in it. -/
def Represents (shelf : Shelf) (t : Tree) : Prop :=
  ∀ p key fields, p ≠ [] → t.get p = .object (some key) fields →
    shelf.has key = true ∧ shelf.get key = heldFields fields

theorem Represents.child {shelf : Shelf} {t : Tree} (h : Represents shelf t) (key : String) :
    Represents shelf (t.child key) :=
  fun p literal fields _ hget => h (key :: p) literal fields (by simp) hget

/-- Setting a path behind a name, as seen from the tree under the name. -/
theorem setAt_cons {shelf : Shelf} {t : Tree} (h : Represents shelf t) (key : String)
    {keys : List String} (hkeys : keys ≠ []) (new : Held) :
    Scope.setAt shelf (heldFields t.fields) (key :: keys) new =
      let inner := Scope.setAt shelf (heldFields (t.child key).fields) keys new
      match (t.child key).label with
      | none => (inner.1, Fields.put (heldFields t.fields) key (.object inner.2))
      | some literal => (Shelf.put inner.1 literal inner.2, heldFields t.fields) := by
  obtain ⟨key', keys', rfl⟩ := List.exists_cons_of_ne_nil hkeys
  rw [Scope.setAt, get?_heldFields]
  · cases hs : Fields.get? t.fields key with
    | none =>
        have hchild : t.child key = .value .null rfl := by rw [child, hs]; rfl
        rw [hchild]
        rfl
    | some s =>
        have hchild : t.child key = s := by rw [child, hs]; rfl
        rw [hchild]
        cases s with
        | value v hv => rfl
        | object label inside =>
            cases label with
            | none => rfl
            | some literal =>
                have hliteral : shelf.get literal = heldFields inside :=
                  (h [key] literal inside (by simp) hchild).2
                simp only [Option.map_some, held, label, fields, hliteral]
  · simp

theorem get?_of_label {t : Tree} {key : String} {literal : LiteralKey}
    (h : (t.child key).label = some literal) :
    Fields.get? t.fields key = some (.object (some literal) (t.child key).fields) := by
  rw [child] at h ⊢
  cases hs : Fields.get? t.fields key with
  | none =>
      rw [hs] at h
      cases h
  | some s =>
      rw [hs] at h
      cases s with
      | value v hv => cases h
      | object label inside =>
          obtain rfl : label = some literal := h
          rfl

/-- What a scope holds after a path is set. -/
theorem setAt_heldFields {shelf : Shelf} {t : Tree} (h : Represents shelf t) (x : Tree)
    {q : List String} (hq : q ≠ []) :
    (Scope.setAt shelf (heldFields t.fields) q x.held).2 = heldFields (t.write q x).fields := by
  induction q generalizing t with
  | nil => exact absurd rfl hq
  | cons key keys ih =>
      rw [write, fields, heldFields_put]
      by_cases hkeys : keys = []
      · subst hkeys
        rfl
      · have hinner := ih (h.child key) hkeys
        rw [setAt_cons h key hkeys]
        obtain ⟨key', keys', rfl⟩ := List.exists_cons_of_ne_nil hkeys
        cases hlabel : (t.child key).label with
        | none =>
            simp only [hinner]
            rw [write, hlabel]
            rfl
        | some literal =>
            have hshared : Fields.get? (heldFields t.fields) key = some (.shared literal) := by
              rw [get?_heldFields, get?_of_label hlabel]
              rfl
            -- The object is changed on the shelf, and the scope still holds its key.
            rw [write, hlabel]
            exact (Fields.put_of_get? hshared).symm

theorem get_of_label {t : Tree} {literal : LiteralKey} (h : t.label = some literal) :
    t = .object (some literal) t.fields := by
  cases t with
  | value v hv => cases h
  | object label inside =>
      obtain rfl : label = some literal := h
      rfl

/-- Setting a path changes no object but those on the way. -/
theorem get_setAt_of_ne {shelf : Shelf} {t : Tree} (h : Represents shelf t) (new : Held)
    {q : List String} {literal : LiteralKey}
    (hway : ∀ p r fields, p ≠ [] → r ≠ [] → q = p ++ r → t.get p ≠ .object (some literal) fields) :
    (Scope.setAt shelf (heldFields t.fields) q new).1.get literal = shelf.get literal := by
  induction q generalizing t with
  | nil => rfl
  | cons key keys ih =>
      by_cases hkeys : keys = []
      · subst hkeys
        rfl
      · have hinner := ih (h.child key) fun p r fields _ hr hq =>
          hway (key :: p) r fields (by simp) hr (by rw [hq]; rfl)
        rw [setAt_cons h key hkeys]
        cases hlabel : (t.child key).label with
        | none => exact hinner
        | some other =>
            have hne : other ≠ literal := by
              rintro rfl
              exact hway [key] keys _ (by simp) hkeys rfl (get_of_label hlabel)
            simp only
            rw [Shelf.get_put_of_ne hne]
            exact hinner

/-- Setting a path changes the objects on the way as it changes the tree. -/
theorem get_setAt_of_label {shelf : Shelf} {t : Tree} (h : Represents shelf t) (x : Tree)
    (honce : ∀ p p' key fields fields', t.get p = .object (some key) fields →
      t.get p' = .object (some key) fields' → p = p')
    {p r : List String} {literal : LiteralKey} {inside : Fields Tree} (hp : p ≠ []) (hr : r ≠ [])
    (hget : t.get p = .object (some literal) inside) :
    (Scope.setAt shelf (heldFields t.fields) (p ++ r) x.held).1.get literal =
      heldFields ((t.get p).write r x).fields := by
  induction p generalizing t with
  | nil => exact absurd rfl hp
  | cons key keys ih =>
      have hkeys : keys ++ r ≠ [] := by simp [hr]
      rw [List.cons_append, setAt_cons h key hkeys]
      by_cases hlast : keys = []
      · subst hlast
        have hchild : t.child key = .object (some literal) inside := hget
        have hlabel : (t.child key).label = some literal := by rw [hchild]; rfl
        simp only [hlabel]
        rw [Shelf.get_put_self]
        exact setAt_heldFields (h.child key) x hr
      · have hinner := ih (h.child key)
          (fun p p' other fields fields' hp hp' =>
            List.tail_eq_of_cons_eq (honce (key :: p) (key :: p') other fields fields' hp hp'))
          hlast hget
        cases hlabel : (t.child key).label with
        | none => exact hinner
        | some other =>
            -- An object inside itself would lie at two places.
            have hne : other ≠ literal := by
              rintro rfl
              have hsame := honce [key] (key :: keys) other _ _ (get_of_label hlabel) hget
              exact hlast (List.tail_eq_of_cons_eq hsame).symm
            simp only
            rw [Shelf.get_put_of_ne hne]
            exact hinner

/-- Setting a path puts no new object on the shelf. -/
theorem has_setAt {shelf : Shelf} {t : Tree} (h : Represents shelf t) (new : Held)
    (q : List String) (literal : LiteralKey) :
    (Scope.setAt shelf (heldFields t.fields) q new).1.has literal = shelf.has literal := by
  induction q generalizing t with
  | nil => rfl
  | cons key keys ih =>
      by_cases hkeys : keys = []
      · subst hkeys
        rfl
      · have hinner := ih (h.child key)
        rw [setAt_cons h key hkeys]
        cases hlabel : (t.child key).label with
        | none => exact hinner
        | some other =>
            have hother : shelf.has other = true :=
              (h [key] other _ (by simp) (get_of_label hlabel)).1
            simp only
            rw [Shelf.has_put, hinner]
            by_cases hne : other = literal
            · subst hne
              simp [hother]
            · simp [hne]

end Tree

end EventFlow
