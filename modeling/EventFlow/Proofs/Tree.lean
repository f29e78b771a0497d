import EventFlow.Walk.Harvest
import Mathlib.Data.List.Infix

/-!
Trees: what a scope holds, with shared objects written out where they are held.

An object that is shared carries its key as a label. A tree has no state, so a list of writes to it
has laws of its own: a later write above a path drops what was there, one below it changes it, and
one beside it leaves it alone. The main ones are that only what the rest of a list makes of a value
counts for where it is written (`run_write_congr`), and that writing a list twice is writing it once
(`run_run`).
-/

namespace EventFlow

namespace Fields

variable {α : Type}

@[simp] theorem put_put_self (fields : Fields α) (key : String) (a b : α) :
    put (put fields key a) key b = put fields key b := by
  induction fields with
  | nil => simp [put]
  | cons e rest ih => by_cases h : e.1 = key <;> simp [put, h, ih]

/-- A name that is there already keeps its place, whatever else is put in between. -/
theorem put_put_put (fields : Fields α) {key other : String} (a a' b : α) (h : other ≠ key) :
    put (put (put fields key a') other b) key a = put (put fields key a) other b := by
  induction fields with
  | nil => simp [put, h.symm]
  | cons e rest ih =>
      by_cases hkey : e.1 = key
      · simp [put, hkey, h.symm]
      · by_cases hother : e.1 = other
        · simp [put, hother, h]
        · simp [put, hkey, hother, ih]

end Fields

def Value.isObject : Value → Bool
  | .object _ => true
  | _ => false

inductive Tree where
  /-- Anything but an object. -/
  | value (v : Value) (h : v.isObject = false)
  /-- An object, labelled if it is shared. -/
  | object (label : Option LiteralKey) (fields : List (String × Tree))

namespace Tree

def label : Tree → Option LiteralKey
  | .value .. => none
  | .object label _ => label

def fields : Tree → Fields Tree
  | .value .. => []
  | .object _ fields => fields

mutual

def ofValue : Value → Tree
  | .null => .value .null rfl
  | .bool b => .value (.bool b) rfl
  | .number n => .value (.number n) rfl
  | .text s => .value (.text s) rfl
  | .list items => .value (.list items) rfl
  | .object fields => .object none (ofFields fields)

def ofFields : List (String × Value) → List (String × Tree)
  | [] => []
  | (key, v) :: rest => (key, ofValue v) :: ofFields rest

end

def child (t : Tree) (key : String) : Tree :=
  (Fields.get? t.fields key).getD (.value .null rfl)

def get (t : Tree) : List String → Tree
  | [] => t
  | key :: keys => (t.child key).get keys

/-- Puts a tree in another at a path. On the way, what is not an object is replaced by one. -/
def write (t : Tree) : List String → Tree → Tree
  | [], x => x
  | key :: keys, x => .object t.label (Fields.put t.fields key ((t.child key).write keys x))

variable {t x y : Tree} {p q r : List String}

theorem child_write_self (key : String) (keys : List String) :
    (t.write (key :: keys) x).child key = (t.child key).write keys x := by
  simp [write, child, fields]

theorem child_write_of_ne {key other : String} (keys : List String) (h : other ≠ key) :
    (t.write (key :: keys) x).child other = t.child other := by
  simp [write, child, fields, Fields.get?_put_of_ne _ _ h]

/-! ### One write after another -/

def Beyond (p q : List String) : Prop :=
  p <+: q ∧ p ≠ q

theorem not_beyond_of_isPrefix (h : q <+: p) : ¬ Beyond p q :=
  fun hbeyond => hbeyond.2 (hbeyond.1.eq_of_length_le h.length_le)

theorem beyond_of_append_isPrefix (hr : r ≠ []) (h : p ++ r <+: q) : Beyond p q := by
  refine ⟨(List.prefix_append p r).trans h, ?_⟩
  rintro rfl
  have hlength := h.length_le
  rw [List.length_append] at hlength
  exact hr (List.length_eq_zero_iff.1 (by omega))

theorem Beyond.length_lt (h : Beyond p q) : p.length < q.length := by
  refine Nat.lt_of_le_of_ne h.1.length_le fun heq => h.2 (h.1.eq_of_length heq)

/-- Neither path leads to the other. -/
def Apart (p q : List String) : Prop :=
  ¬ p <+: q ∧ ¬ q <+: p

theorem apart_cons {key : String} (h : Apart (key :: p) (key :: q)) : Apart p q := by
  simpa [Apart] using h

theorem get_write_append (p r : List String) :
    (t.write (p ++ r) x).get p = (t.get p).write r x := by
  induction p generalizing t with
  | nil => rfl
  | cons key keys ih =>
      rw [List.cons_append, get, child_write_self, ih]
      rfl

theorem get_write_self (p : List String) : (t.write p x).get p = x := by
  simpa [write] using get_write_append (t := t) (x := x) p []

theorem get_write_of_apart (h : Apart p q) : (t.write q x).get p = t.get p := by
  induction p generalizing q t with
  | nil => exact absurd q.nil_prefix h.1
  | cons key keys ih =>
      cases q with
      | nil => exact absurd (List.nil_prefix) h.2
      | cons other others =>
          by_cases hkey : key = other
          · subst hkey
            rw [get, child_write_self, ih (apart_cons h)]
            rfl
          · rw [get, child_write_of_ne others hkey]
            rfl

/-- Writing below a path changes what was written at it. -/
theorem write_write_append (p r : List String) :
    (t.write p x).write (p ++ r) y = t.write p (x.write r y) := by
  induction p generalizing t with
  | nil => rfl
  | cons key keys ih =>
      rw [List.cons_append, write, child_write_self, ih]
      simp [write, label, fields]

theorem write_write_self (p : List String) : (t.write p x).write p y = t.write p y := by
  simpa [write] using write_write_append (t := t) (x := x) (y := y) p []

/-- Writing above a path drops what was written at it. -/
theorem write_append_write (q r : List String) : (t.write (q ++ r) x).write q y = t.write q y := by
  induction q generalizing t with
  | nil => rfl
  | cons key keys ih =>
      rw [List.cons_append, write, child_write_self, ih]
      simp [write, label, fields]

/-- Writing beside a path leaves what was written at it, and the order of the fields does not depend
on what it was. -/
theorem write_write_of_apart (h : Apart p q) (x x' y : Tree) :
    (t.write p x).write q y = ((t.write p x').write q y).write p x := by
  induction p generalizing q t with
  | nil => exact absurd q.nil_prefix h.1
  | cons key keys ih =>
      cases q with
      | nil => exact absurd (List.nil_prefix) h.2
      | cons other others =>
          by_cases hkey : other = key
          · subst hkey
            have hinner := ih (t := t.child other) (apart_cons h)
            simp only [write, child, label, fields, Fields.get?_put_self, Option.getD_some,
              Fields.put_put_self] at hinner ⊢
            rw [hinner]
          · -- Both names are there after the first two writes, so neither moves after that.
            have hbeside (z : Tree) : (t.write (key :: keys) z).write (other :: others) y =
                .object t.label (Fields.put (Fields.put t.fields key ((t.child key).write keys z))
                  other ((t.child other).write others y)) := by
              rw [write, child_write_of_ne keys hkey]
              rfl
            have hchild : ((t.write (key :: keys) x').write (other :: others) y).child key =
                (t.child key).write keys x' := by
              rw [child_write_of_ne others (Ne.symm hkey), child_write_self]
            calc (t.write (key :: keys) x).write (other :: others) y
                = .object t.label (Fields.put (Fields.put t.fields key ((t.child key).write keys x))
                    other ((t.child other).write others y)) := hbeside x
              _ = .object t.label (Fields.put (Fields.put (Fields.put t.fields key
                    ((t.child key).write keys x')) other ((t.child other).write others y)) key
                    ((t.child key).write keys x)) := by rw [Fields.put_put_put _ _ _ _ hkey]
              _ = ((t.write (key :: keys) x').write (other :: others) y).write (key :: keys) x := by
                rw [write.eq_def (t := (t.write (key :: keys) x').write (other :: others) y)]
                simp only [hchild, write_write_self]
                rw [hbeside x']
                rfl

/-! ### Lists of writes -/

abbrev Write := List String × Tree

def run (ws : List Write) (t : Tree) : Tree :=
  ws.foldl (fun t w => t.write w.1 w.2) t

/-- The writes below a path, as seen from the path, up to the first one that drops it. -/
def beneath (p : List String) : List Write → List Write
  | [] => []
  | (q, x) :: ws =>
    if q <+: p then []
    else if p <+: q then (q.drop p.length, x) :: beneath p ws
    else beneath p ws

variable {ws : List Write}

theorem beneath_cons_of_isPrefix (h : q <+: p) : beneath p ((q, x) :: ws) = [] := by
  simp [beneath, h]

theorem not_append_isPrefix (h : r ≠ []) : ¬ p ++ r <+: p :=
  fun hprefix => (beyond_of_append_isPrefix h hprefix).2 rfl

theorem beneath_cons_append (h : r ≠ []) :
    beneath p ((p ++ r, x) :: ws) = (r, x) :: beneath p ws := by
  simp [beneath, not_append_isPrefix h]

theorem beneath_cons_of_apart (h : Apart p q) : beneath p ((q, x) :: ws) = beneath p ws := by
  simp [beneath, h.1, h.2]

/-- How a path stands to another: it lies at or above it, below it, or beside it. -/
theorem prefix_or_append_or_apart (p q : List String) :
    q <+: p ∨ (∃ r, r ≠ [] ∧ q = p ++ r) ∨ Apart p q := by
  by_cases h : q <+: p
  · exact .inl h
  · by_cases h' : p <+: q
    · obtain ⟨r, rfl⟩ := h'
      refine .inr (.inl ⟨r, ?_, rfl⟩)
      rintro rfl
      exact h (by simp)
    · exact .inr (.inr ⟨h', h⟩)

theorem length_beneath_le (p : List String) (ws : List Write) :
    (beneath p ws).length ≤ ws.length := by
  induction ws with
  | nil => exact le_refl _
  | cons w ws ih =>
      rw [beneath]
      split
      · exact Nat.zero_le _
      · split
        · exact Nat.succ_le_succ ih
        · exact ih.trans (Nat.le_succ _)

theorem apart_append (h : Apart p q) (r : List String) : Apart (p ++ r) q :=
  ⟨fun hq => h.1 ((List.prefix_append p r).trans hq), fun hq =>
    (List.prefix_or_prefix_of_prefix (List.prefix_append p r) hq).elim h.1 h.2⟩

/-- What is beneath a longer path is beneath its first part. -/
theorem beneath_append (p r : List String) (ws : List Write) :
    beneath (p ++ r) ws = beneath r (beneath p ws) := by
  induction ws with
  | nil => rfl
  | cons w ws ih =>
      obtain ⟨q, x⟩ := w
      obtain hq | ⟨s, hs, rfl⟩ | hq := prefix_or_append_or_apart p q
      · rw [beneath_cons_of_isPrefix hq,
          beneath_cons_of_isPrefix (hq.trans (List.prefix_append p r))]
        rfl
      · rw [beneath_cons_append hs, beneath, beneath, ih]
        simp
      · rw [beneath_cons_of_apart hq, beneath_cons_of_apart (apart_append hq r), ih]

/-- Writes beneath an object leave it the same object. -/
theorem label_run_beneath (p : List String) (ws : List Write) (t : Tree) :
    (run (beneath p ws) t).label = t.label := by
  induction ws generalizing t with
  | nil => rfl
  | cons w ws ih =>
      obtain ⟨q, x⟩ := w
      obtain hq | ⟨r, hr, rfl⟩ | hq := prefix_or_append_or_apart p q
      · rw [beneath_cons_of_isPrefix hq]
        rfl
      · obtain ⟨key, keys, rfl⟩ := List.exists_cons_of_ne_nil hr
        rw [beneath_cons_append hr]
        exact ih _
      · rw [beneath_cons_of_apart hq]
        exact ih t

/-- What a list of writes makes of a tree depends on what is at a path only through what it makes of
that. -/
theorem run_write_congr (h : run (beneath p ws) x = run (beneath p ws) y) :
    run ws (t.write p x) = run ws (t.write p y) := by
  induction ws generalizing t x y with
  | nil =>
      obtain rfl : x = y := h
      rfl
  | cons w ws ih =>
      obtain ⟨q, z⟩ := w
      change run ws ((t.write p x).write q z) = run ws ((t.write p y).write q z)
      obtain hq | ⟨r, hr, rfl⟩ | hq := prefix_or_append_or_apart p q
      · rw [beneath_cons_of_isPrefix hq] at h
        obtain rfl : x = y := h
        rfl
      · rw [beneath_cons_append hr] at h
        rw [write_write_append, write_write_append]
        exact ih h
      · rw [beneath_cons_of_apart hq] at h
        rw [write_write_of_apart hq x x z, write_write_of_apart hq y x z]
        exact ih h

/-- What is written at a path does not matter to a list of writes that drops it. -/
theorem run_write_of_isPrefix (h : ∃ w ∈ ws, w.1 <+: p) (x y : Tree) :
    run ws (t.write p x) = run ws (t.write p y) := by
  induction ws generalizing t x y with
  | nil =>
      obtain ⟨w, hw, _⟩ := h
      cases hw
  | cons w ws ih =>
      obtain ⟨q, z⟩ := w
      change run ws ((t.write p x).write q z) = run ws ((t.write p y).write q z)
      obtain hq | hq := prefix_or_append_or_apart p q
      · obtain ⟨r, rfl⟩ := hq
        rw [write_append_write, write_append_write]
      · have hrest : ∃ w ∈ ws, w.1 <+: p := by
          obtain ⟨w, hw, hwp⟩ := h
          cases hw with
          | tail _ hw => exact ⟨w, hw, hwp⟩
          | head =>
              obtain ⟨r, hr, rfl⟩ | hq := hq
              · exact absurd hwp (not_append_isPrefix hr)
              · exact absurd hwp hq.2
        obtain ⟨r, hr, rfl⟩ | hq := hq
        · rw [write_write_append, write_write_append]
          exact ih hrest _ _
        · rw [write_write_of_apart hq x x z, write_write_of_apart hq y x z]
          exact ih hrest _ _

/-- If nothing drops a path, then in the end it holds what the writes beneath it have made of it. -/
theorem exists_run_write (h : ∀ w ∈ ws, ¬ w.1 <+: p) (t x : Tree) :
    ∃ s, run ws (t.write p x) = write s p (run (beneath p ws) x) := by
  induction ws generalizing t x with
  | nil => exact ⟨t, rfl⟩
  | cons w ws ih =>
      obtain ⟨q, z⟩ := w
      have hrest : ∀ w ∈ ws, ¬ w.1 <+: p := fun w hw => h w (.tail _ hw)
      change ∃ s, run ws ((t.write p x).write q z) = _
      obtain hq | ⟨r, hr, rfl⟩ | hq := prefix_or_append_or_apart p q
      · exact absurd hq (h _ (.head _))
      · rw [write_write_append, beneath_cons_append hr]
        exact ih hrest t _
      · rw [write_write_of_apart hq x x z, beneath_cons_of_apart hq]
        exact ih hrest _ x

/-- Of the writes that drop a path, the last one's path is still there in the end. -/
theorem exists_prefix_run_write (h : ∃ w ∈ ws, w.1 <+: p) (t : Tree) :
    ∃ w ∈ ws, w.1 <+: p ∧ ∃ s x, run ws t = write s w.1 x := by
  induction ws generalizing t with
  | nil =>
      obtain ⟨w, hw, _⟩ := h
      cases hw
  | cons w ws ih =>
      by_cases hrest : ∃ w ∈ ws, w.1 <+: p
      · obtain ⟨w', hw', hprefix, hrun⟩ := ih hrest (t.write w.1 w.2)
        exact ⟨w', .tail _ hw', hprefix, hrun⟩
      · have hw : w.1 <+: p := by
          obtain ⟨w', hw', hprefix⟩ := h
          cases hw' with
          | head => exact hprefix
          | tail _ hw' => exact absurd ⟨w', hw', hprefix⟩ hrest
        have hkept : ∀ w' ∈ ws, ¬ w'.1 <+: w.1 :=
          fun w' hw' hprefix => hrest ⟨w', hw', hprefix.trans hw⟩
        obtain ⟨s, hs⟩ := exists_run_write hkept t w.2
        exact ⟨w, .head _, hw, s, _, hs⟩

/-- Writing a list twice is writing it once. -/
theorem run_run (ws : List Write) (t : Tree) : run ws (run ws t) = run ws t := by
  -- By length, as the writes beneath the first path are a list of their own and no tail.
  induction hn : ws.length using Nat.strongRecOn generalizing ws t with
  | ind n ih =>
      subst hn
      cases ws with
      | nil => rfl
      | cons w ws =>
          obtain ⟨q, x⟩ := w
          have hagain : run ws (run ws (t.write q x)) = run ws (t.write q x) :=
            ih ws.length (Nat.lt_succ_self _) ws _ rfl
          change run ws ((run ws (t.write q x)).write q x) = run ws (t.write q x)
          by_cases hdrop : ∃ w ∈ ws, w.1 <+: q
          · obtain ⟨w, hw, ⟨r, rfl⟩, s, y, hs⟩ := exists_prefix_run_write hdrop (t.write q x)
            -- The first write goes into what a later one drops again.
            calc run ws ((run ws (t.write (w.1 ++ r) x)).write (w.1 ++ r) x)
                = run ws (write s w.1 (y.write r x)) := by rw [hs, write_write_append]
              _ = run ws (write s w.1 y) := run_write_of_isPrefix ⟨w, hw, List.prefix_rfl⟩ _ _
              _ = run ws (t.write (w.1 ++ r) x) := by rw [← hs, hagain]
          · have hkept : ∀ w ∈ ws, ¬ w.1 <+: q := fun w hw h => hdrop ⟨w, hw, h⟩
            obtain ⟨s, hs⟩ := exists_run_write hkept t x
            have hbeneath : run (beneath q ws) (run (beneath q ws) x) = run (beneath q ws) x :=
              ih _ (Nat.lt_succ_of_le (length_beneath_le q ws)) _ x rfl
            calc run ws ((run ws (t.write q x)).write q x)
                = run ws (write s q x) := by rw [hs, write_write_self]
              _ = run ws (write s q (run (beneath q ws) x)) := (run_write_congr hbeneath).symm
              _ = run ws (t.write q x) := by rw [← hs, hagain]

end Tree

end EventFlow
