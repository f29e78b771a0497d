import EventFlow.Proofs.Stretches
import EventFlow.Walk.Harvest

/-!
Drafts that share objects.

A draft on its way holds a tree that need not be the one it should hold, as it may have found a
shared object in its last state where it should have stored a new one. What it is owed is that the
rest of the stretch makes the same of both (`Carries`). One step keeps this (`Bears.step`). At the
end of a stretch every shared object is at rest, and the draft is what it should be
(`Bears.arrived`, `Arrived.settle`).
-/

namespace EventFlow

open EventFlow.Tree Step

def Draft.forget (d : Draft) : Draft :=
  { d with memory := [] }

namespace Layout

variable {L : Layout} {ws : List Write} {p q : List String} {t x x' : Tree}

def Stocked (shelf : Shelf) (_p : List String) (key : LiteralKey) (fields : Fields Tree) : Prop :=
  shelf.has key = true ∧ shelf.get key = heldFields fields

/-- The object is in its last state on the shelf, and what is in it is on the shelf too. -/
def Resting (L : Layout) (shelf : Shelf) (key : LiteralKey) : Prop :=
  shelf.get key = heldFields (L.final key).fields ∧
    (L.final key).All (fun p key fields => L.Done p key fields ∧ shelf.has key = true) (L.place key)

/-- A draft holds `t` where it should hold `u`, and the writes that are to come make the same of
them. Every shared object is either held by the draft and due, or at rest. -/
structure Carries (L : Layout) (shelf : Shelf) (t u : Tree) (ws : List Write) : Prop where
  root : t.label = none
  due : t.All (L.Due ws) []
  stocked : t.All (Stocked shelf) []
  others : ∀ key, shelf.has key = true →
    (∃ fields, t.get (L.place key) = .object (some key) fields) ∨ L.Resting shelf key
  same : run ws t = run ws u

variable {shelf : Shelf} {u : Tree} {key : LiteralKey} {c : Carried} {d : Draft}

theorem represents (h : t.All (Stocked shelf) []) : Represents shelf t :=
  fun _ _ _ _ hget => h.of_label hget

/-- An object that a draft holds in its last state is at rest. -/
theorem resting_of_done {fields : Fields Tree} (hstocked : t.All (Stocked shelf) [])
    (hget : t.get (L.place key) = .object (some key) fields)
    (hdone : (t.get (L.place key)).All L.Done (L.place key)) : L.Resting shelf key := by
  have hstocked := hstocked.get (L.place key)
  rw [hget] at hdone hstocked
  have hfinal : .object (some key) fields = L.final key := (hdone.1 key rfl).2
  rw [Resting, ← hfinal]
  exact ⟨(hstocked.1 key rfl).2, (hdone.and hstocked).mono fun _ _ _ _ h => ⟨h.1, h.2.1⟩⟩

/-- An object below a write that is about to come is at rest. -/
theorem resting_of_isPrefix (hdue : t.All (L.Due ((q, x) :: ws)) [])
    (hstocked : t.All (Stocked shelf) []) (hq : q <+: L.place key) {fields : Fields Tree}
    (hget : t.get (L.place key) = .object (some key) fields) : L.Resting shelf key :=
  resting_of_done hstocked hget (done_of_isPrefix hq (hdue.get (L.place key)))

theorem Resting.mono {shelf' : Shelf} (h : L.Resting shelf key)
    (hget : shelf'.get key = shelf.get key)
    (hhas : ∀ key, shelf.has key = true → shelf'.has key = true) : L.Resting shelf' key :=
  ⟨hget.trans h.1, h.2.mono fun _ _ _ _ h => ⟨h.1, hhas _ h.2⟩⟩

/-- An object is changed by a write only if the write lies beyond its place. -/
theorem get_setAt (hdue : t.All (L.Due ws) []) (hstocked : t.All (Stocked shelf) []) (new : Held)
    (hkey : (∀ fields, t.get (L.place key) ≠ .object (some key) fields) ∨
      ¬ Beyond (L.place key) q) :
    (Scope.setAt shelf (heldFields t.fields) q new).1.get key = shelf.get key := by
  refine get_setAt_of_ne (represents hstocked) new ?_
  rintro p r fields hp hr rfl hget
  have hplace : L.place key = p := (hdue.of_label hget).1
  obtain hkey | hkey := hkey
  · exact hkey fields (hplace ▸ hget)
  · refine hkey ⟨hplace ▸ List.prefix_append p r, ?_⟩
    rw [hplace]
    simpa using hr

/-- One write. It may put at once what the other writes will make of it, and it may take an object
from the shelf that no one holds. -/
theorem carries_write (hroot : t.label = none) (hdue : t.All (L.Due ((q, x) :: ws)) [])
    (hstocked : t.All (Stocked shelf) [])
    (hothers : ∀ key, shelf.has key = true →
      (∃ fields, t.get (L.place key) = .object (some key) fields) ∨ L.Resting shelf key ∨
        (x'.label = some key ∧ L.place key = q))
    (hsame : run ((q, x) :: ws) t = run ((q, x) :: ws) u) (hq : q ≠ [])
    (hx : x'.All (L.Due ws) q) (hx' : x'.All (Stocked shelf) q)
    (hrun : run (beneath q ws) x' = run (beneath q ws) x) :
    L.Carries (Scope.setAt shelf (heldFields t.fields) q x'.held).1 (t.write q x') (u.write q x)
      ws := by
  have hhas (key : LiteralKey) := has_setAt (represents hstocked) x'.held q key
  refine ⟨?_, due_write hdue hx hrun, ?_, fun key hkey => ?_, ?_⟩
  · obtain ⟨name, names, rfl⟩ := List.exists_cons_of_ne_nil hq
    exact hroot
  · refine all_write (hdue.and hstocked) ((hx.and hx').mono ?_) ?_ ?_
    · rintro r key fields hr ⟨hplace, hstocked'⟩
      refine ⟨(hhas key).trans hstocked'.1, ?_⟩
      rw [get_setAt hdue hstocked _ (.inr ?_)]
      · exact hstocked'.2
      · exact not_beyond_of_isPrefix (hplace.1 ▸ hr)
    · rintro r key fields hr ⟨hplace, hstocked'⟩
      refine ⟨(hhas key).trans hstocked'.1, ?_⟩
      rw [get_setAt hdue hstocked _ (.inr ?_)]
      · exact hstocked'.2
      · exact fun hbeyond => hr.1 (hplace.1 ▸ hbeyond.1)
    · rintro r rest key fields rfl hrest hget ⟨_, hstocked'⟩
      refine ⟨(hhas key).trans hstocked'.1, ?_⟩
      have hr : r ≠ [] := by
        rintro rfl
        rw [show t.get [] = t from rfl] at hget
        rw [hget] at hroot
        cases hroot
      refine get_setAt_of_label (represents hstocked) x' ?_ hr hrest hget
      intro p p' key fields fields' hp hp'
      exact (hdue.of_label hp).1.symm.trans (hdue.of_label hp').1
  · rw [hhas] at hkey
    by_cases hheld : ∃ fields, t.get (L.place key) = .object (some key) fields
    · obtain ⟨fields, hget⟩ := hheld
      obtain hprefix | ⟨r, hr, hq⟩ | hapart := prefix_or_append_or_apart (L.place key) q
      · refine .inr ((resting_of_isPrefix hdue hstocked hprefix hget).mono ?_ fun key h => ?_)
        · exact get_setAt hdue hstocked _ (.inr (not_beyond_of_isPrefix hprefix))
        · exact (hhas key).trans h
      · obtain ⟨name, names, rfl⟩ := List.exists_cons_of_ne_nil hr
        rw [hq, get_write_append, hget]
        exact .inl ⟨_, rfl⟩
      · rw [get_write_of_apart hapart]
        exact .inl ⟨fields, hget⟩
    · obtain hheld' | hresting | ⟨hlabel, rfl⟩ := hothers key hkey
      · exact absurd hheld' hheld
      · refine .inr (hresting.mono ?_ fun key h => (hhas key).trans h)
        exact get_setAt hdue hstocked _ (.inl fun fields hget => hheld ⟨fields, hget⟩)
      · rw [get_write_self]
        exact .inl ⟨_, get_of_label hlabel⟩
  · calc run ws (t.write q x') = run ws (t.write q x) := run_write_congr hrun
      _ = run ws (u.write q x) := hsame

theorem Carries.store (h : L.Carries shelf t u ((q, x) :: ws)) (hq : q ≠ []) (hx : IsPlain x) :
    L.Carries (Scope.setAt shelf (heldFields t.fields) q x.held).1 (t.write q x) (u.write q x) ws :=
  carries_write h.root h.due h.stocked (fun key hkey => (h.others key hkey).imp_right .inl) h.same
    hq (all_of_isPlain q x hx) (all_of_isPlain q x hx) rfl

theorem get_put_new {scope : Scope} (hkey : shelf.has key = false) {other : LiteralKey}
    (hother : shelf.has other = true) : (shelf.put key scope).get other = shelf.get other := by
  refine Shelf.get_put_of_ne ?_
  rintro rfl
  rw [hkey] at hother
  cases hother

theorem has_put_of_has {scope : Scope} {other : LiteralKey} (hother : shelf.has other = true) :
    (shelf.put key scope).has other = true := by
  rw [Shelf.has_put, hother]
  rfl

theorem stocked_put (scope : Scope) (hkey : shelf.has key = false)
    (h : t.All (Stocked shelf) p) : t.All (Stocked (shelf.put key scope)) p :=
  h.mono fun _ _ _ _ hstocked =>
    ⟨has_put_of_has hstocked.1, (get_put_new hkey hstocked.1).trans hstocked.2⟩

/-- An object that is stored for the first time is put on the shelf as the rule has it. -/
theorem Carries.share_new {fields : Fields Value}
    (h : L.Carries shelf t u ((q, .object (some key) (ofFields fields)) :: ws)) (hq : q ≠ [])
    (hdue : L.Due ws q key (ofFields fields)) (hkey : shelf.has key = false) :
    L.Carries
      (Scope.setAt (shelf.put key (Held.ofFields fields)) (heldFields t.fields) q (.shared key)).1
      (t.write q (.object (some key) (ofFields fields)))
      (u.write q (.object (some key) (ofFields fields))) ws := by
  have hplain := isPlainFields_ofFields fields
  change L.Carries (Scope.setAt _ (heldFields t.fields) q
    (Tree.object (some key) (ofFields fields)).held).1 _ _ _
  refine carries_write h.root h.due (stocked_put _ hkey h.stocked) ?_ h.same hq
    ⟨?_, allFields_of_isPlain q _ hplain⟩ ⟨?_, allFields_of_isPlain q _ hplain⟩ rfl
  · intro other hother
    rw [Shelf.has_put, Bool.or_eq_true, beq_iff_eq] at hother
    obtain hother | rfl := hother
    · refine (h.others other hother).imp_right fun hresting => ?_
      exact .inl (hresting.mono (get_put_new hkey hother) fun _ => has_put_of_has)
    · exact .inr (.inr ⟨rfl, hdue.1⟩)
  · rintro _ ⟨⟩
    exact hdue
  · rintro _ ⟨⟩
    refine ⟨by simp [Shelf.has_put], ?_⟩
    rw [Shelf.get_put_self, heldFields_ofFields]

theorem held_final {fields : Fields Tree}
    (h : L.final key = run (beneath q ws) (.object (some key) fields)) :
    (L.final key).held = .shared key := by
  have hlabel : (L.final key).label = some key := by
    rw [h, label_run_beneath]
    rfl
  rw [get_of_label hlabel]
  rfl

/-- An object that is stored again is in its last state. -/
theorem Carries.share_again {fields : Fields Tree}
    (h : L.Carries shelf t u ((q, .object (some key) fields) :: ws)) (hq : q ≠ [])
    (hplace : L.place key = q)
    (hfinal : L.final key = run (beneath q ws) (.object (some key) fields))
    (hdone : (L.final key).All L.Done q)
    (hkept : (L.final key).All (fun p key _ => run (beneath p ws) (L.final key) = L.final key) q)
    (hkey : shelf.has key = true) :
    L.Carries (Scope.setAt shelf (heldFields t.fields) q (.shared key)).1 (t.write q (L.final key))
      (u.write q (.object (some key) fields)) ws := by
  have hrest (other : LiteralKey) (hother : shelf.has other = true) (hq : q <+: L.place other) :
      L.Resting shelf other := by
    obtain ⟨inside, hget⟩ | hresting := h.others other hother
    · exact resting_of_isPrefix h.due h.stocked hq hget
    · exact hresting
  rw [← held_final hfinal]
  refine carries_write h.root h.due h.stocked
    (fun other hother => (h.others other hother).imp_right .inl) h.same hq ?_ ?_ ?_
  · -- What is in its last state is due, as the writes to come do not change it.
    refine (hdone.and hkept).mono fun r other inside _ hother => ?_
    rw [Due, hother.1.2]
    exact ⟨hother.1.1, hother.2⟩
  · have hresting := (hrest key hkey (hplace ▸ List.prefix_rfl)).2
    rw [hplace] at hresting
    refine hresting.mono fun r other inside hr hother => ⟨hother.2, ?_⟩
    rw [(hrest other hother.2 (hother.1.1 ▸ hr)).1, ← hother.1.2]
    rfl
  · rw [hfinal]
    exact run_run _ _

/-- A draft on its way will be `d` but for its memory, and that too after the steps to come. -/
def Bears (L : Layout) (shelf : Shelf) (c : Carried) (d : Draft) (steps : List Step) : Prop :=
  ∃ t u, c.scope = heldFields t.fields ∧ L.Carries shelf t u (writes steps) ∧
    flatFields u.fields = d.memory ∧ c.draft.forget = d.forget

theorem forget_apply {step : Step} (h : step.write? = none) (d : Draft) :
    (step.apply d).forget = step.apply d.forget := by
  cases step with
  | store path v => cases h
  | share path key fields => cases h
  | listen type id => rfl
  | observe attr => rfl
  | require c slot => cases c <;> rfl

theorem forget_step (shelf : Shelf) (step : Step) (h : c.draft.forget = d.forget) :
    (c.step shelf step).2.draft.forget = (step.apply d).forget := by
  have hother (hstep : step.write? = none) :
      (step.apply c.draft).forget = (step.apply d).forget := by
    rw [forget_apply hstep, forget_apply hstep, h]
  cases step with
  | store path v => exact h
  | share path key fields => exact h
  | _ => exact hother rfl

theorem segments_ne_nil (path : String) : Text.segments path ≠ [] := by
  simp [Text.segments, Text.split_ne_nil]

theorem memory_apply (step : Step) (h : flatFields u.fields = d.memory) :
    flatFields (run (writes [step]) u).fields = (step.apply d).memory := by
  cases step with
  | store path v =>
      rw [Step.apply, Memory.set, ← h]
      exact (flatFields_write u _ (segments_ne_nil path)).trans (by rw [flat_ofValue])
  | share path key fields =>
      rw [Step.apply, Memory.set, ← h]
      exact (flatFields_write u _ (segments_ne_nil path)).trans (by rw [flat, flatFields_ofFields])
  | listen type id => exact h
  | observe attr => exact h
  | require c slot => cases c <;> exact h

/-- One step keeps a draft on its way. -/
theorem Bears.step {step : Step} {steps : List Step} (h : L.Bears shelf c d (step :: steps))
    (hfits : L.Fits (step :: steps))
    (hsteps : ∀ key, step.key? = some key → Overtaken key (step :: steps) → shelf.has key = false) :
    L.Bears (c.step shelf step).1 (c.step shelf step).2 (step.apply d) steps := by
  obtain ⟨t, u, hscope, hcarries, hmemory, hdraft⟩ := h
  have hforget := forget_step shelf step hdraft
  have hmemory := memory_apply step hmemory
  cases step with
  | store path v =>
      have hset := setAt_heldFields (represents hcarries.stocked) (ofValue v) (segments_ne_nil path)
      have hstore := hcarries.store (segments_ne_nil path) (isPlain_ofValue v)
      rw [held_ofValue, ← hscope] at hset hstore
      exact ⟨_, _, hset, hstore, hmemory, hforget⟩
  | share path key fields =>
      have hq := segments_ne_nil path
      cases hkey : shelf.has key with
      | true =>
          -- An object that is there already was stored before, so it is not overtaken.
          have hclear : ¬ Overtaken key (.share path key fields :: steps) := by
            intro hovertaken
            rw [hsteps key rfl hovertaken] at hkey
            cases hkey
          obtain ⟨hdone, hkept⟩ := hfits.all_final hclear
          have hset := setAt_heldFields (represents hcarries.stocked) (L.final key) hq
          have hshare := hcarries.share_again hq hfits.1.1 hfits.1.2 hdone hkept hkey
          rw [held_final hfits.1.2] at hset
          rw [← hscope] at hset hshare
          rw [Carried.step, hkey, if_pos rfl]
          exact ⟨_, _, hset, hshare, hmemory, hdraft⟩
      | false =>
          have hset := setAt_heldFields
            (represents (stocked_put (Held.ofFields fields) hkey hcarries.stocked))
            (.object (some key) (ofFields fields)) hq
          have hshare := hcarries.share_new hq ⟨hfits.1.1, hfits.1.2.symm⟩ hkey
          rw [← hscope] at hset hshare
          rw [Carried.step, hkey, if_neg Bool.false_ne_true]
          exact ⟨_, _, hset, hshare, hmemory, hdraft⟩
  | listen type id => exact ⟨t, u, hscope, hcarries, hmemory, hforget⟩
  | observe attr => exact ⟨t, u, hscope, hcarries, hmemory, hforget⟩
  | require cond slot => exact ⟨t, u, hscope, hcarries, hmemory, hforget⟩

/-! ### The end of a stretch -/

def AtRest (L : Layout) (shelf : Shelf) : Prop :=
  ∀ key, shelf.has key = true → L.Resting shelf key

def Arrived (L : Layout) (shelf : Shelf) (c : Carried) (d : Draft) : Prop :=
  ∃ t : Tree, c.scope = heldFields t.fields ∧
    t.All (fun p key fields => L.Done p key fields ∧ shelf.has key = true) [] ∧
      flatFields t.fields = d.memory ∧ c.draft.forget = d.forget

theorem Bears.arrived (h : L.Bears shelf c d []) : L.AtRest shelf ∧ L.Arrived shelf c d := by
  obtain ⟨t, u, hscope, hcarries, hmemory, hdraft⟩ := h
  have hdone : t.All L.Done [] := hcarries.due
  obtain rfl : t = u := hcarries.same
  refine ⟨fun key hkey => ?_, t, hscope, ?_, hmemory, hdraft⟩
  · obtain ⟨fields, hget⟩ | hresting := hcarries.others key hkey
    · exact resting_of_done hcarries.stocked hget (hdone.get (L.place key))
    · exact hresting
  · exact (hdone.and hcarries.stocked).mono fun _ _ _ _ h => ⟨h.1, h.2.1⟩

def rank (L : Layout) (shelf : Shelf) (key : LiteralKey) : Nat :=
  (shelf.filter fun e => (L.place key).length < (L.place e.1).length).length

theorem rank_lt {inner : LiteralKey} (hinner : shelf.has inner = true)
    (h : (L.place key).length < (L.place inner).length) :
    L.rank shelf inner < L.rank shelf key := by
  obtain ⟨e, he, heq⟩ := List.any_eq_true.1 hinner
  obtain rfl : e.1 = inner := by simpa using heq
  have hsub : shelf.filter (fun e' => (L.place e.1).length < (L.place e'.1).length) =
      (shelf.filter fun e' => (L.place key).length < (L.place e'.1).length).filter
        fun e' => (L.place e.1).length < (L.place e'.1).length := by
    rw [List.filter_filter]
    refine List.filter_congr fun e' _ => ?_
    simp only [← Bool.decide_and, decide_eq_decide]
    omega
  rw [rank, rank, hsub, List.length_filter_lt_length_iff_exists]
  exact ⟨e, by simp [he, h], by simp⟩

theorem rank_lt_length (hkey : shelf.has key = true) : L.rank shelf key < shelf.length := by
  obtain ⟨e, he, heq⟩ := List.any_eq_true.1 hkey
  obtain rfl : e.1 = key := by simpa using heq
  exact List.length_filter_lt_length_iff_exists.2 ⟨e, he, by simp⟩

theorem contents_eq (h : L.AtRest shelf) (hkey : shelf.has key = true) {depth : Nat}
    (hdepth : L.rank shelf key < depth) :
    shelf.contents depth key = flatFields (L.final key).fields := by
  -- An object inside another is stored by a longer path, so it has the smaller rank.
  induction depth generalizing key with
  | zero => exact absurd hdepth (Nat.not_lt_zero _)
  | succ depth ih =>
      obtain ⟨hget, hfinal⟩ := h key hkey
      rw [Shelf.contents, hget]
      refine toFields_heldFields (hfinal.fields.mono fun r inner fields hr hinner => ?_)
      obtain ⟨⟨hplace, hdone⟩, hhas⟩ := hinner
      have hlt : (L.place key).length < (L.place inner).length := hplace ▸ hr.length_lt
      rw [ih hhas (Nat.lt_of_lt_of_le (rank_lt hhas hlt) (Nat.le_of_lt_succ hdepth)), ← hdone]
      rfl

/-- The memory of a draft at the end of a stretch. -/
theorem toMemory_heldFields (h : L.AtRest shelf)
    (ht : t.All (fun p key fields => L.Done p key fields ∧ shelf.has key = true) []) :
    Scope.toMemory shelf (heldFields t.fields) = flatFields t.fields := by
  refine toFields_heldFields (ht.fields.mono fun r key fields _ hkey => ?_)
  obtain ⟨⟨_, hdone⟩, hhas⟩ := hkey
  rw [contents_eq h hhas (rank_lt_length hhas), ← hdone]
  rfl

theorem Arrived.mono {shelf' : Shelf} (h : L.Arrived shelf c d)
    (hhas : ∀ key, shelf.has key = true → shelf'.has key = true) : L.Arrived shelf' c d := by
  obtain ⟨t, hscope, hdone, hmemory, hdraft⟩ := h
  exact ⟨t, hscope, hdone.mono fun _ _ _ _ h => ⟨h.1, hhas _ h.2⟩, hmemory, hdraft⟩

theorem Arrived.toMemory (h : L.Arrived shelf c d) (hrest : L.AtRest shelf) :
    c.scope.toMemory shelf = d.memory := by
  obtain ⟨t, hscope, hdone, hmemory, _⟩ := h
  rw [hscope, toMemory_heldFields hrest hdone, hmemory]

theorem Arrived.settle (h : L.Arrived shelf c d) (hrest : L.AtRest shelf) : c.settle shelf = d := by
  have hmemory := h.toMemory hrest
  obtain ⟨_, _, _, _, hdraft⟩ := h
  rw [Carried.settle, hmemory]
  exact congrArg (fun e : Draft => { e with memory := d.memory }) hdraft

/-- A draft that shares nothing can be taken any way. -/
theorem bears_of_scope (hrest : L.AtRest shelf) (hscope : c.scope = Scope.ofMemory d.memory)
    (hdraft : c.draft.forget = d.forget) (steps : List Step) : L.Bears shelf c d steps := by
  have hplain : IsPlain (.object none (ofFields d.memory)) := ⟨rfl, isPlainFields_ofFields d.memory⟩
  refine ⟨.object none (ofFields d.memory), .object none (ofFields d.memory), ?_, ?_, ?_, hdraft⟩
  · exact hscope.trans (heldFields_ofFields d.memory).symm
  · exact ⟨rfl, all_of_isPlain _ _ hplain, all_of_isPlain _ _ hplain,
      fun key hkey => .inr (hrest key hkey), rfl⟩
  · exact flatFields_ofFields d.memory

theorem Arrived.copy (h : L.Arrived shelf c d) (hrest : L.AtRest shelf) (steps : List Step) :
    L.Bears shelf (c.copy shelf) d steps := by
  refine bears_of_scope hrest ?_ ?_ steps
  · rw [Carried.copy, h.toMemory hrest]
  · obtain ⟨_, _, _, _, hdraft⟩ := h
    exact hdraft

/-! ### Many steps -/

/-- A step puts no object on the shelf but the one that it stores. -/
theorem Bears.has_step {steps : List Step} (h : L.Bears shelf c d steps) {step : Step}
    (hkey : (c.step shelf step).1.has key = true) :
    shelf.has key = true ∨ step.key? = some key := by
  obtain ⟨t, _, hscope, hcarries, _, _⟩ := h
  cases step with
  | store path v =>
      rw [Carried.step, hscope, Scope.set, has_setAt (represents hcarries.stocked)] at hkey
      exact .inl hkey
  | share path literal fields =>
      rw [Carried.step, hscope] at hkey
      cases hliteral : shelf.has literal with
      | true =>
          rw [hliteral, if_pos rfl, Scope.set, has_setAt (represents hcarries.stocked)] at hkey
          exact .inl hkey
      | false =>
          rw [hliteral, if_neg Bool.false_ne_true, Scope.set,
            has_setAt (represents (stocked_put _ hliteral hcarries.stocked)), Shelf.has_put,
            Bool.or_eq_true, beq_iff_eq] at hkey
          exact hkey.imp_right fun heq => congrArg some heq
  | _ => exact .inl hkey

theorem overtaken_cons {step : Step} {steps : List Step} (h : Overtaken key steps) :
    Overtaken key (step :: steps) := by
  obtain ⟨outer, fields, step', write, inner, key', fields', hsub, hrest⟩ := h
  exact ⟨outer, fields, step', write, inner, key', fields', hsub.cons step, hrest⟩

/-- Many steps keep a draft on its way, if no object that is overtaken is stored a second time.
`passed` has the objects that have been stored so far. -/
theorem Bears.steps {steps rest : List Step} {passed : List LiteralKey}
    (h : L.Bears shelf c d (steps ++ rest)) (hfits : L.Fits (steps ++ rest))
    (hpassed : ∀ key, shelf.has key = true → key ∈ passed)
    (honce : ∀ key, Overtaken key (steps ++ rest) →
      (passed ++ steps.filterMap key?).count key ≤ 1) :
    L.Bears (c.steps shelf steps).1 (c.steps shelf steps).2 (steps.foldl Step.apply d) rest ∧
      ∀ key, (c.steps shelf steps).1.has key = true → key ∈ passed ++ steps.filterMap key? := by
  induction steps generalizing shelf c d passed with
  | nil => exact ⟨h, fun key hkey => List.mem_append_left _ (hpassed key hkey)⟩
  | cons step steps ih =>
      have hsplit : passed ++ (step :: steps).filterMap key? =
          (passed ++ step.key?.toList) ++ steps.filterMap key? := by
        cases step <;> simp [List.filterMap_cons, key?]
      rw [hsplit] at honce ⊢
      have hnew (key : LiteralKey) (hstep : step.key? = some key)
          (hovertaken : Overtaken key (step :: (steps ++ rest))) : shelf.has key = false := by
        refine Bool.eq_false_iff.2 fun hkey => ?_
        have hcount := List.count_pos_iff.2 (hpassed key hkey)
        have hle := honce key hovertaken
        rw [hstep, Option.toList_some, List.count_append, List.count_append,
          List.count_singleton_self] at hle
        omega
      refine ih (h.step hfits hnew) hfits.tail (fun key hkey => ?_)
        fun key hkey => honce key (overtaken_cons hkey)
      rw [List.mem_append, Option.mem_toList]
      exact (h.has_step hkey).imp_left (hpassed key)

end Layout

theorem Scope.has_setAt_of_has {shelf : Shelf} {scope : Scope} {q : List String} {new : Held}
    {key : LiteralKey} (h : shelf.has key = true) : (scope.setAt shelf q new).1.has key = true := by
  induction q generalizing scope with
  | nil => exact h
  | cons name names ih =>
      cases names with
      | nil => exact h
      | cons name' names' =>
          rw [setAt]
          · split
            · exact ih
            · rw [Shelf.has_put, ih]
              rfl
            · exact ih
          · simp

end EventFlow
