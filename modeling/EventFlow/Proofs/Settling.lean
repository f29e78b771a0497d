import EventFlow.Proofs.Course
import Mathlib.Data.List.Induction

/-!
How a draft settles.

As long as an id is missing, asking for the rule does nothing. Once the last id is there, the first
time that the rule is asked for settles the draft: the names that the action refers to are
projected, and asking again neither adds a name nor gives a second rule (`release_release`). So a
draft goes through three phases (`Phase`), whatever the order of the events, and what it ends as
depends on the ids alone (`settled_run`). It makes no difference if an id is reported twice.
-/

namespace EventFlow

namespace Pattern

def fill (ids : Slot → String) : Pattern → Pattern
  | .undecided => .single [] (ids .fixed)
  | .single cs _ => .single cs (ids .fixed)
  | .paired fs ss _ _ => .paired fs ss (ids .first) (ids .second)

variable {ids : Slot → String} {p q : Pattern} {slot : Slot}

theorem isPaired_fill (ids : Slot → String) (p : Pattern) :
    (p.fill ids).isPaired = p.isPaired := by
  cases p <;> rfl

theorem slots_fill (ids : Slot → String) (p : Pattern) : (p.fill ids).slots = p.slots := by
  rw [slots, slots, isPaired_fill]

theorem idOf_fill (h : slot ∈ p.slots) : (p.fill ids).idOf slot = ids slot := by
  cases p <;> cases slot <;> simp_all [slots, isPaired, fill, idOf]

theorem map_idOf_fill (ids : Slot → String) (p : Pattern) :
    ((p.fill ids).slots.map fun slot => (p.fill ids).idOf slot) = p.slots.map ids := by
  rw [slots_fill]
  exact List.map_congr_left fun slot hslot => idOf_fill hslot

/-- Reporting an id once more changes nothing. -/
theorem assign?_fill (h : (p.fill ids).assign? (ids slot) slot = some q) : q = p.fill ids := by
  cases p <;> cases slot <;> simp_all [fill, assign?]

/-- A pattern is known from its conditions and its ids, if there are any. -/
theorem eq_fill (hpaired : q.isPaired = p.isPaired)
    (hconditions : ∀ slot, q.conditions slot = p.conditions slot)
    (hids : ∀ slot ∈ p.slots, q.idOf slot = ids slot) (hknown : ∀ slot ∈ p.slots, ids slot ≠ "") :
    q = p.fill ids := by
  have hfixed := hconditions .fixed
  have hfirst := hconditions .first
  have hsecond := hconditions .second
  cases p <;> cases q <;> simp_all [isPaired, slots, conditions, idOf, fill]

end Pattern

def Draft.fill (ids : Slot → String) (d : Draft) : Draft :=
  { d with pattern := d.pattern.fill ids }

namespace Gate

variable {ids : Slot → String} {d : Draft} {c : Course}

structure Settled (ids : Slot → String) (d : Draft) (c : Course) : Prop where
  draft : c.draft = (release (d.fill ids)).state
  rules : c.rules = (release (d.fill ids)).outcome.toOption.join.toList

inductive Phase (ids : Slot → String) (d : Draft) (c : Course) : Prop where
  | waiting (missing : ∃ slot ∈ d.pattern.slots, c.latest slot = none)
      (known : ∀ slot id, c.latest slot = some id → id = ids slot)
      (draft : c.draft = { d with pattern := c.draft.pattern }) (rules : c.rules = [])
  | complete (draft : c.draft = d.fill ids) (rules : c.rules = [])
  | settled (settled : Settled ids d c)

def Event.Fits (ids : Slot → String) : Event → Prop
  | .assign slot id => id = ids slot
  | .release => True

/-- A draft that has its ids keeps them. -/
theorem assign_of_fill {e : Draft} {slot : Slot} (h : e.pattern = d.pattern.fill ids) :
    (assign slot (ids slot) e).state = e := by
  obtain ⟨-, hstate, -⟩ | ⟨-, -, p, hp, hstate, -⟩ := assign_cases slot (ids slot) e
  · exact hstate
  · rw [hstate]
    rw [h] at hp
    rw [Pattern.assign?_fill hp, ← h]

theorem stage_fill (hnew : d.IsNew) (hids : ∀ slot ∈ d.pattern.slots, ids slot ≠ "") :
    (d.fill ids).stage = .ready := by
  refine Draft.stage_eq_ready_iff.2 ⟨hnew.emitted, fun slot hslot => ?_⟩
  have hslot : slot ∈ d.pattern.slots := by
    rwa [← Pattern.slots_fill ids]
  rw [Draft.fill, Pattern.idOf_fill hslot]
  exact hids slot hslot

/-- Asking a second time for the rule of a draft changes nothing. -/
theorem release_release (h : d.stage = .ready) :
    (release (release d).state).state = (release d).state ∧
      (release d).outcome.toOption.join.toList ++
          (release (release d).state).outcome.toOption.join.toList =
        (release d).outcome.toOption.join.toList := by
  obtain ⟨names, action, hrelease⟩ := release_eq h
  obtain ⟨hstate, houtcome⟩ := hrelease d.projected
  change (release d).state = _ at hstate
  change (release d).outcome = _ at houtcome
  cases hsome : action.toOption.join with
  | some a =>
      have hdone : (release d).state.stage ≠ .ready := by
        rw [hstate, hsome]
        simp [Draft.stage]
      obtain ⟨hs, ho⟩ := release_of_not_ready hdone
      rw [hs, ho]
      simp [Except.toOption]
  | none =>
      -- The names are all there by now, so writing the rule once more ends as it did.
      have hsame : (release d).state =
          { d with projected := Names.addAll d.projected names } := by
        have hemitted : d.emitted = false := (Draft.stage_eq_ready_iff.1 h).1
        rw [hstate, hsome, hemitted]
        rfl
      obtain ⟨hs, ho⟩ := hrelease (Names.addAll d.projected names)
      rw [Names.addAll_addAll_self, ← hstate, ← hsame] at hs
      rw [Names.addAll_addAll_self, ← houtcome, ← hsame] at ho
      rw [hs, ho, houtcome]
      refine ⟨rfl, ?_⟩
      cases action with
      | error e => rfl
      | ok action =>
          obtain rfl : action = none := hsome
          rfl

theorem pattern_release (d : Draft) : (release d).state.pattern = d.pattern := by
  by_cases h : d.stage = .ready
  · obtain ⟨names, action, hstate, -⟩ := exists_release_eq h
    rw [hstate]
  · rw [(release_of_not_ready h).1]

theorem phase_assign (hids : ∀ slot ∈ d.pattern.slots, ids slot ≠ "") (hsound : c.Sound)
    (hfollows : Follows d c.draft) (h : Phase ids d c) (slot : Slot) :
    Phase ids d (c.step (.assign slot (ids slot))) := by
  have hsound' := hsound.assign slot (ids slot)
  have hfollows' := hfollows.trans (follows_step c (.assign slot (ids slot)))
  cases h with
  | waiting missing known draft rules =>
      obtain ⟨-, hstate, e, he⟩ | ⟨-, -, p, -, hstate, -⟩ := assign_cases slot (ids slot) c.draft
      · have hsame : c.step (.assign slot (ids slot)) = c := by
          rw [Course.step, hstate, he]
        rw [hsame]
        exact .waiting missing known draft rules
      · have hdraft : (c.step (.assign slot (ids slot))).draft = { d with pattern := p } := by
          rw [Course.step, hstate, draft]
        have hknown (s : Slot) (id : String)
            (hs : (c.step (.assign slot (ids slot))).latest s = some id) : id = ids s := by
          rw [Course.latest_assign] at hs
          split at hs
          · next heq =>
              cases hs
              rw [heq.1]
          · exact known s id hs
        by_cases hmissing :
            ∃ s ∈ d.pattern.slots, (c.step (.assign slot (ids slot))).latest s = none
        · exact .waiting hmissing hknown (by rw [hdraft]) rules
        · refine .complete ?_ rules
          -- No slot is without an id, and what the pattern holds is what was accepted last.
          rw [hdraft] at hfollows' ⊢
          rw [Draft.fill]
          congr
          refine Pattern.eq_fill hfollows'.isPaired hfollows'.conditions (fun s hs => ?_) hids
          have hlatest := hsound'.ids s
          rw [hdraft] at hlatest
          change _ = if p.idOf s = "" then none else some (p.idOf s) at hlatest
          split at hlatest
          · exact absurd ⟨s, hs, hlatest⟩ hmissing
          · exact hknown s _ hlatest
  | complete draft rules =>
      refine .complete ?_ rules
      rw [← draft]
      exact assign_of_fill (congrArg Draft.pattern draft)
  | settled settled =>
      refine .settled ⟨?_, settled.rules⟩
      rw [← settled.draft]
      have hpattern : c.draft.pattern = d.pattern.fill ids := by
        rw [settled.draft, pattern_release]
        rfl
      exact assign_of_fill hpattern

theorem Settled.release (hnew : d.IsNew) (hids : ∀ slot ∈ d.pattern.slots, ids slot ≠ "")
    (h : Settled ids d c) : Settled ids d (c.step .release) := by
  obtain ⟨hstate, hrules⟩ := release_release (stage_fill hnew hids)
  refine ⟨?_, ?_⟩
  · rw [Course.step, h.draft, hstate]
  · rw [Course.step, h.draft, h.rules, hrules]

theorem settled_of_complete (draft : c.draft = d.fill ids) (rules : c.rules = []) :
    Settled ids d (c.step .release) :=
  ⟨by rw [Course.step, draft], by rw [Course.step, draft, rules]; rfl⟩

theorem phase_release (hnew : d.IsNew) (hids : ∀ slot ∈ d.pattern.slots, ids slot ≠ "")
    (hsound : c.Sound) (hfollows : Follows d c.draft) (h : Phase ids d c) :
    Phase ids d (c.step .release) := by
  cases h with
  | waiting missing known draft rules =>
      have hready : c.draft.stage ≠ .ready := by
        intro hready
        obtain ⟨slot, hslot, hlatest⟩ := missing
        exact (hsound.ready_iff.1 hready).2 slot (hfollows.slots ▸ hslot) hlatest
      obtain ⟨hstate, houtcome⟩ := release_of_not_ready hready
      have hsame : c.step .release = c := by
        rw [Course.step, hstate, houtcome]
        simp [Except.toOption]
      rw [hsame]
      exact .waiting missing known draft rules
  | complete draft rules => exact .settled (settled_of_complete draft rules)
  | settled settled => exact .settled (settled.release hnew hids)

theorem phase_run (hnew : d.IsNew) (hids : ∀ slot ∈ d.pattern.slots, ids slot ≠ "")
    {events : List Event} (hfits : ∀ event ∈ events, event.Fits ids) :
    Phase ids d (Course.run d events) := by
  induction events using List.reverseRecOn with
  | nil =>
      refine .waiting ?_ (fun slot id h => nomatch h) rfl rfl
      cases hpaired : d.pattern.isPaired with
      | true => exact ⟨.first, by simp [Pattern.slots, hpaired], rfl⟩
      | false => exact ⟨.fixed, by simp [Pattern.slots, hpaired], rfl⟩
  | append_singleton events event ih =>
      rw [List.forall_mem_append] at hfits
      have hphase := ih hfits.1
      have hsound := sound_course hnew events
      have hfollows := follows_run { draft := d } events
      rw [Course.run_append]
      cases event with
      | assign slot id =>
          obtain rfl : id = ids slot := hfits.2 _ (List.mem_singleton_self _)
          exact phase_assign hids hsound hfollows hphase slot
      | release => exact phase_release hnew hids hsound hfollows hphase

theorem mem_of_latest {events : List Event} {slot : Slot} {id : String}
    (h : (Course.run d events).latest slot = some id) : .assign slot id ∈ events := by
  induction events using List.reverseRecOn with
  | nil => cases h
  | append_singleton events event ih =>
      rw [List.mem_append, List.mem_singleton]
      rw [Course.run_append] at h
      cases event with
      | assign s i =>
          change ((Course.run d events).step (.assign s i)).latest slot = some id at h
          rw [Course.latest_assign] at h
          split at h
          · next heq =>
              cases h
              exact .inr (heq.1 ▸ rfl)
          · exact .inl (ih h)
      | release => exact .inl (ih h)

theorem latest_ne_none {events : List Event} {slot : Slot} {id : String} (hid : id ≠ "")
    (hslot : slot ∈ d.pattern.slots) (h : .assign slot id ∈ events) :
    (Course.run d events).latest slot ≠ none := by
  induction events using List.reverseRecOn with
  | nil => cases h
  | append_singleton events event ih =>
      rw [List.mem_append, List.mem_singleton] at h
      rw [Course.run_append]
      cases event with
      | assign s i =>
          change ((Course.run d events).step (.assign s i)).latest slot ≠ none
          rw [Course.latest_assign]
          split
          · exact Option.some_ne_none i
          · next hrefused =>
              refine ih (h.resolve_right fun heq => hrefused ?_)
              cases heq
              exact ⟨rfl, hid, slots_run d events ▸ hslot⟩
      | release => exact ih (h.resolve_right nofun)

theorem settled_run (hnew : d.IsNew) (hids : ∀ slot ∈ d.pattern.slots, ids slot ≠ "")
    {before after : List Event} (hfits : ∀ event ∈ before, event.Fits ids)
    (hbefore : ∀ slot ∈ d.pattern.slots, .assign slot (ids slot) ∈ before)
    (hafter : ∀ event ∈ after, event = .release) :
    Settled ids d (Course.run d (before ++ .release :: after)) := by
  have hreleased : Settled ids d ((Course.run d before).step .release) := by
    cases phase_run hnew hids hfits with
    | waiting missing _ _ _ =>
        obtain ⟨slot, hslot, hlatest⟩ := missing
        exact absurd hlatest (latest_ne_none (hids slot hslot) hslot (hbefore slot hslot))
    | complete draft rules => exact settled_of_complete draft rules
    | settled settled => exact settled.release hnew hids
  rw [Course.run_append, List.foldl_cons]
  -- The course so far matters no more: a draft that has settled stays so.
  generalize (Course.run d before).step .release = c at hreleased
  induction after generalizing c with
  | nil => exact hreleased
  | cons event after ih =>
      rw [List.forall_mem_cons] at hafter
      obtain ⟨rfl, hafter⟩ := hafter
      exact ih hafter _ (hreleased.release hnew hids)

end Gate

end EventFlow
