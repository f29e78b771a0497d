import EventFlow.Proofs.Projection

/-!
The course of a draft through the gate.

Ids arrive in any order, more than once or for the wrong slot, and a rule may be asked for at any
time. What one such event does to a draft is said by `assign_cases` and `release_eq`; whatever the
events, a draft then follows the one before (`follows_step`), and its pattern holds the ids that
were accepted last (`sound_step`).
-/

namespace EventFlow

/-! ### The ids of a pattern -/

namespace Pattern

/-- The slots that wait for an id, in the order of their events. -/
def slots (p : Pattern) : List Slot :=
  if p.isPaired then [.first, .second] else [.fixed]

def idOf : Slot → Pattern → String
  | .fixed, .single _ id => id
  | .first, .paired _ _ id _ => id
  | .second, .paired _ _ _ id => id
  | _, _ => ""

theorem assign?_eq_none_iff {id : String} {slot : Slot} {p : Pattern} :
    p.assign? id slot = none ↔ slot ∉ p.slots := by
  cases slot <;> cases p <;> simp [assign?, slots, isPaired]

variable {id : String} {slot : Slot} {p q : Pattern}

theorem isPaired_assign? (h : p.assign? id slot = some q) : q.isPaired = p.isPaired := by
  cases slot <;> cases p <;> cases h <;> rfl

theorem conditions_assign? (h : p.assign? id slot = some q) (s : Slot) :
    q.conditions s = p.conditions s := by
  cases slot <;> cases p <;> cases h <;> cases s <;> rfl

theorem idOf_assign? (h : p.assign? id slot = some q) (s : Slot) :
    q.idOf s = if s = slot then id else p.idOf s := by
  cases slot <;> cases p <;> cases h <;> cases s <;> rfl

end Pattern

theorem Text.joinWith_pair (sep a b : String) : joinWith sep [a, b] = a ++ sep ++ b := by
  simp [joinWith, join, String.append_assoc]

theorem Text.joinWith_singleton (sep a : String) : joinWith sep [a] = a := by
  simp [joinWith, join]

namespace Rule

/-- A pattern tests the ids of its slots one after the other. -/
theorem events_eq (p : Pattern) :
    events p = "every ev = " ++
      Text.joinWith " -> ev2 = " ((p.slots.map fun slot => p.idOf slot).map eventOf) := by
  cases p with
  | undecided =>
      simp [events, Pattern.slots, Pattern.isPaired, Pattern.idOf, Text.joinWith_singleton]
  | single cs id =>
      simp [events, Pattern.slots, Pattern.isPaired, Pattern.idOf, Text.joinWith_singleton]
  | paired fs ss fid sid =>
      simp [events, Pattern.slots, Pattern.isPaired, Pattern.idOf, Text.joinWith_pair,
        String.append_assoc]

/-- The text of a rule selects the projected names from the last event. -/
theorem patternText_eq (d : Draft) :
    patternText d =
      "select *, " ++ Text.joinWith ", " (("\"" ++ d.name ++ "\" as ruleName") ::
        d.projected.map fun v =>
          (if d.isPaired then "ev2" else "ev") ++ "." ++ v ++ "? as " ++ v) ++
      " from pattern [" ++
      ("every ev = " ++ Text.joinWith " -> ev2 = "
        ((d.pattern.slots.map fun slot => d.pattern.idOf slot).map fun id =>
          "iotEvent(cast(subscriptionId?, String) = \"" ++ id ++ "\")")) ++ "]" := by
  rw [patternText, events_eq]
  rfl

end Rule

namespace Stage

def rank : Stage → Nat
  | .pending => 0
  | .halfway => 1
  | .ready => 2
  | .emitted => 3

end Stage

namespace Draft

theorem stage_eq (d : Draft) :
    d.stage =
      if d.emitted then .emitted
      else if d.isPaired then
        if d.pattern.idOf .first = "" then
          if d.pattern.idOf .second = "" then .pending else .halfway
        else if d.pattern.idOf .second = "" then .halfway else .ready
      else if d.pattern.idOf .fixed = "" then .pending else .ready := by
  obtain ⟨projected, memory, pattern, device, action, name, emitted⟩ := d
  cases pattern <;> rfl

/-- A draft is ready if it has no rule yet and knows all its ids. -/
theorem stage_eq_ready_iff {d : Draft} :
    d.stage = .ready ↔ d.emitted = false ∧ ∀ slot ∈ d.pattern.slots, d.pattern.idOf slot ≠ "" := by
  rw [stage_eq, Pattern.slots, ← isPaired]
  cases d.emitted with
  | true => simp
  | false =>
      cases d.isPaired with
      | true => simp; grind
      | false => simp

/-- With more known than before a draft does not fall back. -/
theorem rank_stage_le {d e : Draft} (hemitted : d.emitted = true → e.emitted = true)
    (hpaired : e.isPaired = d.isPaired)
    (hids : ∀ slot, d.pattern.idOf slot ≠ "" → e.pattern.idOf slot ≠ "") :
    d.stage.rank ≤ e.stage.rank := by
  have hfixed := hids .fixed
  have hfirst := hids .first
  have hsecond := hids .second
  rw [stage_eq d, stage_eq e, hpaired]
  grind [Stage.rank]

end Draft

/-- No id is known of the draft, and no rule was released. -/
structure Draft.IsNew (d : Draft) : Prop where
  emitted : d.emitted = false
  ids : ∀ slot, d.pattern.idOf slot = ""

/-! ### What one event does -/

namespace Gate

/-- An id for a slot of the pattern is recorded. -/
theorem assign_eq {d : Draft} {slot : Slot} {id : String} {p : Pattern} (hid : id ≠ "")
    (hp : d.pattern.assign? id slot = some p) :
    (assign slot id d).state = { d with pattern := p } ∧
      (assign slot id d).outcome = .ok { d with pattern := p }.stage := by
  simp [assign, bind, Run.bind, Run.get, Run.modify, Run.debug, Run.note, pure, Run.pure, hid, hp]

theorem assign_cases (slot : Slot) (id : String) (d : Draft) :
    ((id = "" ∨ slot ∉ d.pattern.slots) ∧ (assign slot id d).state = d ∧
      ∃ e, (assign slot id d).outcome = .error e) ∨
    (id ≠ "" ∧ slot ∈ d.pattern.slots ∧ ∃ p, d.pattern.assign? id slot = some p ∧
      (assign slot id d).state = { d with pattern := p } ∧
      (assign slot id d).outcome = .ok { d with pattern := p }.stage) := by
  by_cases hid : id = ""
  · refine .inl ⟨.inl hid, ?_⟩
    simp [assign, bind, Run.bind, Run.get, Run.fail, hid]
  · cases hp : d.pattern.assign? id slot with
    | none =>
        refine .inl ⟨.inr (Pattern.assign?_eq_none_iff.1 hp), ?_⟩
        by_cases hslot : slot = .fixed
        · subst hslot
          simp [assign, bind, Run.bind, Run.get, Run.fail, hid, hp]
        · simp [assign, bind, Run.bind, Run.get, Run.fail, hid, hp, hslot]
    | some p =>
        have hslot : slot ∈ d.pattern.slots := by
          refine Decidable.byContradiction fun hslot => ?_
          rw [Pattern.assign?_eq_none_iff.2 hslot] at hp
          cases hp
        exact .inr ⟨hid, hslot, p, rfl, assign_eq hid hp⟩

theorem release_of_not_ready {d : Draft} (h : d.stage ≠ .ready) :
    (release d).state = d ∧ (release d).outcome = .ok none := by
  simp [release, bind, Run.bind, Run.get, pure, Run.pure, h]

/-- A ready draft is released with the rule that can be written for it, if there is one. -/
theorem release_of_ready {d : Draft} (h : d.stage = .ready) :
    (release d).outcome = (Rule.write d).outcome ∧
      (release d).state =
        { (Rule.write d).state with
          emitted :=
            (Rule.write d).state.emitted || (Rule.write d).outcome.toOption.join.isSome } := by
  cases hw : (Rule.write d).outcome with
  | error e => simp [release, bind, Run.bind, Run.get, h, hw, Except.toOption]
  | ok rule =>
      cases rule with
      | none =>
          simp [release, bind, Run.bind, Run.get, Run.info, Run.note, pure, Run.pure, h, hw,
            Except.toOption]
      | some rule =>
          simp [release, bind, Run.bind, Run.get, Run.modify, Run.info, Run.note, pure, Run.pure, h,
            hw, Except.toOption]

/-- Releasing a ready draft projects the names of its action; with an action there is a rule, and
the draft is done. -/
theorem release_eq {d : Draft} (h : d.stage = .ready) :
    ∃ (names : List String) (action : Except Failure (Option RuleAction)), ∀ projected,
      let written := { d with projected := Names.addAll projected names }
      (release { d with projected := projected }).state =
          { written with emitted := action.toOption.join.isSome } ∧
        (release { d with projected := projected }).outcome =
          action.map (·.map fun a => ⟨d.name, Rule.patternText written, a⟩) := by
  have hemitted : d.emitted = false := (Draft.stage_eq_ready_iff.1 h).1
  obtain ⟨names, action, hwrite⟩ := Rule.write_eq d
  refine ⟨names, action, fun projected => ?_⟩
  obtain ⟨hs, ho⟩ := hwrite projected
  obtain ⟨houtcome, hstate⟩ := release_of_ready (d := { d with projected := projected }) h
  rw [houtcome, hstate, hs, ho]
  refine ⟨?_, rfl⟩
  cases action with
  | error e => simp [Except.toOption, Except.map, hemitted]
  | ok action => cases action <;> simp [Except.toOption, Except.map, hemitted]

/-- What `release_eq` says of the draft as it is. -/
theorem exists_release_eq {d : Draft} (h : d.stage = .ready) :
    ∃ (names : List String) (action : Except Failure (Option RuleAction)),
      let written := { d with projected := Names.addAll d.projected names }
      (release d).state = { written with emitted := action.toOption.join.isSome } ∧
        (release d).outcome =
          action.map (·.map fun a => ⟨d.name, Rule.patternText written, a⟩) := by
  obtain ⟨names, action, hrelease⟩ := release_eq h
  exact ⟨names, action, hrelease d.projected⟩

/-- What is done on the draft at a place leaves the others alone. -/
theorem onDraft_eq {α : Type} (x : Run Draft Failure α) {drafts : List Draft} {i : Nat} {d : Draft}
    (h : drafts[i]? = some d) :
    (onDraft i x drafts).state = drafts.set i (x d).state ∧
      (onDraft i x drafts).outcome = (x d).outcome := by
  have hget : drafts.getD i {} = d := by
    rw [List.getD_eq_getElem?_getD, h]
    rfl
  rw [onDraft, Run.zoom, hget]
  exact ⟨rfl, rfl⟩

/-! ### What a run of events does -/

inductive Event where
  | assign (slot : Slot) (id : String)
  | release

/-- A draft at the gate, with the ids that were accepted for it, latest first, and the rules that it
was released with. -/
structure Course where
  draft : Draft
  accepted : List (Slot × String) := []
  rules : List Rule := []

namespace Course

/-- The course goes on whether or not an event fails. -/
def step (c : Course) : Event → Course
  | .assign slot id =>
    let ended := assign slot id c.draft
    { c with
      draft := ended.state
      accepted := match ended.outcome with
        | .ok _ => (slot, id) :: c.accepted
        | .error _ => c.accepted }
  | .release =>
    let ended := release c.draft
    { c with
      draft := ended.state
      rules := c.rules ++ ended.outcome.toOption.join.toList }

def run (d : Draft) (events : List Event) : Course :=
  events.foldl step { draft := d }

def latest (c : Course) (slot : Slot) : Option String :=
  c.accepted.lookup slot

theorem run_append (d : Draft) (events more : List Event) :
    run d (events ++ more) = more.foldl step (run d events) :=
  List.foldl_append

end Course

theorem Course.latest_assign (c : Course) (slot : Slot) (id : String) (s : Slot) :
    (c.step (.assign slot id)).latest s =
      if s = slot ∧ id ≠ "" ∧ slot ∈ c.draft.pattern.slots then some id else c.latest s := by
  obtain ⟨hrefused, hstate, e, he⟩ | ⟨hid, hslot, p, -, -, hok⟩ := assign_cases slot id c.draft
  · rw [if_neg fun h => hrefused.elim h.2.1 fun hslot => hslot h.2.2, step, he]
    rfl
  · rw [step, hok, latest, List.lookup_cons]
    by_cases hs : s = slot
    · simp [hs, hid, hslot]
    · rw [if_neg fun h => hs h.1, beq_eq_false_iff_ne.2 hs]
      rfl

/-- How a draft may differ from what it was before: it is further on its way and projects more names
after the ones that it did, but waits for the same events and asks for the same action. -/
structure Follows (d e : Draft) : Prop where
  stage : d.stage.rank ≤ e.stage.rank
  isPaired : e.isPaired = d.isPaired
  conditions : ∀ slot, e.pattern.conditions slot = d.pattern.conditions slot
  name : e.name = d.name
  action : e.action = d.action
  memory : e.memory = d.memory
  device : e.device = d.device
  projected : d.projected <+: e.projected

theorem Follows.refl (d : Draft) : Follows d d :=
  ⟨Nat.le_refl _, rfl, fun _ => rfl, rfl, rfl, rfl, rfl, List.prefix_rfl⟩

theorem Follows.trans {d e f : Draft} (h : Follows d e) (h' : Follows e f) : Follows d f where
  stage := Nat.le_trans h.stage h'.stage
  isPaired := h'.isPaired.trans h.isPaired
  conditions slot := (h'.conditions slot).trans (h.conditions slot)
  name := h'.name.trans h.name
  action := h'.action.trans h.action
  memory := h'.memory.trans h.memory
  device := h'.device.trans h.device
  projected := h.projected.trans h'.projected

theorem follows_assign (slot : Slot) (id : String) (d : Draft) :
    Follows d (assign slot id d).state := by
  obtain ⟨-, hstate, -⟩ | ⟨hid, -, p, hp, hstate, -⟩ := assign_cases slot id d
  · rw [hstate]
    exact .refl d
  · rw [hstate]
    have hpaired := Pattern.isPaired_assign? hp
    refine ⟨Draft.rank_stage_le (fun he => he) hpaired fun s hs => ?_, hpaired,
      Pattern.conditions_assign? hp, rfl, rfl, rfl, rfl, List.prefix_rfl⟩
    change p.idOf s ≠ ""
    rw [Pattern.idOf_assign? hp]
    split
    · exact hid
    · exact hs

theorem follows_release (d : Draft) : Follows d (release d).state := by
  by_cases h : d.stage = .ready
  · obtain ⟨names, action, hstate, -⟩ := exists_release_eq h
    rw [hstate]
    have hemitted : d.emitted = false := (Draft.stage_eq_ready_iff.1 h).1
    refine ⟨Draft.rank_stage_le (fun he => ?_) rfl fun _ hs => hs, rfl, fun _ => rfl, rfl, rfl, rfl,
      rfl, Names.prefix_addAll _ _⟩
    rw [hemitted] at he
    cases he
  · rw [(release_of_not_ready h).1]
    exact .refl d

theorem follows_step (c : Course) (event : Event) : Follows c.draft (c.step event).draft := by
  cases event with
  | assign slot id => exact follows_assign slot id c.draft
  | release => exact follows_release c.draft

theorem follows_run (c : Course) (events : List Event) :
    Follows c.draft (events.foldl Course.step c).draft := by
  induction events generalizing c with
  | nil => exact .refl c.draft
  | cons event events ih => exact (follows_step c event).trans (ih (c.step event))

theorem Follows.slots {d e : Draft} (h : Follows d e) : e.pattern.slots = d.pattern.slots := by
  rw [Pattern.slots, Pattern.slots, show e.pattern.isPaired = d.pattern.isPaired from h.isPaired]

theorem slots_run (d : Draft) (events : List Event) :
    (Course.run d events).draft.pattern.slots = d.pattern.slots :=
  (follows_run { draft := d } events).slots

/-- The pattern holds what was accepted last, and a rule was given if the draft says so. -/
structure Course.Sound (c : Course) : Prop where
  ids : ∀ slot, c.latest slot =
    if c.draft.pattern.idOf slot = "" then none else some (c.draft.pattern.idOf slot)
  rules : c.rules.length = if c.draft.emitted then 1 else 0

theorem Course.Sound.assign {c : Course} (h : c.Sound) (slot : Slot) (id : String) :
    (c.step (.assign slot id)).Sound := by
  obtain ⟨-, hstate, e, he⟩ | ⟨hid, hslot, p, hp, hstate, -⟩ := assign_cases slot id c.draft
  · rw [step, hstate, he]
    exact h
  · have hdraft : (c.step (.assign slot id)).draft = { c.draft with pattern := p } := hstate
    refine ⟨fun s => ?_, by rw [hdraft]; exact h.rules⟩
    rw [latest_assign, hdraft, Pattern.idOf_assign? hp]
    by_cases hs : s = slot
    · simp [hs, hid, hslot]
    · simp [hs, h.ids s]

theorem Course.Sound.release {c : Course} (h : c.Sound) : (c.step .release).Sound := by
  by_cases hready : c.draft.stage = .ready
  · obtain ⟨names, action, hstate, houtcome⟩ := exists_release_eq hready
    -- A draft that is ready has no rule yet, so the one it may get now is the first.
    have hrules := h.rules
    rw [(Draft.stage_eq_ready_iff.1 hready).1] at hrules
    rw [step, hstate, houtcome]
    refine ⟨h.ids, ?_⟩
    cases action with
    | error e => simpa [Except.map, Except.toOption] using hrules
    | ok action => cases action <;> simpa [Except.map, Except.toOption] using hrules
  · obtain ⟨hstate, houtcome⟩ := release_of_not_ready hready
    rw [step, hstate, houtcome]
    refine ⟨h.ids, ?_⟩
    simpa [Except.toOption] using h.rules

theorem sound_step {c : Course} (h : c.Sound) (event : Event) : (c.step event).Sound := by
  cases event with
  | assign slot id => exact h.assign slot id
  | release => exact h.release

theorem sound_run {c : Course} (h : c.Sound) (events : List Event) :
    (events.foldl Course.step c).Sound := by
  induction events generalizing c with
  | nil => exact h
  | cons event events ih => exact ih (sound_step h event)

theorem sound_begin {d : Draft} (h : d.IsNew) : ({ draft := d } : Course).Sound :=
  ⟨fun slot => (if_pos (h.ids slot)).symm, by rw [h.emitted]; rfl⟩

theorem sound_course {d : Draft} (h : d.IsNew) (events : List Event) :
    (Course.run d events).Sound :=
  sound_run (sound_begin h) events

/-- A draft is ready once all its ids are accepted, until it is released with a rule. -/
theorem Course.Sound.ready_iff {c : Course} (h : c.Sound) :
    c.draft.stage = .ready ↔
      c.rules = [] ∧ ∀ slot ∈ c.draft.pattern.slots, c.latest slot ≠ none := by
  rw [Draft.stage_eq_ready_iff]
  refine and_congr ?_ (forall₂_congr fun slot _ => ?_)
  · rw [← List.length_eq_zero_iff, h.rules]
    cases c.draft.emitted <;> simp
  · rw [h.ids]
    split
    · next hid => simp [hid]
    · next hid => simp [hid]

/-- A rule is written from the draft that is left, whose ids are the ones accepted last. -/
theorem Course.Sound.text {c : Course} (h : c.Sound) {rule : Rule}
    (hrule : (Gate.release c.draft).outcome = .ok (some rule)) :
    c.draft.stage = .ready ∧
      c.draft.pattern.slots.map c.latest =
        (c.draft.pattern.slots.map fun slot => c.draft.pattern.idOf slot).map some ∧
      (Gate.release c.draft).state.pattern = c.draft.pattern ∧
      rule.text = Rule.patternText (Gate.release c.draft).state := by
  by_cases hready : c.draft.stage = .ready
  · obtain ⟨names, action, hstate, houtcome⟩ := exists_release_eq hready
    refine ⟨hready, ?_, by rw [hstate], ?_⟩
    · rw [List.map_map]
      refine List.map_congr_left fun slot hslot => ?_
      rw [h.ids, if_neg ((Draft.stage_eq_ready_iff.1 hready).2 slot hslot)]
      rfl
    · rw [houtcome] at hrule
      rw [hstate]
      cases action with
      | error e => cases hrule
      | ok action =>
          cases action with
          | none => cases hrule
          | some a =>
              cases hrule
              rfl
  · rw [(release_of_not_ready hready).2] at hrule
    cases hrule

/-- Whatever happens to a new draft at the gate, it is released with one rule at most. The rule is
the one that is written as soon as an id has been accepted for every slot, and it tests the ids that
were accepted last, in the order of their events. An id that is refused, because it is empty or its
slot is none of the pattern, leaves no trace; and the draft only moves forward. -/
theorem course_safe {d : Draft} (hnew : d.IsNew) (events : List Event) :
    let c := Course.run d events
    c.rules.length ≤ 1 ∧
    (∀ rule, (release c.draft).outcome = .ok (some rule) → ∃ ids : List String,
      d.pattern.slots.map c.latest = ids.map some ∧
      rule.text =
        "select *, " ++ Text.joinWith ", " (("\"" ++ d.name ++ "\" as ruleName") ::
          (release c.draft).state.projected.map fun v =>
            (if d.isPaired then "ev2" else "ev") ++ "." ++ v ++ "? as " ++ v) ++
        " from pattern [" ++
        ("every ev = " ++ Text.joinWith " -> ev2 = "
          (ids.map fun id => "iotEvent(cast(subscriptionId?, String) = \"" ++ id ++ "\")")) ++
        "]") ∧
    (c.rules = [] → (∀ slot ∈ d.pattern.slots, c.latest slot ≠ none) →
      (release c.draft).outcome = (Rule.write c.draft).outcome) ∧
    (∀ slot id,
      ((∃ e, (assign slot id c.draft).outcome = .error e) ↔ id = "" ∨ slot ∉ d.pattern.slots) ∧
      ((∃ e, (assign slot id c.draft).outcome = .error e) →
        (assign slot id c.draft).state = c.draft)) ∧
    ∀ more, Follows c.draft (Course.run d (events ++ more)).draft := by
  intro c
  have hsound : c.Sound := sound_course hnew events
  have hslots : c.draft.pattern.slots = d.pattern.slots := slots_run d events
  refine ⟨?_, fun rule hrule => ?_, fun hrules hlatest => ?_, fun slot id => ?_, fun more => ?_⟩
  · rw [hsound.rules]
    split <;> decide
  · obtain ⟨-, hlatest, hpattern, htext⟩ := hsound.text hrule
    have hfollows : Follows d (release c.draft).state :=
      (follows_run { draft := d } events).trans (follows_release c.draft)
    rw [← hslots]
    refine ⟨_, hlatest, ?_⟩
    rw [htext, Rule.patternText_eq, hfollows.name, hfollows.isPaired, hpattern]
  · rw [← hslots] at hlatest
    exact (release_of_ready (hsound.ready_iff.2 ⟨hrules, hlatest⟩)).1
  · rw [← hslots]
    obtain ⟨hrefused, hstate, e, he⟩ | ⟨hid, hslot, p, -, -, hok⟩ := assign_cases slot id c.draft
    · exact ⟨iff_of_true ⟨e, he⟩ hrefused, fun _ => hstate⟩
    · have hnone : ¬ ∃ e, (assign slot id c.draft).outcome = .error e := by
        rintro ⟨e, he⟩
        rw [hok] at he
        cases he
      exact ⟨iff_of_false hnone (by simp [hid, hslot]), fun h => absurd h hnone⟩
  · rw [Course.run_append]
    exact follows_run c more

def pairedPost : Draft where
  memory := [("payload", .text "reading {{msg.value}}")]
  pattern := .paired [] [] "" ""
  action := some ⟨"", .post "http://service" "POST" "payload"⟩
  name := "rule"

/-- Ids that come late, for the wrong slot, empty or twice. -/
def troubledEvents : List Event :=
  [.release, .assign .fixed "x", .assign .second "old", .release, .assign .first "",
    .assign .second "b", .assign .first "a", .release, .assign .first "new", .release]

theorem course_safe_pairedPost :
    (Course.run pairedPost troubledEvents).rules.map Rule.text =
      ["select *, \"rule\" as ruleName, ev2.value? as value from pattern [every ev = " ++
        "iotEvent(cast(subscriptionId?, String) = \"a\") -> ev2 = " ++
        "iotEvent(cast(subscriptionId?, String) = \"b\")]"] ∧
    (∀ more, Follows (Course.run pairedPost troubledEvents).draft
      (Course.run pairedPost (troubledEvents ++ more)).draft) := by
  refine ⟨by with_unfolding_all rfl, ?_⟩
  have hnew : pairedPost.IsNew := ⟨rfl, fun slot => by cases slot <;> rfl⟩
  exact (course_safe hnew troubledEvents).2.2.2.2

end Gate

end EventFlow
