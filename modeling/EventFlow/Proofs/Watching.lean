import EventFlow.Proofs.Pairing

/-!
What a draft watches and projects.

A comparison is recorded together with the attribute that it reads, which is then both projected and
watched, so the books of a draft are in order (`Draft.Booked`) after every node that it passes. At
the gate the action of a draft may make it project more, but no condition changes, and nothing is
taken back.
-/

namespace EventFlow

theorem Names.nodup_addAll {names : List String} (more : List String) (h : names.Nodup) :
    (addAll names more).Nodup := by
  induction more generalizing names with
  | nil => exact h
  | cons name more ih => exact ih (nodup_add name h)

def Condition.IsSigned : Condition → Prop
  | .comparison _ operator _ => operator.symbol?.isSome = true
  | .spatial .. => True

/-- Whichever slot a condition was added to, it is the only new one. A pattern that becomes one of
two events takes its conditions along. -/
theorem Pattern.mem_conditions_add {p : Pattern} {c x : Condition} {slot s : Slot}
    (h : x ∈ (p.add c slot).conditions s) : x = c ∨ ∃ s', x ∈ p.conditions s' := by
  have hslots : x = c ∨ x ∈ p.conditions .fixed ∨ x ∈ p.conditions .first ∨
      x ∈ p.conditions .second := by
    cases p <;> cases slot <;> cases s <;> grind [add, conditions]
  obtain hx | hx | hx | hx := hslots
  · exact .inl hx
  · exact .inr ⟨.fixed, hx⟩
  · exact .inr ⟨.first, hx⟩
  · exact .inr ⟨.second, hx⟩

namespace Draft

/-- What a draft compares is projected and watched, no name is noted twice, and all comparisons can
be written for the broker. -/
structure Booked (d : Draft) : Prop where
  projected : d.projected.Nodup
  attributes : d.device.attributes.Nodup
  compared : ∀ slot property operator value,
    .comparison property operator value ∈ d.pattern.conditions slot →
      property ∈ d.projected ∧ property ∈ d.device.attributes ∧ operator.symbol?.isSome = true

namespace Booked

variable {d : Draft}

theorem addAttribute (h : d.Booked) (name : String) : (d.addAttribute name).Booked where
  projected := h.projected
  attributes := Names.nodup_add name h.attributes
  compared slot property operator value hmem := by
    obtain ⟨hprojected, hwatched, hsign⟩ := h.compared slot property operator value hmem
    exact ⟨hprojected, Names.mem_add.2 (.inl hwatched), hsign⟩

theorem addVariable (h : d.Booked) (name : String) : (d.addVariable name).Booked where
  projected := Names.nodup_add name h.projected
  attributes := h.attributes
  compared slot property operator value hmem := by
    obtain ⟨hprojected, hwatched, hsign⟩ := h.compared slot property operator value hmem
    exact ⟨Names.mem_add.2 (.inl hprojected), hwatched, hsign⟩

theorem addCondition (h : d.Booked) {c : Condition} (slot : Slot)
    (hc : ∀ property operator value, c = .comparison property operator value →
      property ∈ d.projected ∧ property ∈ d.device.attributes ∧ operator.symbol?.isSome = true) :
    (d.addCondition c slot).Booked where
  projected := h.projected
  attributes := h.attributes
  compared s property operator value hmem := by
    obtain heq | ⟨s', hmem⟩ := Pattern.mem_conditions_add hmem
    · exact hc property operator value heq.symm
    · exact h.compared s' property operator value hmem

theorem require (h : d.Booked) {c : Condition} (hc : c.IsSigned) (slot : Slot) :
    (d.require c slot).Booked := by
  cases c with
  | comparison property operator value =>
      refine ((h.addVariable property).addAttribute property).addCondition slot ?_
      rintro _ _ _ ⟨⟩
      exact ⟨Names.mem_add.2 (.inr rfl), Names.mem_add.2 (.inr rfl), hc⟩
  | spatial relation coords => exact h.addCondition slot nofun

theorem apply (h : d.Booked) {step : Step}
    (hstep : ∀ demand, step.demand? = some demand → demand.1.IsSigned) : (step.apply d).Booked := by
  cases step with
  | listen type id => exact ⟨h.projected, h.attributes, h.compared⟩
  | require c slot => exact h.require (hstep (c, slot) rfl) slot
  | observe attr => exact h.addAttribute attr
  | store path v => exact ⟨h.projected, h.attributes, h.compared⟩
  | share path key fields => exact ⟨h.projected, h.attributes, h.compared⟩

end Booked

/-- What a draft projects is watched, which only the action of the draft can change. -/
def WatchesProjected (d : Draft) : Prop :=
  ∀ name ∈ d.projected, name ∈ d.device.attributes

theorem WatchesProjected.apply {d : Draft} (h : d.WatchesProjected) (step : Step) :
    (step.apply d).WatchesProjected := by
  cases step with
  | require c slot =>
      cases c with
      | comparison property operator value =>
          intro name hname
          exact Names.mem_add.2 ((Names.mem_add.1 hname).imp_left (h name))
      | spatial relation coords => exact h
  | observe attr => exact fun name hname => Names.mem_add.2 (.inl (h name hname))
  | _ => exact h

end Draft

/-! ### Along a route -/

theorem Area.isSigned_condition (points : Option (List Vertex)) (relation : Relation) :
    (Area.condition points relation).IsSigned := by
  obtain ⟨coords, hcoords⟩ := Condition.exists_area points
  rw [hcoords]
  trivial

theorem Branch.isSigned_crossing {property : String} {rule : Branch} :
    ∀ step ∈ rule.crossing property, ∀ demand, step.demand? = some demand → demand.1.IsSigned := by
  rw [Branch.crossing]
  split
  · intro step hstep
    cases hstep
  · next edge _ =>
      intro step hstep demand hdemand
      rw [List.mem_cons, List.mem_singleton] at hstep
      cases edge <;> obtain rfl | rfl := hstep <;> cases hdemand <;> exact rfl

/-- Every comparison that a node demands has a sign. -/
theorem Node.isSigned_effects (n : Node) (i : Nat) :
    ∀ step ∈ n.effects i, ∀ demand, step.demand? = some demand → demand.1.IsSigned := by
  intro step hstep demand hdemand
  obtain ⟨id, type, tab, wires, kind⟩ := n
  cases kind with
  | source deviceId deviceType =>
      rw [List.mem_singleton.1 hstep] at hdemand
      cases hdemand
  | switch property rules =>
      cases hrule : rules[i]? with
      | none => simp [effects, hrule] at hstep
      | some rule =>
          simp only [effects, hrule, Option.map_some, Option.getD_some] at hstep
          obtain ⟨test, hsign, rfl⟩ | rfl := Branch.mem_steps hstep
          · cases hdemand
            exact hsign
          · cases hdemand
  | edge property rules =>
      cases hrule : rules[i]? with
      | none => simp [effects, hrule] at hstep
      | some rule =>
          simp only [effects, hrule, Option.map_some, Option.getD_some] at hstep
          exact rule.isSigned_crossing step hstep demand hdemand
  | geofence points mode filter =>
      change step ∈ Area.steps points filter at hstep
      rw [Area.steps] at hstep
      split at hstep
      · obtain ⟨test, -, rfl⟩ := List.mem_map.1 hstep
        cases hdemand
        exact Area.isSigned_condition points test.2
      · cases hstep
  | change rules =>
      obtain ⟨⟨rule, k⟩, -, hstep⟩ := List.mem_flatMap.1 hstep
      rw [Change.demand?_steps step hstep] at hdemand
      cases hdemand
  | template field template =>
      rw [List.mem_singleton.1 hstep] at hdemand
      cases hdemand
  | _ => cases hstep

theorem Draft.Booked.effects {d : Draft} (h : d.Booked) (n : Node) (i : Nat) :
    ((n.effects i).foldl Step.apply d).Booked :=
  List.foldlRecOn (n.effects i) Step.apply h fun _ h step hstep =>
    h.apply (n.isSigned_effects i step hstep)

theorem Draft.WatchesProjected.effects {d : Draft} (h : d.WatchesProjected) (n : Node) (i : Nat) :
    ((n.effects i).foldl Step.apply d).WatchesProjected :=
  List.foldlRecOn (n.effects i) Step.apply h fun _ h step _ => h.apply step

/-! ### At the gate -/

namespace Gate

/-- The gate only adds projected names, and only on releasing. -/
theorem projected_step (c : Course) (event : Event) :
    ∃ names, (c.step event).draft.projected = Names.addAll c.draft.projected names ∧
      (event ≠ .release → names = []) := by
  cases event with
  | assign slot id =>
      refine ⟨[], ?_, fun _ => rfl⟩
      obtain ⟨-, hstate, -⟩ | ⟨-, -, p, -, hstate, -⟩ := assign_cases slot id c.draft
      · rw [Course.step, hstate]
        rfl
      · rw [Course.step, hstate]
        rfl
  | release =>
      by_cases h : c.draft.stage = .ready
      · obtain ⟨names, action, hstate, -⟩ := exists_release_eq h
        refine ⟨names, ?_, fun hne => absurd rfl hne⟩
        rw [Course.step, hstate]
      · refine ⟨[], ?_, fun _ => rfl⟩
        rw [Course.step, (release_of_not_ready h).1]
        rfl

theorem booked_step {c : Course} (h : c.draft.Booked) (event : Event) :
    (c.step event).draft.Booked := by
  obtain ⟨names, hprojected, -⟩ := projected_step c event
  have hfollows := follows_step c event
  refine ⟨?_, ?_, fun slot property operator value hmem => ?_⟩
  · rw [hprojected]
    exact Names.nodup_addAll names h.projected
  · rw [hfollows.device]
    exact h.attributes
  · rw [hfollows.conditions] at hmem
    obtain ⟨hmem, hwatched, hsign⟩ := h.compared slot property operator value hmem
    rw [hfollows.device]
    exact ⟨hfollows.projected.subset hmem, hwatched, hsign⟩

theorem booked_run {d : Draft} (h : d.Booked) (events : List Event) :
    (Course.run d events).draft.Booked :=
  List.foldlRecOn events Course.step (motive := fun c => c.draft.Booked) h
    fun _ h event _ => booked_step h event

theorem projected_run {d : Draft} {events : List Event} (h : .release ∉ events) :
    (Course.run d events).draft.projected = d.projected :=
  List.foldlRecOn events Course.step (motive := fun c => c.draft.projected = d.projected) rfl
    fun c hc event hevent => by
      obtain ⟨names, hprojected, hnames⟩ := projected_step c event
      rw [hprojected, hnames fun heq => h (heq ▸ hevent), ← hc]
      rfl

end Gate

namespace Plan

/-- The books of the drafts of a plan stay in order, whatever happens at the gate: no name is
projected or watched twice, what is compared is both projected and watched and has a sign in the
broker's language, and but for what actions project everything projected is watched. -/
theorem drafts_keep_books {settings : Settings} {flow flowId : Value} {service : Option String}
    {plan : Plan} (h : (ofFlow settings flow flowId service).outcome = .ok plan) {d : Draft}
    (hd : d ∈ plan.drafts) (events : List Gate.Event) :
    let e := (Gate.Course.run d events).draft
    e.projected.Nodup ∧ e.device.attributes.Nodup ∧
    (∀ slot property operator value,
      .comparison property operator value ∈ e.pattern.conditions slot →
        property ∈ e.projected ∧ property ∈ e.device.attributes ∧
        operator ≠ .between ∧ operator ≠ .otherwise ∧
        ∃ sign, operator.symbol? = some sign ∧ sign ≠ "None" ∧
          Condition.expression (.comparison property operator value) =
            [("q", property ++ " " ++ sign ++ " " ++ value)]) ∧
    ∀ before, before <+: events → .release ∉ before →
      ∀ name ∈ (Gate.Course.run d before).draft.projected, name ∈ e.device.attributes := by
  have hbooked : d.Booked :=
    gathered (P := Draft.Booked) ⟨.nil, .nil, fun slot _ _ _ hmem => by cases slot <;> cases hmem⟩
      (fun n i _ _ hd => hd.effects n i)
      (fun _ _ _ _ hd => ⟨hd.projected, hd.attributes, hd.compared⟩) h d hd
  have hwatches : d.WatchesProjected :=
    gathered (P := Draft.WatchesProjected) (fun _ hname => nomatch hname)
      (fun n i _ _ hd => hd.effects n i) (fun _ _ _ _ hd => hd) h d hd
  have hbooks := Gate.booked_run hbooked events
  refine ⟨hbooks.projected, hbooks.attributes, fun slot property operator value hmem => ?_, ?_⟩
  · obtain ⟨hprojected, hwatched, hsign⟩ := hbooks.compared slot property operator value hmem
    obtain ⟨sign, hsign⟩ := Option.isSome_iff_exists.1 hsign
    refine ⟨hprojected, hwatched, ?_, ?_, sign, hsign, ?_, ?_⟩
    · rintro rfl
      cases hsign
    · rintro rfl
      cases hsign
    · cases operator <;> cases hsign <;> decide
    · rw [Condition.expression, Condition.query, hsign]
      rfl
  · intro before _ hbefore name hname
    have hdevice : (Gate.Course.run d events).draft.device = d.device :=
      (Gate.follows_run { draft := d } events).device
    rw [Gate.projected_run hbefore] at hname
    rw [hdevice]
    exact hwatches name hname

def enteringEvents : List Gate.Event :=
  [.assign .second "b", .release, .assign .first "a", .release]

theorem drafts_keep_books_enteringFlow :
    (ofFlow {} enteringFlow (.text "f") none).outcome = .ok entering ∧
    enteringDraft ∈ entering.drafts ∧
    .comparison "x" .gte "5" ∈
      (Gate.Course.run enteringDraft enteringEvents).draft.pattern.conditions .second ∧
    "x" ∈ (Gate.Course.run enteringDraft enteringEvents).draft.device.attributes ∧
    ∀ name ∈ (Gate.Course.run enteringDraft [.assign .second "b"]).draft.projected,
      name ∈ (Gate.Course.run enteringDraft enteringEvents).draft.device.attributes := by
  obtain ⟨-, -, hcompared, hwatched⟩ :=
    drafts_keep_books ofFlow_enteringFlow (List.mem_singleton_self enteringDraft) enteringEvents
  have hmem : .comparison "x" .gte "5" ∈
      (Gate.Course.run enteringDraft enteringEvents).draft.pattern.conditions .second := by
    have hsame := (Gate.follows_run { draft := enteringDraft } enteringEvents).conditions .second
    exact hsame ▸ by decide
  exact ⟨ofFlow_enteringFlow, List.mem_singleton_self enteringDraft, hmem,
    (hcompared .second "x" .gte "5" hmem).2.1,
    hwatched [.assign .second "b"] ⟨_, rfl⟩ (by simp)⟩

end Plan

end EventFlow
