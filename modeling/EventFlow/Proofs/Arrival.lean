import EventFlow.Proofs.Harvests
import EventFlow.Proofs.Settling
import Mathlib.Data.List.Nodup

/-!
The order in which ids arrive.

The drafts of a plan do not touch each other: a move that concerns one of them leaves the others as
they are. So each draft takes the course of its own moves (`tracks_run`), and settles once it has
its ids and its rule has been asked for (`settled_of_complete_moves`). In what order the ids of
different drafts come, or those of one draft, makes no difference.
-/

namespace EventFlow

/-! ### The drafts and requests of a plan -/

namespace Request

def place (q : Request) : Nat × Slot :=
  (q.draft, q.slot)

theorem map_place_ofDraft (d : Draft) (index : Nat) :
    (ofDraft d index).map place = d.pattern.slots.map (index, ·) := by
  rw [ofDraft]
  cases d.pattern <;> rfl

theorem map_place_ofDrafts (drafts : List Draft) :
    (ofDrafts drafts).map place =
      drafts.zipIdx.flatMap fun (d, i) => d.pattern.slots.map (i, ·) := by
  rw [ofDrafts, List.map_flatMap]
  congr
  funext ⟨d, i⟩
  exact map_place_ofDraft d i

theorem mem_map_place_iff {drafts : List Draft} {i : Nat} {slot : Slot} :
    (i, slot) ∈ (ofDrafts drafts).map place ↔
      ∃ d, drafts[i]? = some d ∧ slot ∈ d.pattern.slots := by
  rw [map_place_ofDrafts]
  simp [List.mem_zipIdx_iff_getElem?]

/-- No two requests are for the same slot of the same draft. -/
theorem nodup_map_place (drafts : List Draft) : ((ofDrafts drafts).map place).Nodup := by
  rw [map_place_ofDrafts, List.nodup_flatMap]
  refine ⟨fun ⟨d, i⟩ _ => ?_, ?_⟩
  · refine List.Nodup.map (fun _ _ h => (Prod.mk.inj h).2) ?_
    rw [Pattern.slots]
    split <;> simp
  · have hindices : (drafts.zipIdx.map Prod.snd).Nodup := by
      rw [List.zipIdx_map_snd]
      exact List.nodup_range'
    refine (List.pairwise_map.1 hindices).imp fun {a b} hne => ?_
    simp only [List.disjoint_left, List.mem_map, not_exists, not_and]
    rintro _ ⟨slot, -, rfl⟩ slot' - heq
    exact hne (congrArg Prod.fst heq).symm

end Request

namespace Plan

/-- What translating a flow makes sure of: no draft has been at the gate yet, and the requests are
those of the drafts. -/
structure IsFresh (plan : Plan) : Prop where
  requests : plan.requests = Request.ofDrafts plan.drafts
  drafts : ∀ d ∈ plan.drafts, d.IsNew

end Plan

theorem Pattern.idOf_add {p : Pattern} (h : ∀ slot, p.idOf slot = "") (c : Condition)
    (slot s : Slot) : (p.add c slot).idOf s = "" := by
  have hfirst := h .first
  have hsecond := h .second
  have hfixed := h .fixed
  cases p <;> cases slot <;> cases s <;> simp_all [add, idOf]

theorem Draft.IsNew.apply {d : Draft} (h : d.IsNew) (step : Step) : (step.apply d).IsNew := by
  cases step with
  | require c slot =>
      refine ⟨?_, ?_⟩
      · cases c <;> exact h.emitted
      · cases c <;> exact Pattern.idOf_add h.ids _ slot
  | _ => exact ⟨h.emitted, h.ids⟩

theorem isNew_atLeaf (leaf : List Step × Option Action) : (Walk.atLeaf {} leaf).IsNew := by
  have hsteps (steps : List Step) {d : Draft} (h : d.IsNew) : (steps.foldl Step.apply d).IsNew := by
    induction steps generalizing d with
    | nil => exact h
    | cons step steps ih => exact ih (h.apply step)
  have hempty : ({} : Draft).IsNew := ⟨rfl, fun slot => by cases slot <;> rfl⟩
  obtain ⟨hemitted, hids⟩ := hsteps leaf.1 hempty
  exact ⟨hemitted, hids⟩

theorem Draft.IsNew.of_forget {d e : Draft} (he : e.IsNew) (h : d.forget = e.forget) : d.IsNew := by
  have hemitted : d.forget.emitted = e.forget.emitted := by rw [h]
  have hpattern : d.forget.pattern = e.forget.pattern := by rw [h]
  exact ⟨hemitted.trans he.emitted, hpattern ▸ he.ids⟩

namespace Plan

/-- But for their memories, the drafts of several walks are what the leaves make of a new draft. -/
theorem forget_harvestAll (shelf : Shelf) (ws : List Walk) :
    List.Forall₂ (fun c leaf => c.draft.forget = (Walk.atLeaf {} leaf).forget)
      (harvestAll shelf ws).2 (Walk.leavesOf ws) := by
  induction ws generalizing shelf with
  | nil => exact .nil
  | cons w ws ih =>
      rw [Walk.leavesOf]
      have hfirst := Walk.forget_harvest shelf w (c := Carried.ofDraft {}) (d := {}) rfl
      exact List.rel_append hfirst (ih _)

theorem isNew_of_mem_draftsOf {walks : List Walk} {d : Draft} (h : d ∈ draftsOf walks) :
    d.IsNew := by
  obtain ⟨c, hc, rfl⟩ := List.mem_map.1 h
  have hall := (forget_harvestAll [] walks).imp fun c leaf hc =>
    And.intro ((isNew_atLeaf leaf).of_forget hc) hc
  have hnew := ((List.forall₂_and_left _ _).1 hall).1 c hc
  exact ⟨hnew.emitted, hnew.ids⟩

/-- Each draft is named after the flow and its place, and nothing else about it changes. -/
theorem nameDrafts_numbers {flowId : Value} {drafts named : List Draft}
    (h : nameDrafts flowId drafts = .ok named) :
    named.length = drafts.length ∧ ∀ (k : Nat) (d : Draft), named[k]? = some d →
      ∃ id e, flowId = .text id ∧ drafts[k]? = some e ∧
        d = { e with name := ruleName id (k + 1) } := by
  rw [nameDrafts.eq_def] at h
  split at h
  · next id =>
      cases h
      refine ⟨List.length_mapIdx, fun k d hd => ?_⟩
      rw [List.getElem?_mapIdx, Option.map_eq_some_iff] at hd
      obtain ⟨e, he, rfl⟩ := hd
      exact ⟨id, e, rfl, he, rfl⟩
  · cases h
    exact ⟨rfl, fun k d hd => by simp at hd⟩
  · cases h

theorem isNew_of_nameDrafts {flowId : Value} {drafts named : List Draft}
    (h : nameDrafts flowId drafts = .ok named) (hnew : ∀ d ∈ drafts, d.IsNew) :
    ∀ d ∈ named, d.IsNew := by
  intro d hd
  obtain ⟨k, hk⟩ := List.getElem?_of_mem hd
  obtain ⟨id, e, -, he, rfl⟩ := (nameDrafts_numbers h).2 k d hk
  have hold := hnew e (List.mem_of_getElem? he)
  exact ⟨hold.emitted, hold.ids⟩

theorem ofFlow_eq_ok_iff {settings : Settings} {flow flowId : Value} {service : Option String}
    {plan : Plan} : (ofFlow settings flow flowId service).outcome = .ok plan ↔
      ∃ shown descriptors graph walks drafts, flowId.display? = .ok shown ∧
        flow.entries? = some descriptors ∧ (Graph.ofDescriptors descriptors).outcome = .ok graph ∧
        (unfoldSources graph settings).outcome = .ok walks ∧
        nameDrafts flowId (draftsOf walks) = .ok drafts ∧
        plan = ⟨flowId, service, drafts, Request.ofDrafts drafts⟩ := by
  constructor
  · intro h
    obtain ⟨shown, hshown, h⟩ := Run.exists_of_outcome_bind h
    split at h
    · cases h
    · next descriptors hentries =>
        obtain ⟨-, -, h⟩ := Run.exists_of_outcome_bind h
        obtain ⟨graph, hgraph, h⟩ := Run.exists_of_outcome_bind h
        obtain ⟨walks, hwalks, h⟩ := Run.exists_of_outcome_bind h
        obtain ⟨drafts, hnamed, h⟩ := Run.exists_of_outcome_bind h
        obtain ⟨-, -, h⟩ := Run.exists_of_outcome_bind h
        cases h
        exact ⟨shown, descriptors, graph, walks, drafts, hshown, hentries, hgraph, hwalks, hnamed,
          rfl⟩
  · rintro ⟨shown, descriptors, graph, walks, drafts, hshown, hentries, hgraph, hwalks, hnamed, rfl⟩
    have hshown : (Run.ofExcept flowId.display? : Traced _ _).outcome = .ok shown := hshown
    have hnamed : (Run.ofExcept (nameDrafts flowId (draftsOf walks)) : Traced _ _).outcome =
        .ok drafts := hnamed
    rw [ofFlow, Run.outcome_bind_of_ok hshown, hentries]
    refine (Run.outcome_bind_of_ok (Run.outcome_info _) _).trans ?_
    rw [Run.outcome_bind_of_ok hgraph, Run.outcome_bind_of_ok hwalks, Run.outcome_bind_of_ok hnamed]
    rfl

theorem isFresh_of_ofFlow {settings : Settings} {flow flowId : Value} {service : Option String}
    {plan : Plan} (h : (ofFlow settings flow flowId service).outcome = .ok plan) :
    plan.IsFresh := by
  obtain ⟨-, -, -, walks, drafts, -, -, -, -, hnamed, rfl⟩ := ofFlow_eq_ok_iff.1 h
  exact ⟨rfl, isNew_of_nameDrafts hnamed fun d => isNew_of_mem_draftsOf⟩

/-! ### Runs over all drafts -/

variable {plan : Plan}

inductive Move (plan : Plan) where
  | assign (request : Fin plan.requests.length)
  | release (draft : Fin plan.drafts.length)
deriving DecidableEq

structure Desk (plan : Plan) where
  drafts : List Draft
  rules : List (Fin plan.drafts.length × Rule) := []

namespace Desk

/-- A move that fails does not keep the others from being made. -/
def step (ids : Fin plan.requests.length → String) (desk : plan.Desk) : plan.Move → plan.Desk
  | .assign r =>
    let request := plan.requests.get r
    { desk with
      drafts := (Gate.onDraft request.draft (Gate.assign request.slot (ids r)) desk.drafts).state }
  | .release i =>
    let ended := Gate.onDraft i Gate.release desk.drafts
    { drafts := ended.state
      rules := desk.rules ++ ended.outcome.toOption.join.toList.map (i, ·) }

def run (ids : Fin plan.requests.length → String) (moves : List plan.Move) : plan.Desk :=
  moves.foldl (step ids) { drafts := plan.drafts }

theorem run_append (ids : Fin plan.requests.length → String) (moves more : List plan.Move) :
    run ids (moves ++ more) = more.foldl (step ids) (run ids moves) :=
  List.foldl_append

end Desk

def Move.eventFor (ids : Fin plan.requests.length → String) (i : Fin plan.drafts.length) :
    plan.Move → Option Gate.Event
  | .assign r =>
    if (plan.requests.get r).draft = i then some (.assign (plan.requests.get r).slot (ids r))
    else none
  | .release j => if j = i then some .release else none

theorem assign_mem_filterMap_iff {ids : Fin plan.requests.length → String}
    {i : Fin plan.drafts.length} {moves : List plan.Move} {slot : Slot} {id : String} :
    .assign slot id ∈ moves.filterMap (Move.eventFor ids i) ↔
      ∃ r, .assign r ∈ moves ∧ (plan.requests.get r).draft = i ∧
        (plan.requests.get r).slot = slot ∧ ids r = id := by
  rw [List.mem_filterMap]
  constructor
  · rintro ⟨move, hmove, hevent⟩
    cases move with
    | assign r =>
        rw [Move.eventFor] at hevent
        split at hevent
        · next hi =>
            cases hevent
            exact ⟨r, hmove, hi, rfl, rfl⟩
        · cases hevent
    | release j =>
        rw [Move.eventFor] at hevent
        split at hevent <;> cases hevent
  · rintro ⟨r, hmove, hi, rfl, rfl⟩
    exact ⟨.assign r, hmove, if_pos hi⟩

structure Tracks (i : Fin plan.drafts.length) (desk : plan.Desk) (c : Gate.Course) : Prop where
  draft : desk.drafts[(i : Nat)]? = some c.draft
  rules : desk.rules.filter (·.1 = i) = c.rules.map (i, ·)

variable {i : Fin plan.drafts.length} {desk : plan.Desk} {c : Gate.Course}
  {ids : Fin plan.requests.length → String}

theorem onDraft_self {α : Type} (x : Run Draft Failure α) {drafts : List Draft} {k : Nat}
    {d : Draft} (h : drafts[k]? = some d) :
    (Gate.onDraft k x drafts).state[k]? = some (x d).state ∧
      (Gate.onDraft k x drafts).outcome = (x d).outcome := by
  obtain ⟨hstate, houtcome⟩ := Gate.onDraft_eq x h
  rw [hstate]
  exact ⟨List.getElem?_set_self (List.getElem?_eq_some_iff.1 h).1, houtcome⟩

theorem onDraft_of_ne {α : Type} (x : Run Draft Failure α) (drafts : List Draft) {k l : Nat}
    (h : k ≠ l) : (Gate.onDraft k x drafts).state[l]? = drafts[l]? :=
  List.getElem?_set_ne h

theorem tracks_step (h : Tracks i desk c) (move : plan.Move) :
    Tracks i (desk.step ids move) ((move.eventFor ids i).elim c c.step) := by
  cases move with
  | assign r =>
      by_cases hi : (plan.requests.get r).draft = i
      · rw [Move.eventFor, if_pos hi]
        refine ⟨?_, h.rules⟩
        rw [Desk.step, hi]
        exact (onDraft_self _ h.draft).1
      · rw [Move.eventFor, if_neg hi]
        exact ⟨(onDraft_of_ne _ _ hi).trans h.draft, h.rules⟩
  | release j =>
      by_cases hi : j = i
      · subst hi
        obtain ⟨hstate, houtcome⟩ := onDraft_self Gate.release h.draft
        rw [Move.eventFor, if_pos rfl]
        refine ⟨hstate, ?_⟩
        rw [Desk.step, List.filter_append, h.rules, houtcome]
        simp [Gate.Course.step, List.filter_map, Function.comp_def]
      · rw [Move.eventFor, if_neg hi]
        refine ⟨(onDraft_of_ne _ _ (Fin.val_ne_of_ne hi)).trans h.draft, ?_⟩
        rw [Desk.step, List.filter_append, h.rules]
        simp [List.filter_map, Function.comp_def, hi]

/-- A draft takes the course of its own moves. -/
theorem tracks_run (ids : Fin plan.requests.length → String) (i : Fin plan.drafts.length)
    (moves : List plan.Move) :
    Tracks i (Desk.run ids moves)
      (Gate.Course.run (plan.drafts.get i) (moves.filterMap (Move.eventFor ids i))) := by
  induction moves using List.reverseRecOn with
  | nil => exact ⟨by simp [Desk.run, Gate.Course.run], rfl⟩
  | append_singleton moves move ih =>
      have hstep : Tracks i ((Desk.run ids moves).step ids move) _ := tracks_step ih move
      rw [Desk.run_append, List.filterMap_append, Gate.Course.run_append]
      cases hevent : move.eventFor ids i with
      | none =>
          rw [hevent] at hstep
          simpa [hevent] using hstep
      | some event =>
          rw [hevent] at hstep
          simpa [hevent] using hstep

theorem length_run (ids : Fin plan.requests.length → String) (moves : List plan.Move) :
    (Desk.run ids moves).drafts.length = plan.drafts.length := by
  induction moves using List.reverseRecOn with
  | nil => rfl
  | append_singleton moves move ih =>
      rw [Desk.run_append, ← ih]
      cases move with
      | assign r => exact List.length_set
      | release i => exact List.length_set

/-- Every id is reported, and the rule of every draft is asked for when all its ids have been. -/
structure Complete (moves : List plan.Move) : Prop where
  assigned : ∀ r, .assign r ∈ moves
  asked : ∀ i : Fin plan.drafts.length, ∃ before after, moves = before ++ .release i :: after ∧
    ∀ r, .assign r ∈ after → (plan.requests.get r).draft ≠ i

/-! ### The ids of one draft -/

theorem request_unique (hfresh : plan.IsFresh) {r r' : Fin plan.requests.length}
    (h : (plan.requests.get r).place = (plan.requests.get r').place) : r = r' := by
  have hnodup : (plan.requests.map Request.place).Nodup := by
    rw [hfresh.requests]
    exact Request.nodup_map_place plan.drafts
  have hrequest := List.inj_on_of_nodup_map hnodup (List.get_mem _ r) (List.get_mem _ r') h
  exact List.nodup_iff_injective_get.1 hnodup.of_map hrequest

theorem IsFresh.mem_map_place_iff (hfresh : plan.IsFresh) (i : Fin plan.drafts.length)
    {slot : Slot} :
    ((i : Nat), slot) ∈ plan.requests.map Request.place ↔
      slot ∈ (plan.drafts.get i).pattern.slots := by
  rw [hfresh.requests, Request.mem_map_place_iff]
  simp

theorem exists_request (hfresh : plan.IsFresh) {slot : Slot}
    (h : slot ∈ (plan.drafts.get i).pattern.slots) :
    ∃ r, (plan.requests.get r).draft = i ∧ (plan.requests.get r).slot = slot := by
  obtain ⟨request, hrequest, hplace⟩ := List.mem_map.1 ((hfresh.mem_map_place_iff i).2 h)
  obtain ⟨r, rfl⟩ := List.get_of_mem hrequest
  exact ⟨r, congrArg Prod.fst hplace, congrArg Prod.snd hplace⟩

theorem slot_mem_slots (hfresh : plan.IsFresh) {r : Fin plan.requests.length}
    (h : (plan.requests.get r).draft = i) :
    (plan.requests.get r).slot ∈ (plan.drafts.get i).pattern.slots := by
  rw [← hfresh.mem_map_place_iff, ← h]
  exact List.mem_map_of_mem (List.get_mem plan.requests r)

def IdsOf (ids : Fin plan.requests.length → String) (i : Fin plan.drafts.length)
    (f : Slot → String) : Prop :=
  ∀ r, (plan.requests.get r).draft = i → ids r = f (plan.requests.get r).slot

theorem exists_idsOf (hfresh : plan.IsFresh) (ids : Fin plan.requests.length → String)
    (i : Fin plan.drafts.length) : ∃ f, IdsOf ids i f := by
  have hslot (slot : Slot) :
      ∃ id, ∀ r, (plan.requests.get r).place = ((i : Nat), slot) → ids r = id := by
    by_cases h : ∃ r, (plan.requests.get r).place = ((i : Nat), slot)
    · obtain ⟨r, hr⟩ := h
      exact ⟨ids r, fun r' hr' => congrArg ids (request_unique hfresh (hr'.trans hr.symm))⟩
    · -- The draft does not wait for this slot, so any text will do.
      exact ⟨"", fun r hr => absurd ⟨r, hr⟩ h⟩
  choose f hf using hslot
  refine ⟨f, fun r hr => hf _ r ?_⟩
  rw [Request.place, hr]

/-- With all ids reported and its rule asked for afterwards, a draft has settled. -/
theorem settled_of_complete_moves (hfresh : plan.IsFresh) (hids : ∀ r, ids r ≠ "")
    {f : Slot → String} (hf : IdsOf ids i f) {moves : List plan.Move}
    (hmoves : plan.Complete moves) :
    Gate.Settled f (plan.drafts.get i)
      (Gate.Course.run (plan.drafts.get i) (moves.filterMap (Move.eventFor ids i))) := by
  obtain ⟨before, after, rfl, hafter⟩ := hmoves.asked i
  have hknown (slot : Slot) (hslot : slot ∈ (plan.drafts.get i).pattern.slots) : f slot ≠ "" := by
    obtain ⟨r, hr, rfl⟩ := exists_request hfresh hslot
    rw [← hf r hr]
    exact hids r
  have hrelease : (Move.release i).eventFor ids i = some .release := if_pos rfl
  rw [List.filterMap_append, List.filterMap_cons, hrelease]
  -- The ids all come before the rule is asked for; afterwards it can only be asked for again.
  refine Gate.settled_run (hfresh.drafts _ (List.get_mem _ i)) hknown ?_ ?_ ?_
  · intro event hevent
    cases event with
    | assign slot id =>
        obtain ⟨r, -, hr, rfl, rfl⟩ := assign_mem_filterMap_iff.1 hevent
        exact hf r hr
    | release => trivial
  · intro slot hslot
    obtain ⟨r, hr, rfl⟩ := exists_request hfresh hslot
    refine assign_mem_filterMap_iff.2 ⟨r, ?_, hr, rfl, hf r hr⟩
    have hmem := hmoves.assigned r
    rw [List.mem_append, List.mem_cons] at hmem
    obtain hbefore | hrelease | hmem := hmem
    · exact hbefore
    · cases hrelease
    · exact absurd hr (hafter r hmem)
  · intro event hevent
    cases event with
    | assign slot id =>
        obtain ⟨r, hmem, hr, -⟩ := assign_mem_filterMap_iff.1 hevent
        exact absurd hr (hafter r hmem)
    | release => rfl

/-- Where every draft has settled, its place on the desk and its rule are known. -/
theorem run_of_complete (hfresh : plan.IsFresh) (hids : ∀ r, ids r ≠ "") {f : Slot → String}
    (hf : IdsOf ids i f) {moves : List plan.Move} (hmoves : plan.Complete moves) :
    (Desk.run ids moves).drafts[(i : Nat)]? =
        some (Gate.release ((plan.drafts.get i).fill f)).state ∧
      (Desk.run ids moves).rules.filter (·.1 = i) =
        (Gate.release ((plan.drafts.get i).fill f)).outcome.toOption.join.toList.map (i, ·) := by
  have htracks := tracks_run ids i moves
  have hsettled := settled_of_complete_moves hfresh hids hf hmoves
  exact ⟨htracks.draft.trans (congrArg some hsettled.draft),
    htracks.rules.trans (congrArg (List.map (i, ·)) hsettled.rules)⟩

theorem perm_of_filter_eq {κ α : Type} [DecidableEq κ] {xs ys : List (κ × α)}
    (h : ∀ k, xs.filter (·.1 = k) = ys.filter (·.1 = k)) : xs.Perm ys := by
  classical
  refine List.perm_iff_count.2 fun a => ?_
  have hcount (zs : List (κ × α)) : zs.count a = (zs.filter (·.1 = a.1)).count a :=
    (List.count_filter (by simp)).symm
  rw [hcount xs, hcount ys, h]

theorem nodup_map_fst {κ α : Type} [DecidableEq κ] {xs : List (κ × α)}
    (h : ∀ k, (xs.filter (·.1 = k)).length ≤ 1) : (xs.map Prod.fst).Nodup := by
  refine List.nodup_iff_count_le_one.2 fun k => ?_
  have hcount : (xs.map Prod.fst).count k = (xs.filter (·.1 = k)).length := by
    rw [List.count, List.countP_map, List.countP_eq_length_filter]
    congr
  rw [hcount]
  exact h k

/-- A draft is released only with an id for each of its requests. -/
theorem assign_mem_of_released (hfresh : plan.IsFresh) {before : List plan.Move} {rule : Rule}
    (h : (Gate.onDraft i Gate.release (Desk.run ids before).drafts).outcome = .ok (some rule))
    {r : Fin plan.requests.length} (hr : (plan.requests.get r).draft = i) : .assign r ∈ before := by
  have htracks := tracks_run ids i before
  have hnew := hfresh.drafts _ (List.get_mem plan.drafts i)
  have hsound := Gate.sound_course hnew (before.filterMap (Move.eventFor ids i))
  rw [(onDraft_self Gate.release htracks.draft).2] at h
  obtain ⟨-, hlatest⟩ := hsound.ready_iff.1 (hsound.text h).1
  rw [Gate.slots_run] at hlatest
  obtain ⟨id, hid⟩ := Option.ne_none_iff_exists'.1 (hlatest _ (slot_mem_slots hfresh hr))
  obtain ⟨r', hmem, hr', hslots, -⟩ := assign_mem_filterMap_iff.1 (Gate.mem_of_latest hid)
  obtain rfl : r' = r := by
    refine request_unique hfresh ?_
    rw [Request.place, Request.place, hr', hr, hslots]
  exact hmem

/-- In whatever order the ids arrive and rules are asked for, with every id reported and every rule
asked for after that the drafts of a flow end as the same, released with the same rules, at most one
for each. None of them is released before all its ids have been reported. -/
theorem desk_eq_of_complete {settings : Settings} {flow flowId : Value} {service : Option String}
    {plan : Plan} (hplan : (ofFlow settings flow flowId service).outcome = .ok plan)
    {ids : Fin plan.requests.length → String} (hids : ∀ r, ids r ≠ "")
    {moves moves' : List plan.Move} (h : plan.Complete moves) (h' : plan.Complete moves') :
    (Desk.run ids moves).drafts = (Desk.run ids moves').drafts ∧
    (Desk.run ids moves).rules.Perm (Desk.run ids moves').rules ∧
    ((Desk.run ids moves).rules.map Prod.fst).Nodup ∧
    ∀ (before : List plan.Move) (i : Fin plan.drafts.length) (rule : Rule),
      (Gate.onDraft i Gate.release (Desk.run ids before).drafts).outcome = .ok (some rule) →
      ∀ r, (plan.requests.get r).draft = i → .assign r ∈ before := by
  have hfresh := isFresh_of_ofFlow hplan
  refine ⟨?_, perm_of_filter_eq fun i => ?_, nodup_map_fst fun i => ?_,
    fun before i rule hrule r => assign_mem_of_released hfresh hrule⟩
  · -- Draft by draft; what it settles into depends on its ids alone, not on the moves.
    refine List.ext_getElem? fun k => ?_
    by_cases hk : k < plan.drafts.length
    · obtain ⟨f, hf⟩ := exists_idsOf hfresh ids ⟨k, hk⟩
      exact (run_of_complete hfresh hids hf h).1.trans (run_of_complete hfresh hids hf h').1.symm
    · have hnone (desk : plan.Desk) (hlength : desk.drafts.length = plan.drafts.length) :
          desk.drafts[k]? = none := by
        rw [List.getElem?_eq_none_iff]
        omega
      rw [hnone _ (length_run ids moves), hnone _ (length_run ids moves')]
  · obtain ⟨f, hf⟩ := exists_idsOf hfresh ids i
    rw [(run_of_complete hfresh hids hf h).2, (run_of_complete hfresh hids hf h').2]
  · obtain ⟨f, hf⟩ := exists_idsOf hfresh ids i
    rw [(run_of_complete hfresh hids hf h).2, List.length_map]
    exact Option.length_toList_le

/-- A flow that posts what a source reads, and records when it rises. -/
def risingFlow : Value :=
  .list [
    .object [("id", .text "s"), ("type", .text "device out"),
      ("wires", .list [.list [.text "t", .text "e"]])],
    .object [("id", .text "t"), ("type", .text "template"), ("template", .text "\x7b\x7by\x7d\x7d"),
      ("wires", .list [.list [.text "p"]])],
    .object [("id", .text "e"), ("type", .text "edgedetection"), ("property", .text "x"),
      ("rules", .list [.object [("t", .text "edge-up"), ("v", .text "1")]]),
      ("wires", .list [.list [.text "h"]])],
    .object [("id", .text "p"), ("type", .text "http request out"), ("url", .text "u")],
    .object [("id", .text "h"), ("type", .text "history")]]

def risingGraph : Graph where
  nodes := [⟨"s", "device out", "", [["t", "e"]], .source "" ""⟩,
    ⟨"t", "template", "", [["p"]], .template "payload" "\x7b\x7by\x7d\x7d"⟩,
    ⟨"e", "edgedetection", "", [["h"]], .edge "x" [⟨"edge-up", .text "1", none, .null, none⟩]⟩,
    ⟨"p", "http request out", "", [], .post "u" "POST" "payload"⟩,
    ⟨"h", "history", "", [], .history⟩]
  distinct := by decide
  wired := by decide

def risingWalk : Walk :=
  .pass false [] [.pass true [.listen "" ""] [
    .pass false [] [.pass false [.store "payload" (.text "\x7b\x7by\x7d\x7d")]
      [.sink ⟨"http://perseo-fe:9090/noticesv2", .post "u" "POST" "payload"⟩]],
    .pass false [] [.pass true
      [.require (.comparison "x" .lt "1") .first, .require (.comparison "x" .gte "1") .second]
      [.sink ⟨"http://cygnus:5050/notify", .history⟩]]]]

def risingDrafts : List Draft :=
  [{ memory := [("payload", .text "\x7b\x7by\x7d\x7d")]
     action := some ⟨"http://perseo-fe:9090/noticesv2", .post "u" "POST" "payload"⟩
     name := "rule_f_1" },
   { projected := ["x"]
     pattern := .paired [.comparison "x" .lt "1"] [.comparison "x" .gte "1"] "" ""
     device := { attributes := ["x"] }
     action := some ⟨"http://cygnus:5050/notify", .history⟩
     name := "rule_f_2" }]

def rising : Plan where
  flowId := .text "f"
  service := none
  drafts := risingDrafts
  requests := Request.ofDrafts risingDrafts

theorem ofFlow_risingFlow : (ofFlow {} risingFlow (.text "f") none).outcome = .ok rising :=
  ofFlow_eq_ok_iff.2 ⟨_, _, risingGraph, [risingWalk], risingDrafts, rfl, rfl, rfl,
    by with_unfolding_all rfl, by with_unfolding_all rfl, rfl⟩

def orderlyMoves : List rising.Move :=
  [.assign ⟨0, by decide⟩, .release ⟨0, by decide⟩, .assign ⟨1, by decide⟩,
    .assign ⟨2, by decide⟩, .release ⟨1, by decide⟩]

/-- The same ids the other way round, with rules asked for before their time and again. -/
def hastyMoves : List rising.Move :=
  [.release ⟨0, by decide⟩, .assign ⟨2, by decide⟩, .release ⟨1, by decide⟩,
    .assign ⟨1, by decide⟩, .release ⟨1, by decide⟩, .assign ⟨0, by decide⟩,
    .release ⟨1, by decide⟩, .release ⟨0, by decide⟩, .release ⟨0, by decide⟩]

theorem complete_orderlyMoves : rising.Complete orderlyMoves := by
  refine ⟨by decide, fun i => ?_⟩
  match i with
  | ⟨0, _⟩ => exact ⟨orderlyMoves.take 1, orderlyMoves.drop 2, rfl, by decide +revert⟩
  | ⟨1, _⟩ => exact ⟨orderlyMoves.take 4, orderlyMoves.drop 5, rfl, by decide +revert⟩

theorem complete_hastyMoves : rising.Complete hastyMoves := by
  refine ⟨by decide, fun i => ?_⟩
  match i with
  | ⟨0, _⟩ => exact ⟨hastyMoves.take 8, hastyMoves.drop 9, rfl, by decide +revert⟩
  | ⟨1, _⟩ => exact ⟨hastyMoves.take 6, hastyMoves.drop 7, rfl, by decide +revert⟩

def risingIds (r : Fin rising.requests.length) : String :=
  ["a", "b", "c"].getD r "d"

theorem desk_eq_risingFlow :
    (ofFlow {} risingFlow (.text "f") none).outcome = .ok rising ∧ (∀ r, risingIds r ≠ "") ∧
    rising.Complete orderlyMoves ∧ rising.Complete hastyMoves ∧
    (Desk.run risingIds orderlyMoves).drafts = (Desk.run risingIds hastyMoves).drafts ∧
    (Desk.run risingIds hastyMoves).rules.map (fun (i, rule) => ((i : Nat), rule.text)) =
      [(0, "select *, \"rule_f_1\" as ruleName, ev.y? as y from pattern " ++
        "[every ev = iotEvent(cast(subscriptionId?, String) = \"a\")]")] := by
  have hids : ∀ r, risingIds r ≠ "" := by decide
  have hdrafts :=
    (desk_eq_of_complete ofFlow_risingFlow hids complete_orderlyMoves complete_hastyMoves).1
  exact ⟨ofFlow_risingFlow, hids, complete_orderlyMoves, complete_hastyMoves, hdrafts,
    by with_unfolding_all rfl⟩

end Plan

end EventFlow
