import EventFlow.Proofs.Arrival
import EventFlow.Proofs.Planning

/-!
Addresses do not take part in rules.

The settings tell where notifications go and nothing else, and they tell it sink by sink. So other
settings unfold a flow into the same walks with other addresses at their sinks
(`outcome_unfold_readdress`), and these are carried along to the drafts and the subscriptions. The
gate never looks at an address: drafts that differ in it alone take the same course through the same
calls (`transcript_readdress`).
-/

namespace EventFlow

/-! ### Other addresses -/

def Action.readdress (address : Task → String) (a : Action) : Action :=
  { a with endpoint := address a.task }

theorem Action.ofNode?_readdress (settings settings' : Settings) (n : Node) :
    ofNode? settings' n = (ofNode? settings n).map (readdress (endpointOf settings')) := by
  rw [ofNode?, ofNode?, Option.map_map]
  rfl

namespace Walk

mutual

def readdress (address : Task → String) : Walk → Walk
  | .sink action => .sink (action.readdress address)
  | .pass copied steps next => .pass copied steps (readdressAll address next)

def readdressAll (address : Task → String) : List Walk → List Walk
  | [] => []
  | w :: rest => readdress address w :: readdressAll address rest

end

theorem readdressAll_eq_map (address : Task → String) (ws : List Walk) :
    readdressAll address ws = ws.map (readdress address) := by
  induction ws with
  | nil => rfl
  | cons w rest ih => rw [readdressAll, ih, List.map_cons]

end Walk

namespace Graph

variable {g : Graph} {path : List String} {n : Node} (settings settings' : Settings)

theorem leave_readdress (exit : Exit)
    (henter : ∀ target ∈ n.outlet exit.outlet,
      g.enter settings' (path ++ [n.id]) target =
        (g.enter settings (path ++ [n.id]) target).map
          (Walk.readdress (Action.endpointOf settings'))) :
    g.leave settings' path n exit =
      (g.leave settings path n exit).map
        (Option.map (Walk.readdress (Action.endpointOf settings'))) := by
  rw [leave, leave, Run.mapM_map henter]
  cases exit.steps.outcome with
  | error e => rfl
  | ok steps =>
      cases steps with
      | none => rfl
      | some steps =>
          cases (n.outlet exit.outlet).mapM (g.enter settings (path ++ [n.id])) with
          | error e => rfl
          | ok next =>
              change Except.ok (some (Walk.pass _ _ (next.map _))) =
                Except.ok (some (Walk.pass _ _ (Walk.readdressAll _ next)))
              rw [Walk.readdressAll_eq_map]

/-- Other settings unfold a node into the same walk, the addresses apart, or the same failure. -/
theorem outcome_unfold_readdress (hn : n ∈ g.nodes) :
    (g.unfold settings' path n hn).outcome =
      (g.unfold settings path n hn).outcome.map
        (Walk.readdress (Action.endpointOf settings')) := by
  induction hr : g.remaining path using Nat.strongRecOn generalizing path n with
  | ind r ih =>
      subst hr
      by_cases hpath : n.id ∈ path
      · rw [outcome_unfold_of_mem hn hpath, outcome_unfold_of_mem hn hpath]
        rfl
      · have haction := Action.ofNode?_readdress settings settings' n
        cases ha : Action.ofNode? settings n with
        | some action =>
            rw [ha] at haction
            rw [outcome_unfold_sink hn hpath ha, outcome_unfold_sink hn hpath haction]
            rfl
        | none =>
            rw [ha] at haction
            rw [outcome_unfold_pass hn hpath ha, outcome_unfold_pass hn hpath haction]
            have hleave : ∀ exit ∈ n.exits, g.leave settings' path n exit =
                (g.leave settings path n exit).map
                  (Option.map (Walk.readdress (Action.endpointOf settings'))) := by
              intro exit _
              refine leave_readdress settings settings' exit fun target htarget => ?_
              obtain ⟨m, hm⟩ := exists_find?_of_mem_outlet hn htarget
              rw [enter_eq hm, enter_eq hm]
              exact ih _ (remaining_append_lt hn hpath) (mem_of_find? hm) rfl
            rw [Run.mapM_map hleave]
            cases n.exits.mapM (g.leave settings path n) with
            | error e => rfl
            | ok ways =>
                change Except.ok (Walk.pass _ _ _) = Except.ok (Walk.pass _ _ _)
                rw [Walk.readdressAll_eq_map, List.filterMap_map, List.map_filterMap]
                rfl

end Graph

/-! ### Drafts and subscriptions -/

variable (address : Task → String)

def Draft.readdress (d : Draft) : Draft :=
  { d with action := d.action.map (Action.readdress address) }

@[simp] theorem Draft.stage_readdress (d : Draft) : (d.readdress address).stage = d.stage := rfl

theorem Step.apply_readdress (d : Draft) (s : Step) :
    s.apply (d.readdress address) = (s.apply d).readdress address := by
  cases s with
  | require c slot => cases c <;> rfl
  | _ => rfl

namespace Carried

def readdress (c : Carried) : Carried :=
  ⟨c.draft.readdress address, c.scope⟩

theorem step_readdress (shelf : Shelf) (c : Carried) (s : Step) :
    (c.readdress address).step shelf s =
      ((c.step shelf s).1, (c.step shelf s).2.readdress address) := by
  cases s with
  | store path v => rfl
  | share path key fields => rfl
  | _ =>
      refine Prod.ext rfl ?_
      exact congrArg (Carried.mk · c.scope) (Step.apply_readdress address c.draft _)

theorem steps_readdress (shelf : Shelf) (c : Carried) (steps : List Step) :
    (c.readdress address).steps shelf steps =
      ((c.steps shelf steps).1, (c.steps shelf steps).2.readdress address) := by
  induction steps generalizing shelf c with
  | nil => rfl
  | cons s steps ih =>
      rw [Carried.steps, Carried.steps, step_readdress]
      exact ih _ _

theorem copy_readdress (shelf : Shelf) (c : Carried) (copied : Bool) :
    (if copied then (c.readdress address).copy shelf else c.readdress address) =
      (if copied then c.copy shelf else c).readdress address := by
  cases copied <;> rfl

end Carried

namespace Walk

mutual

/-- A walk with other addresses has the same drafts, but for their addresses. -/
theorem harvest_readdress (shelf : Shelf) (c : Carried) (w : Walk) :
    (w.readdress address).harvest shelf (c.readdress address) =
      ((w.harvest shelf c).1, (w.harvest shelf c).2.map (Carried.readdress address)) := by
  cases w with
  | sink action => rfl
  | pass copied steps next =>
      rw [Walk.readdress, harvest, harvest, Carried.copy_readdress, Carried.steps_readdress,
        readdressAll_eq_map, List.length_map, ← readdressAll_eq_map]
      exact harvestAll_readdress _ _ _ next

theorem harvestAll_readdress (copied : Bool) (shelf : Shelf) (c : Carried) (ws : List Walk) :
    harvestAll copied shelf (c.readdress address) (readdressAll address ws) =
      ((harvestAll copied shelf c ws).1,
        (harvestAll copied shelf c ws).2.map (Carried.readdress address)) := by
  cases ws with
  | nil => rfl
  | cons w rest =>
      rw [readdressAll, harvestAll, harvestAll, Carried.copy_readdress, harvest_readdress,
        harvestAll_readdress]
      refine Prod.ext rfl ?_
      exact (List.map_append ..).symm

end

end Walk

namespace Plan

theorem harvestAll_readdress (shelf : Shelf) (ws : List Walk) :
    harvestAll shelf (ws.map (Walk.readdress address)) =
      ((harvestAll shelf ws).1, (harvestAll shelf ws).2.map (Carried.readdress address)) := by
  induction ws generalizing shelf with
  | nil => rfl
  | cons w rest ih =>
      have hfirst : (w.readdress address).start shelf {} =
          ((w.start shelf {}).1, (w.start shelf {}).2.map (Carried.readdress address)) :=
        Walk.harvest_readdress address shelf (Carried.ofDraft {}) w
      rw [List.map_cons, harvestAll, harvestAll, hfirst, ih]
      refine Prod.ext rfl ?_
      exact (List.map_append ..).symm

theorem draftsOf_readdress (ws : List Walk) :
    draftsOf (ws.map (Walk.readdress address)) =
      (draftsOf ws).map (Draft.readdress address) := by
  rw [draftsOf, draftsOf, harvestAll_readdress, List.map_map, List.map_map]
  rfl

theorem nameDrafts_readdress (flowId : Value) (drafts : List Draft) :
    nameDrafts flowId (drafts.map (Draft.readdress address)) =
      (nameDrafts flowId drafts).map (List.map (Draft.readdress address)) := by
  cases flowId with
  | text id =>
      refine congrArg Except.ok (List.ext_getElem (by simp) fun i _ _ => ?_)
      simp [Draft.readdress]
  | _ => cases drafts <;> rfl

theorem outcome_unfoldSources_readdress (g : Graph) (settings settings' : Settings) :
    (unfoldSources g settings').outcome =
      (unfoldSources g settings).outcome.map
        (List.map (Walk.readdress (Action.endpointOf settings'))) := by
  rw [outcome_unfoldSources, outcome_unfoldSources]
  exact Run.mapM_map fun n _ => Graph.outcome_unfold_readdress settings settings' _

/-- The plan with other addresses in its drafts and subscriptions, for another service. -/
def readdress (service : Option String) (plan : Plan) : Plan where
  flowId := plan.flowId
  service := service
  drafts := plan.drafts.map (Draft.readdress address)
  requests := Request.ofDrafts (plan.drafts.map (Draft.readdress address))

/-- Other settings plan a flow alike, the addresses apart, or fail alike. -/
theorem outcome_ofFlow_readdress (settings settings' : Settings) (flow flowId : Value)
    (service service' : Option String) :
    (ofFlow settings' flow flowId service').outcome =
      (ofFlow settings flow flowId service).outcome.map
        (readdress (Action.endpointOf settings') service') := by
  cases hentries : flow.entries? with
  | none =>
      rw [ofFlow, ofFlow, Run.outcome_bind, Run.outcome_bind, Run.outcome_ofExcept, hentries]
      cases flowId.display? <;> rfl
  | some descriptors =>
      rw [outcome_ofFlow hentries, outcome_ofFlow hentries]
      cases flowId.display? with
      | error e => rfl
      | ok shown =>
          cases (Graph.ofDescriptors descriptors).outcome with
          | error e => rfl
          | ok g =>
              change (unfoldSources g settings').outcome >>= _ =
                Except.map _ ((unfoldSources g settings).outcome >>= _)
              rw [outcome_unfoldSources_readdress g settings settings']
              cases (unfoldSources g settings).outcome with
              | error e => rfl
              | ok walks =>
                  change nameDrafts flowId (draftsOf (walks.map _)) >>= _ =
                    Except.map _ (nameDrafts flowId (draftsOf walks) >>= _)
                  rw [draftsOf_readdress, nameDrafts_readdress]
                  cases nameDrafts flowId (draftsOf walks) with
                  | error e => rfl
                  | ok drafts => rfl

end Plan

/-! ### The gate -/

/-- Runs on a draft alike whatever its address, which it leaves as it is. -/
def Draft.Indifferent {α : Type} (x : Run Draft Failure α) : Prop :=
  ∀ (address : Task → String) (d : Draft),
    (x (d.readdress address)).state = (x d).state.readdress address ∧
      (x (d.readdress address)).outcome = (x d).outcome

namespace Draft.Indifferent

variable {α β : Type}

theorem pure (a : α) : Indifferent (Pure.pure a) :=
  fun _ _ => ⟨rfl, rfl⟩

theorem fail (e : Failure) : Indifferent (Run.fail e : Run Draft Failure α) :=
  fun _ _ => ⟨rfl, rfl⟩

theorem ofExcept (x : Except Failure α) : Indifferent (Run.ofExcept x) :=
  fun _ _ => ⟨rfl, rfl⟩

theorem note (level : Log.Level) (message : String) : Indifferent (Run.note level message) :=
  fun _ _ => ⟨rfl, rfl⟩

theorem modify {f : Draft → Draft}
    (h : ∀ address d, f (d.readdress address) = (f d).readdress address) :
    Indifferent (Run.modify f) :=
  fun address d => ⟨h address d, rfl⟩

theorem bind {x : Run Draft Failure α} {f : α → Run Draft Failure β} (hx : Indifferent x)
    (hf : ∀ a, Indifferent (f a)) : Indifferent (x >>= f) := by
  intro address d
  obtain ⟨hstate, houtcome⟩ := hx address d
  cases ho : (x d).outcome with
  | error e =>
      obtain ⟨hs, hout⟩ := Run.bind_of_error f ho
      obtain ⟨hs', hout'⟩ := Run.bind_of_error f (houtcome.trans ho)
      rw [hs, hs', hout, hout']
      exact ⟨hstate, rfl⟩
  | ok a =>
      obtain ⟨hs, hout⟩ := Run.bind_of_ok f ho
      obtain ⟨hs', hout'⟩ := Run.bind_of_ok f (houtcome.trans ho)
      rw [hs, hs', hout, hout', hstate]
      exact hf a address (x d).state

/-- Reading the draft does no harm if the address is not looked at. -/
theorem get_bind {f : Draft → Run Draft Failure α}
    (hread : ∀ address d, f (d.readdress address) = f d) (hf : ∀ d, Indifferent (f d)) :
    Indifferent (Run.get >>= f) := by
  intro address d
  change (f (d.readdress address) (d.readdress address)).state = (f d d).state.readdress address ∧
    (f (d.readdress address) (d.readdress address)).outcome = (f d d).outcome
  rw [hread]
  exact hf d address d

end Draft.Indifferent

namespace Rule

open Draft (Indifferent)

theorem indifferent_resolve (v : Value) : Indifferent (resolve v) :=
  .bind (.ofExcept _) fun _ => .bind (.modify fun _ _ => rfl) fun _ => .pure _

theorem indifferent_warn (message : String) : Indifferent (warn message) :=
  .get_bind (fun _ _ => rfl) fun _ => .note _ _

theorem indifferent_stored (path warning : String) : Indifferent (stored path warning) := by
  refine .get_bind (fun _ _ => rfl) fun d => ?_
  dsimp only
  split
  · exact .bind (indifferent_warn _) fun _ => .pure _
  · exact .bind (indifferent_resolve _) fun _ => .pure _

theorem indifferent_updateAction (entityId entityType attributes : String) :
    Indifferent (updateAction entityId entityType attributes) := by
  refine .bind (indifferent_stored _ _) fun v => ?_
  cases v with
  | none => exact .pure _
  | some v =>
      dsimp only
      split
      · exact .pure _
      · exact .fail _
      · exact .bind (indifferent_warn _) fun _ => .pure _

theorem indifferent_given (text placeholder name : String) :
    Indifferent (given text placeholder name) := by
  rw [given]
  split
  · refine .bind (indifferent_stored _ _) fun v => ?_
    cases v with
    | none => exact .pure _
    | some v => exact .bind (.ofExcept _) fun _ => .pure _
  · exact .pure _

theorem indifferent_headers : Indifferent headers := by
  refine .get_bind (fun _ _ => rfl) fun d => ?_
  dsimp only
  split
  · exact .pure _
  · refine .bind (indifferent_resolve _) fun resolved => ?_
    split
    · exact .pure _
    · exact .fail _
    · exact .bind (.note _ _) fun _ => .pure _

theorem indifferent_postAction (url method body : String) :
    Indifferent (postAction url method body) := by
  refine .bind (indifferent_stored _ _) fun content => ?_
  cases content with
  | none => exact .pure _
  | some content =>
      refine .bind (indifferent_given _ _ _) fun url => ?_
      cases url with
      | none => exact .pure _
      | some url =>
          refine .bind (indifferent_given _ _ _) fun method => ?_
          cases method with
          | none => exact .pure _
          | some method =>
              exact .bind indifferent_headers fun _ => .bind (.ofExcept _) fun _ => .pure _

theorem indifferent_emailAction (recipient sender subject server body : String) :
    Indifferent (emailAction recipient sender subject server body) := by
  refine .bind (indifferent_stored _ _) fun content => ?_
  cases content with
  | none => exact .pure _
  | some content =>
      exact .bind (indifferent_resolve _) fun _ => .bind (.ofExcept _) fun _ => .pure _

theorem indifferent_actionOfDraft : Indifferent actionOfDraft := by
  refine .get_bind (fun address d => ?_) fun d => ?_
  · have htask : (d.readdress address).action.map Action.task = d.action.map Action.task := by
      rw [Draft.readdress, Option.map_map]
      rfl
    rw [htask]
  · split
    · exact indifferent_updateAction _ _ _
    · exact indifferent_postAction _ _ _
    · exact indifferent_emailAction _ _ _ _ _
    · exact .pure _
    · exact .pure _

theorem indifferent_write : Indifferent write := by
  refine .bind indifferent_actionOfDraft fun action => ?_
  cases action with
  | none => exact .pure _
  | some action => exact .get_bind (fun _ _ => rfl) fun _ => .pure _

end Rule

namespace Gate

open Draft (Indifferent)

theorem indifferent_assign (slot : Slot) (id : String) : Indifferent (assign slot id) := by
  -- The pattern is put into the draft that was read, so `get_bind` does not apply.
  intro address d
  have hpattern : (d.readdress address).pattern = d.pattern := rfl
  have hname : (d.readdress address).name = d.name := rfl
  by_cases hid : id = ""
  · simp [assign, bind, Run.bind, Run.get, Run.fail, hid, hname]
  · cases hp : d.pattern.assign? id slot with
    | none =>
        by_cases hslot : slot = .fixed
        · subst hslot
          simp [assign, bind, Run.bind, Run.get, Run.fail, hid, hpattern, hname, hp]
        · simp [assign, bind, Run.bind, Run.get, Run.fail, hid, hpattern, hname, hp, hslot]
    | some p =>
        have hassigned : { d.readdress address with pattern := p } =
            ({ d with pattern := p } : Draft).readdress address := rfl
        simp [assign, bind, Run.bind, Run.get, Run.modify, Run.debug, Run.note, Pure.pure, Run.pure,
          hid, hpattern, hp, hassigned]

theorem indifferent_release : Indifferent release := by
  refine .get_bind (fun _ _ => rfl) fun d => ?_
  split
  · refine .bind Rule.indifferent_write fun rule => ?_
    cases rule with
    | none => exact .bind (.note _ _) fun _ => .pure _
    | some rule =>
        exact .bind (.modify fun _ _ => rfl) fun _ => .bind (.note _ _) fun _ => .pure _
  · exact .pure _

def Event.call : Event → Run Draft Failure (Stage ⊕ Option Rule)
  | .assign slot id => do return .inl (← Gate.assign slot id)
  | .release => do return .inr (← Gate.release)

theorem indifferent_call (event : Event) : Indifferent event.call := by
  cases event with
  | assign slot id => exact .bind (indifferent_assign slot id) fun _ => .pure _
  | release => exact .bind indifferent_release fun _ => .pure _

/-- The answers to some calls, each for the draft at a place, with the stages of all drafts after
it. A call that fails does not keep the others from being made. -/
def transcript (drafts : List Draft) :
    List (Nat × Event) → List (Except Failure (Stage ⊕ Option Rule) × List Stage)
  | [] => []
  | call :: rest =>
    let ended := onDraft call.1 call.2.call drafts
    (ended.outcome, ended.state.map Draft.stage) :: transcript ended.state rest

theorem onDraft_readdress {α : Type} {x : Run Draft Failure α} (hx : Indifferent x) (i : Nat)
    (drafts : List Draft) :
    (onDraft i x (drafts.map (Draft.readdress address))).state =
        (onDraft i x drafts).state.map (Draft.readdress address) ∧
      (onDraft i x (drafts.map (Draft.readdress address))).outcome =
        (onDraft i x drafts).outcome := by
  have hget : (drafts.map (Draft.readdress address)).getD i {} =
      (drafts.getD i {}).readdress address := by
    rw [List.getD_eq_getElem?_getD, List.getD_eq_getElem?_getD, List.getElem?_map]
    cases drafts[i]? <;> rfl
  obtain ⟨hstate, houtcome⟩ := hx address (drafts.getD i {})
  rw [onDraft, Run.zoom, Run.zoom]
  simp only [hget]
  rw [hstate, houtcome, List.map_set]
  exact ⟨rfl, rfl⟩

theorem transcript_readdress (drafts : List Draft) (calls : List (Nat × Event)) :
    transcript (drafts.map (Draft.readdress address)) calls = transcript drafts calls := by
  induction calls generalizing drafts with
  | nil => rfl
  | cons call rest ih =>
      obtain ⟨hstate, houtcome⟩ :=
        onDraft_readdress address (indifferent_call call.2) call.1 drafts
      rw [transcript, transcript, hstate, houtcome, ih, List.map_map]
      rfl

end Gate

/-! ### Plans under other settings -/

def Draft.unaddressed (d : Draft) : Draft :=
  d.readdress fun _ => ""

theorem Draft.unaddressed_readdress (d : Draft) :
    (d.readdress address).unaddressed = d.unaddressed := by
  rw [unaddressed, unaddressed, readdress, readdress, readdress, Option.map_map]
  rfl

def Request.unaddressed (q : Request) : Request :=
  { q with subscription := { q.subscription with notifyUrl := "" } }

theorem Request.map_unaddressed_ofDraft (d : Draft) (index : Nat) :
    (ofDraft (d.readdress address) index).map unaddressed = (ofDraft d index).map unaddressed := by
  obtain ⟨projected, memory, pattern, device, action, name, emitted⟩ := d
  cases pattern <;> rfl

theorem Request.map_unaddressed_ofDrafts (drafts : List Draft) :
    (ofDrafts (drafts.map (Draft.readdress address))).map unaddressed =
      (ofDrafts drafts).map unaddressed := by
  rw [ofDrafts, ofDrafts, List.zipIdx_map, List.flatMap_map, List.map_flatMap, List.map_flatMap]
  exact List.flatMap_congr fun entry _ => map_unaddressed_ofDraft address entry.1 entry.2

namespace Plan

/-- Whatever the settings and the service, a flow fails alike, or has the same drafts and requests
but for the addresses; and the same calls at the gate, on the same drafts, get the same answers. -/
theorem ofFlow_settings_address_only (settings settings' : Settings) (flow flowId : Value)
    (service service' : Option String) :
    (∃ e, (ofFlow settings flow flowId service).outcome = .error e ∧
      (ofFlow settings' flow flowId service').outcome = .error e) ∨
    ∃ plan plan', (ofFlow settings flow flowId service).outcome = .ok plan ∧
      (ofFlow settings' flow flowId service').outcome = .ok plan' ∧
      plan'.drafts.map Draft.unaddressed = plan.drafts.map Draft.unaddressed ∧
      plan'.requests.map Request.unaddressed = plan.requests.map Request.unaddressed ∧
      ∀ calls, Gate.transcript plan'.drafts calls = Gate.transcript plan.drafts calls := by
  have houtcome := outcome_ofFlow_readdress settings settings' flow flowId service service'
  cases h : (ofFlow settings flow flowId service).outcome with
  | error e =>
      rw [h] at houtcome
      exact .inl ⟨e, rfl, houtcome⟩
  | ok plan =>
      rw [h] at houtcome
      refine .inr ⟨plan, _, rfl, houtcome, ?_, ?_, fun calls => ?_⟩
      · rw [readdress, List.map_map]
        exact List.map_congr_left fun d _ => Draft.unaddressed_readdress _ d
      · rw [(isFresh_of_ofFlow h).requests]
        exact Request.map_unaddressed_ofDrafts _ plan.drafts
      · exact Gate.transcript_readdress _ plan.drafts calls

end Plan

end EventFlow
