import EventFlow.Proofs.Gathering

/-!
The two events of a correlated draft.

A node adds its conditions to both events, or one condition to each of them, and then the two are
opposed: a value crosses a threshold, or a position the border of an area. So the events of a draft
have their conditions in pairs (`balanced_effects`), and at least one pair is opposed.
-/

namespace EventFlow

/-! ### Conditions in pairs -/

namespace Condition

/-- Two conditions on the same subject that exclude each other. -/
inductive Opposed : Condition → Condition → Prop where
  | rising (property value : String) :
      Opposed (.comparison property .lt value) (.comparison property .gte value)
  | falling (property value : String) :
      Opposed (.comparison property .gte value) (.comparison property .lt value)
  | entering (coords : String) : Opposed (.spatial .disjoint coords) (.spatial .coveredBy coords)
  | leaving (coords : String) : Opposed (.spatial .coveredBy coords) (.spatial .disjoint coords)

/-- What the conditions of the two events at one place are to each other. -/
def Matches (a b : Condition) : Prop :=
  a = b ∨ Opposed a b

theorem forall₂_matches_refl (cs : List Condition) : List.Forall₂ Matches cs cs :=
  List.forall₂_same.2 fun _ _ => .inl rfl

theorem opposed_compared (property : String) (edge : Edge) (v : Value) :
    Opposed (compared property (edge.before, v)) (compared property (edge.after, v)) := by
  cases edge with
  | rising => exact .rising _ _
  | falling => exact .falling _ _

theorem exists_area (points : Option (List Vertex)) :
    ∃ coords, ∀ relation, Area.condition points relation = .spatial relation coords := by
  match points with
  | none => exact ⟨_, fun _ => rfl⟩
  | some [] => exact ⟨_, fun _ => rfl⟩
  | some (first :: rest) => exact ⟨_, fun _ => rfl⟩

end Condition

namespace Pattern

open Condition (Opposed Matches)

/-- The conditions of the two events come in pairs, of which at least one is opposed. -/
def Balanced : Pattern → Prop
  | .paired fs ss _ _ =>
    List.Forall₂ Matches fs ss ∧ ∃ pair ∈ fs.zip ss, Opposed pair.1 pair.2
  | _ => True

theorem Balanced.add_fixed {p : Pattern} (h : p.Balanced) (c : Condition) :
    (p.add c .fixed).Balanced := by
  cases p with
  | undecided => trivial
  | single cs id => trivial
  | paired fs ss fid sid =>
      obtain ⟨hmatched, pair, hpair, hopposed⟩ := h
      refine ⟨List.rel_append hmatched (.cons (.inl rfl) .nil), pair, ?_, hopposed⟩
      rw [List.zip_append hmatched.length_eq]
      exact List.mem_append_left _ hpair

/-- A pair of opposed conditions may come to any conditions that are in pairs, or be the first. -/
theorem Balanced.add_opposed {p : Pattern} (h : p.Balanced) {a b : Condition} (hab : Opposed a b) :
    ((p.add a .first).add b .second).Balanced := by
  have hadd (fs ss : List Condition) (hmatched : List.Forall₂ Matches fs ss) (fid sid : String) :
      (Pattern.paired (fs ++ [a]) (ss ++ [b]) fid sid).Balanced := by
    refine ⟨List.rel_append hmatched (.cons (.inr hab) .nil), (a, b), ?_, hab⟩
    rw [List.zip_append hmatched.length_eq]
    exact List.mem_append_right _ (List.mem_singleton_self _)
  cases p with
  | undecided => exact hadd [] [] .nil _ _
  | single cs id => exact hadd cs cs (Condition.forall₂_matches_refl cs) _ _
  | paired fs ss fid sid => exact hadd fs ss h.1 _ _

end Pattern

/-! ### What the nodes demand -/

namespace Step

def demand? : Step → Option (Condition × Slot)
  | .require c slot => some (c, slot)
  | _ => none

theorem pattern_apply (d : Draft) (step : Step) :
    (step.apply d).pattern =
      step.demand?.elim d.pattern fun demand => d.pattern.add demand.1 demand.2 := by
  cases step with
  | require c slot => cases c <;> rfl
  | _ => rfl

/-- Only the demands of the steps count for the pattern. -/
theorem pattern_foldl_apply (steps : List Step) (d : Draft) :
    (steps.foldl apply d).pattern =
      (steps.filterMap demand?).foldl (fun p demand => p.add demand.1 demand.2) d.pattern := by
  induction steps generalizing d with
  | nil => rfl
  | cons step steps ih =>
      rw [List.foldl_cons, ih, pattern_apply, List.filterMap_cons]
      cases step.demand? <;> rfl

/-- The demands are on both events alike, or on each of them with opposed conditions. -/
def Fair (demands : List (Condition × Slot)) : Prop :=
  (∀ demand ∈ demands, demand.2 = .fixed) ∨
    ∃ a b, Condition.Opposed a b ∧ demands = [(a, .first), (b, .second)]

theorem Fair.balanced {demands : List (Condition × Slot)} (h : Fair demands) {p : Pattern}
    (hp : p.Balanced) : (demands.foldl (fun p demand => p.add demand.1 demand.2) p).Balanced := by
  obtain hfixed | ⟨a, b, hab, rfl⟩ := h
  · induction demands generalizing p with
    | nil => exact hp
    | cons demand demands ih =>
        obtain ⟨hslot, hrest⟩ := List.forall_mem_cons.1 hfixed
        rw [List.foldl_cons, hslot]
        exact ih (hp.add_fixed _) hrest
  · exact hp.add_opposed hab

end Step

open Step

theorem Branch.demand?_steps {property : String} {rules : List Branch} {rule : Branch} :
    ∀ demand ∈ (rule.steps property rules).filterMap demand?, demand.2 = .fixed := by
  intro demand hdemand
  obtain ⟨step, hstep, hsome⟩ := List.mem_filterMap.1 hdemand
  obtain ⟨_, -, rfl⟩ | rfl := Branch.mem_steps hstep
  · cases hsome
    rfl
  · cases hsome

theorem Branch.fair_crossing (property : String) (rule : Branch) :
    Fair ((rule.crossing property).filterMap demand?) := by
  rw [Branch.crossing]
  split
  · exact .inl fun _ h => by cases h
  · exact .inr ⟨_, _, Condition.opposed_compared property _ rule.value, rfl⟩

theorem Area.fair_steps (points : Option (List Vertex)) (filter : Option String) :
    Fair ((Area.steps points filter).filterMap demand?) := by
  obtain ⟨coords, hcoords⟩ := Condition.exists_area points
  rw [Area.steps]
  split
  · next f _ =>
      cases f with
      | inside => exact .inl fun _ h => by rw [List.mem_singleton.1 h]
      | outside => exact .inl fun _ h => by rw [List.mem_singleton.1 h]
      | enters =>
          refine .inr ⟨_, _, ?_, rfl⟩
          rw [hcoords, hcoords]
          exact .entering coords
      | exits =>
          refine .inr ⟨_, _, ?_, rfl⟩
          rw [hcoords, hcoords]
          exact .leaving coords
  · exact .inl fun _ h => by cases h

theorem Change.demand?_steps {node : String} {index : Nat} {rule : Change} :
    ∀ step ∈ rule.steps node index, step.demand? = none := by
  intro step hstep
  rw [Change.steps] at hstep
  split at hstep
  · split at hstep
    · rw [List.mem_singleton.1 hstep]
      rfl
    · rw [List.mem_singleton.1 hstep]
      rfl
  · cases hstep

theorem Node.fair_effects (n : Node) (i : Nat) : Fair ((n.effects i).filterMap demand?) := by
  have hnothing {steps : List Step} (h : steps.filterMap demand? = []) :
      Fair (steps.filterMap demand?) := by
    rw [h]
    exact .inl fun _ hmem => by cases hmem
  obtain ⟨id, type, tab, wires, kind⟩ := n
  cases kind with
  | switch property rules =>
      cases hrule : rules[i]? with
      | none => exact hnothing (by simp [effects, hrule])
      | some rule =>
          simp only [effects, hrule, Option.map_some, Option.getD_some]
          exact .inl Branch.demand?_steps
  | edge property rules =>
      cases hrule : rules[i]? with
      | none => exact hnothing (by simp [effects, hrule])
      | some rule =>
          simp only [effects, hrule, Option.map_some, Option.getD_some]
          exact rule.fair_crossing property
  | geofence points mode filter => exact Area.fair_steps points filter
  | change rules =>
      refine hnothing (List.filterMap_eq_nil_iff.2 fun step hstep => ?_)
      obtain ⟨⟨rule, k⟩, -, hstep⟩ := List.mem_flatMap.1 hstep
      exact Change.demand?_steps step hstep
  | _ => exact hnothing rfl

/-- The conditions of the two events stay in pairs from node to node. -/
theorem Node.balanced_effects (n : Node) (i : Nat) {d : Draft} (h : d.pattern.Balanced) :
    ((n.effects i).foldl Step.apply d).pattern.Balanced := by
  rw [pattern_foldl_apply]
  exact (n.fair_effects i).balanced h

/-! ### What the broker is asked -/

namespace Expression

theorem add_ne_nil (expression : Fields String) (part : String × String) :
    add expression part ≠ [] := by
  have hput (fields : Fields String) (key value : String) : Fields.put fields key value ≠ [] := by
    cases fields with
    | nil => exact List.cons_ne_nil _ _
    | cons field rest =>
        rw [Fields.put]
        split <;> exact List.cons_ne_nil _ _
  rw [add]
  split <;> exact hput _ _ _

theorem ofConditions_ne_nil {conditions : List Condition} (h : conditions ≠ []) :
    ofConditions conditions ≠ [] := by
  have hparts : conditions.flatMap Condition.expression ≠ [] := by
    obtain ⟨c, rest, rfl⟩ := List.exists_cons_of_ne_nil h
    cases c <;> exact List.cons_ne_nil _ _
  obtain ⟨before, last, hsplit⟩ := List.eq_nil_or_concat' _ |>.resolve_left hparts
  rw [ofConditions, hsplit, List.foldl_append]
  exact add_ne_nil _ last

end Expression

namespace Subscription

theorem expression_ofConditions (d : Draft) {conditions : List Condition} (h : conditions ≠ [])
    (slot : Slot) :
    (ofConditions d conditions slot).expression = some (Expression.ofConditions conditions) :=
  if_neg fun hempty => h (List.isEmpty_iff.1 hempty)

theorem attributes_ofConditions (d : Draft) {conditions : List Condition} (h : conditions ≠ [])
    (slot : Slot) : (ofConditions d conditions slot).attributes = d.device.attributes :=
  if_neg fun hempty => h (List.isEmpty_iff.1 hempty)

def condition? (s : Subscription) : Option Value :=
  (s.payload.field? "subject").bind (·.field? "condition")

theorem condition?_ofConditions (d : Draft) {conditions : List Condition} (h : conditions ≠ [])
    (slot : Slot) :
    (ofConditions d conditions slot).condition? =
      some (.object [("attrs", .list (d.device.attributes.map .text)),
        ("expression", .object (Fields.map .text (Expression.ofConditions conditions)))]) := by
  obtain ⟨part, rest, hexpression⟩ :=
    List.exists_cons_of_ne_nil (Expression.ofConditions_ne_nil h)
  have hcondition : (ofConditions d conditions slot).conditionPayload =
      [("condition", .object [("attrs", .list (d.device.attributes.map .text)),
        ("expression", texts (Expression.ofConditions conditions))])] := by
    rw [conditionPayload, expression_ofConditions d h, attributes_ofConditions d h, hexpression]
  rw [condition?, payload, hcondition]
  rfl

end Subscription

namespace Request

theorem draft_of_mem_ofDraft {d : Draft} {index : Nat} {q : Request} (h : q ∈ ofDraft d index) :
    q.draft = index := by
  have hplace : q.place ∈ (ofDraft d index).map place := List.mem_map_of_mem h
  rw [map_place_ofDraft, List.mem_map] at hplace
  obtain ⟨slot, -, hslot⟩ := hplace
  exact (congrArg Prod.fst hslot).symm

/-- The requests of a draft among those of all drafts. -/
theorem filter_ofDrafts {drafts : List Draft} {i : Nat} {d : Draft} (h : drafts[i]? = some d) :
    (ofDrafts drafts).filter (·.draft = i) = ofDraft d i := by
  have hown (e : Draft) (k : Nat) : (ofDraft e k).filter (·.draft = i) =
      if k = i then ofDraft e k else [] := by
    split
    · next hk =>
        refine List.filter_eq_self.2 fun q hq => ?_
        simp [draft_of_mem_ofDraft hq, hk]
    · next hk =>
        refine List.filter_eq_nil_iff.2 fun q hq => ?_
        simp [draft_of_mem_ofDraft hq, hk]
  have hnone (es : List Draft) (k : Nat) (hk : k + es.length ≤ i ∨ i < k) :
      ((es.zipIdx k).flatMap fun p => (ofDraft p.1 p.2).filter (·.draft = i)) = [] := by
    refine List.flatMap_eq_nil_iff.2 fun p hp => ?_
    have hrange := List.mem_zipIdx hp
    rw [hown, if_neg (by omega)]
  obtain ⟨hi, rfl⟩ := List.getElem?_eq_some_iff.1 h
  have hlength : (drafts.take i).length = i := List.length_take_of_le (Nat.le_of_lt hi)
  have hsplit : drafts.zipIdx =
      (drafts.take i).zipIdx ++ (drafts[i], i) :: (drafts.drop (i + 1)).zipIdx (i + 1) := by
    conv_lhs => rw [← List.take_append_drop i drafts, List.drop_eq_getElem_cons hi]
    rw [List.zipIdx_append, hlength, Nat.zero_add, List.zipIdx_cons]
  rw [ofDrafts, List.filter_flatMap, hsplit, List.flatMap_append, List.flatMap_cons,
    hnone _ _ (.inl (by rw [hlength, Nat.zero_add])), hnone _ _ (.inr (Nat.lt_succ_self i)), hown,
    if_pos rfl, List.nil_append, List.append_nil]

end Request

/-- A draft with one way on is not copied. -/
theorem Walk.harvest_pass_singleton (shelf : Shelf) (c : Carried) (copied : Bool)
    (steps : List Step) (w : Walk) :
    (pass copied steps [w]).harvest shelf c =
      let arrived := (if copied then c.copy shelf else c).steps shelf steps
      w.harvest arrived.1 arrived.2 := by
  change ((w.harvest _ _).1, (w.harvest _ _).2 ++ []) = _
  rw [List.append_nil]
  rfl

namespace Plan

/-- A correlated draft of a plan waits for two events whose conditions come in pairs: at every place
the two are the same or opposed, and somewhere they are opposed. So there are conditions in both of
its requests to the broker. No draft of a plan has been at the gate. -/
theorem events_in_pairs {settings : Settings} {flow flowId : Value} {service : Option String}
    {plan : Plan} (h : (ofFlow settings flow flowId service).outcome = .ok plan) {i : Nat}
    {d : Draft} (hd : plan.drafts[i]? = some d) :
    (d.isPaired = true →
      d.pattern.conditions .first ≠ [] ∧ d.pattern.conditions .second ≠ [] ∧
      List.Forall₂ Condition.Matches (d.pattern.conditions .first) (d.pattern.conditions .second) ∧
      (∃ pair ∈ (d.pattern.conditions .first).zip (d.pattern.conditions .second),
        Condition.Opposed pair.1 pair.2) ∧
      (plan.requests.filter (·.draft = i)).map Request.slot = [.first, .second] ∧
      ∀ q ∈ plan.requests, q.draft = i →
        Expression.ofConditions (d.pattern.conditions q.slot) ≠ [] ∧
        q.subscription.condition? =
          some (.object [("attrs", .list (d.device.attributes.map .text)),
            ("expression",
              .object (Fields.map .text
                (Expression.ofConditions (d.pattern.conditions q.slot))))])) ∧
    (d.isPaired = false →
      d.pattern.conditions .first = [] ∧ d.pattern.conditions .second = []) ∧
    (∀ slot, d.pattern.idOf slot = "") ∧ d.emitted = false := by
  have hmem : d ∈ plan.drafts := List.mem_of_getElem? hd
  have hfresh := isFresh_of_ofFlow h
  have hnew := hfresh.drafts d hmem
  have hbalanced : d.pattern.Balanced :=
    gathered (P := fun d => d.pattern.Balanced) trivial (fun n i _ _ hd => n.balanced_effects i hd)
      (fun _ _ _ _ hd => hd) h d hmem
  have hrequests : plan.requests.filter (·.draft = i) = Request.ofDraft d i := by
    rw [hfresh.requests, Request.filter_ofDrafts hd]
  refine ⟨fun hpaired => ?_, fun hpaired => ?_, hnew.ids, hnew.emitted⟩
  · cases hpattern : d.pattern with
    | undecided => simp [Draft.isPaired, hpattern, Pattern.isPaired] at hpaired
    | single cs id => simp [Draft.isPaired, hpattern, Pattern.isPaired] at hpaired
    | paired fs ss fid sid =>
        rw [hpattern] at hbalanced
        obtain ⟨hmatched, pair, hpair, hopposed⟩ := hbalanced
        have hfs : fs ≠ [] := List.ne_nil_of_mem (List.of_mem_zip hpair).1
        have hss : ss ≠ [] := List.ne_nil_of_mem (List.of_mem_zip hpair).2
        have hown : Request.ofDraft d i =
            [⟨.ofConditions d fs .first, .first, i⟩, ⟨.ofConditions d ss .second, .second, i⟩] := by
          rw [Request.ofDraft, hpattern]
        refine ⟨hfs, hss, hmatched, ⟨pair, hpair, hopposed⟩, by rw [hrequests, hown]; rfl, ?_⟩
        intro q hq hi
        have hq : q ∈ plan.requests.filter (·.draft = i) := List.mem_filter.2 ⟨hq, by simp [hi]⟩
        rw [hrequests, hown, List.mem_cons, List.mem_singleton] at hq
        obtain rfl | rfl := hq
        · exact ⟨Expression.ofConditions_ne_nil hfs, Subscription.condition?_ofConditions d hfs _⟩
        · exact ⟨Expression.ofConditions_ne_nil hss, Subscription.condition?_ofConditions d hss _⟩
  · cases hpattern : d.pattern with
    | undecided => exact ⟨rfl, rfl⟩
    | single cs id => exact ⟨rfl, rfl⟩
    | paired fs ss fid sid => simp [Draft.isPaired, hpattern, Pattern.isPaired] at hpaired

/-- A flow that records when the value of an active device rises as the device enters an area. -/
def enteringFlow : Value :=
  .list [
    .object [("id", .text "s"), ("type", .text "device out"), ("wires", .list [.list [.text "w"]])],
    .object [("id", .text "w"), ("type", .text "switch"), ("property", .text "payload.on"),
      ("rules", .list [.object [("t", .text "eq"), ("v", .bool true)]]),
      ("wires", .list [.list [.text "e"]])],
    .object [("id", .text "e"), ("type", .text "edgedetection"), ("property", .text "payload.x"),
      ("rules", .list [.object [("t", .text "edge-up"), ("v", .text "5")]]),
      ("wires", .list [.list [.text "a"]])],
    .object [("id", .text "a"), ("type", .text "geofence"), ("mode", .text "polyline"),
      ("filter", .text "enters"),
      ("points", .list [.object [("latitude", .text "1"), ("longitude", .text "2")]]),
      ("wires", .list [.list [.text "h"]])],
    .object [("id", .text "h"), ("type", .text "history")]]

def enteringGraph : Graph where
  nodes := [⟨"s", "device out", "", [["w"]], .source "" ""⟩,
    ⟨"w", "switch", "", [["e"]], .switch "payload.on" [⟨"eq", .bool true, none, .null, none⟩]⟩,
    ⟨"e", "edgedetection", "", [["a"]],
      .edge "payload.x" [⟨"edge-up", .text "5", none, .null, none⟩]⟩,
    ⟨"a", "geofence", "", [["h"]],
      .geofence (some [⟨.text "1", .text "2"⟩]) (some "polyline") (some "enters")⟩,
    ⟨"h", "history", "", [], .history⟩]
  distinct := by decide
  wired := by decide

def enteringWalk : Walk :=
  .pass false [] [.pass true [.listen "" ""] [.pass false [] [.pass true
    [.require (.comparison "on" .eq "true") .fixed] [.pass false [] [.pass true
      [.require (.comparison "x" .lt "5") .first, .require (.comparison "x" .gte "5") .second]
      [.pass false [] [.pass false
        [.require (.spatial .disjoint "1,2;1,2") .first,
          .require (.spatial .coveredBy "1,2;1,2") .second]
        [.sink ⟨"http://cygnus:5050/notify", .history⟩]]]]]]]]

def enteringDraft : Draft where
  projected := ["on", "x"]
  pattern := .paired
    [.comparison "on" .eq "true", .comparison "x" .lt "5", .spatial .disjoint "1,2;1,2"]
    [.comparison "on" .eq "true", .comparison "x" .gte "5", .spatial .coveredBy "1,2;1,2"] "" ""
  device := { attributes := ["on", "x"] }
  action := some ⟨"http://cygnus:5050/notify", .history⟩
  name := "rule_f_1"

def entering : Plan where
  flowId := .text "f"
  service := none
  drafts := [enteringDraft]
  requests := Request.ofDrafts [enteringDraft]

theorem nameDrafts_enteringWalk :
    nameDrafts (.text "f") (draftsOf [enteringWalk]) = .ok [enteringDraft] := by
  -- By its definition a walk is harvested twice at every node: for the shelf and for the drafts.
  simp only [draftsOf, harvestAll, Walk.start, enteringWalk, Walk.harvest_pass_singleton]
  rfl

theorem ofFlow_enteringFlow : (ofFlow {} enteringFlow (.text "f") none).outcome = .ok entering :=
  ofFlow_eq_ok_iff.2 ⟨_, _, enteringGraph, [enteringWalk], [enteringDraft], rfl, rfl, rfl,
    by with_unfolding_all rfl, nameDrafts_enteringWalk, rfl⟩

theorem events_in_pairs_enteringFlow :
    (ofFlow {} enteringFlow (.text "f") none).outcome = .ok entering ∧
    entering.drafts[0]? = some enteringDraft ∧ enteringDraft.isPaired = true ∧
    List.Forall₂ Condition.Matches (enteringDraft.pattern.conditions .first)
      (enteringDraft.pattern.conditions .second) ∧
    (entering.requests.filter (·.draft = 0)).map Request.slot = [.first, .second] := by
  obtain ⟨-, -, hmatched, -, hslots, -⟩ :=
    (events_in_pairs ofFlow_enteringFlow (i := 0) (d := enteringDraft) rfl).1 rfl
  exact ⟨ofFlow_enteringFlow, rfl, rfl, hmatched, hslots⟩

end Plan

end EventFlow
