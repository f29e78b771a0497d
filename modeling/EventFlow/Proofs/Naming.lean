import EventFlow.Proofs.Listing
import EventFlow.Proofs.Numbering
import EventFlow.Proofs.Watching

/-!
Names that are empty.

A draft takes its names from the properties of switches and edge detections, without their first
segment, and at the gate from the references of its templates. A reference that is empty is passed
over, but a property is taken as it is: if it has nothing behind its first segment, its attribute is
compared, projected and watched under the empty name. No other property gives an empty name, so no
rule has one if every property of its flow names something (`Draft.IsNamed`).
-/

namespace EventFlow

/-! ### Properties without a name -/

namespace Condition

/-- A property that names no attribute: it is empty, or has nothing behind its first segment. -/
def IsNameless (property : String) : Prop :=
  property = "" ∨ ∃ segment : List Char, '.' ∉ segment ∧ property.toList = segment ++ ['.']

theorem attributeOf_eq_empty_iff {property : String} :
    attributeOf property = "" ↔ IsNameless property := by
  rw [attributeOf_eq_iff, IsNameless]
  constructor
  · rintro (hsegment | ⟨-, rfl⟩)
    · exact .inr hsegment
    · exact .inl rfl
  · rintro (rfl | hsegment)
    · exact .inr ⟨by simp, rfl⟩
    · exact .inl hsegment

end Condition

/-! ### Where names come from -/

def Step.name? : Step → Option String
  | .require (.comparison property _ _) _ => some property
  | .observe attr => some attr
  | _ => none

namespace Node

def property? (n : Node) : Option String :=
  match n.kind with
  | .switch property _ | .edge property _ => some property
  | _ => none

/-- A node names nothing but the attribute of its property. -/
theorem exists_property_of_mem_effects {n : Node} {i : Nat} {step : Step} {name : String}
    (hstep : step ∈ n.effects i) (hname : step.name? = some name) :
    ∃ property, n.property? = some property ∧ Condition.attributeOf property = name := by
  obtain ⟨id, type, tab, wires, kind⟩ := n
  cases kind with
  | source deviceId deviceType =>
      rw [List.mem_singleton.1 hstep] at hname
      cases hname
  | switch property rules =>
      cases hrule : rules[i]? with
      | none => simp [effects, hrule] at hstep
      | some rule =>
          simp only [effects, hrule, Option.map_some, Option.getD_some] at hstep
          refine ⟨property, rfl, ?_⟩
          obtain ⟨test, -, rfl⟩ | rfl := Branch.mem_steps hstep
          · exact Option.some.inj hname
          · exact Option.some.inj hname
  | edge property rules =>
      cases hrule : rules[i]? with
      | none => simp [effects, hrule] at hstep
      | some rule =>
          simp only [effects, hrule, Option.map_some, Option.getD_some, Branch.crossing] at hstep
          refine ⟨property, rfl, ?_⟩
          split at hstep
          · cases hstep
          · rw [List.mem_cons, List.mem_singleton] at hstep
            obtain rfl | rfl := hstep
            · exact Option.some.inj hname
            · exact Option.some.inj hname
  | geofence points mode filter =>
      change step ∈ Area.steps points filter at hstep
      rw [Area.steps] at hstep
      split at hstep
      · obtain ⟨test, -, rfl⟩ := List.mem_map.1 hstep
        obtain ⟨coords, hcoords⟩ := Condition.exists_area points
        rw [hcoords] at hname
        cases hname
      · cases hstep
  | change rules =>
      obtain ⟨⟨rule, k⟩, -, hstep⟩ := List.mem_flatMap.1 hstep
      simp only [Change.steps] at hstep
      split at hstep
      · split at hstep <;>
        · rw [List.mem_singleton.1 hstep] at hname
          cases hname
      · cases hstep
  | template field template =>
      rw [List.mem_singleton.1 hstep] at hname
      cases hname
  | _ => cases hstep

end Node

/-! ### Along a route and at the gate -/

namespace Draft

/-- No name in a draft is empty. -/
structure IsNamed (d : Draft) : Prop where
  compared : ∀ slot property operator value,
    .comparison property operator value ∈ d.pattern.conditions slot → property ≠ ""
  projected : ∀ name ∈ d.projected, name ≠ ""
  watched : ∀ name ∈ d.device.attributes, name ≠ ""

namespace IsNamed

variable {d : Draft}

theorem addAttribute (h : d.IsNamed) {name : String} (hname : name ≠ "") :
    (d.addAttribute name).IsNamed where
  compared := h.compared
  projected := h.projected
  watched other hother := by
    obtain hother | rfl := Names.mem_add.1 hother
    · exact h.watched other hother
    · exact hname

theorem addVariable (h : d.IsNamed) {name : String} (hname : name ≠ "") :
    (d.addVariable name).IsNamed where
  compared := h.compared
  projected other hother := by
    obtain hother | rfl := Names.mem_add.1 hother
    · exact h.projected other hother
    · exact hname
  watched := h.watched

theorem addCondition (h : d.IsNamed) {c : Condition} (slot : Slot)
    (hc : ∀ property operator value, c = .comparison property operator value → property ≠ "") :
    (d.addCondition c slot).IsNamed where
  compared s property operator value hmem := by
    obtain heq | ⟨s', hmem⟩ := Pattern.mem_conditions_add hmem
    · exact hc property operator value heq.symm
    · exact h.compared s' property operator value hmem
  projected := h.projected
  watched := h.watched

theorem apply (h : d.IsNamed) {step : Step} (hstep : ∀ name, step.name? = some name → name ≠ "") :
    (step.apply d).IsNamed := by
  cases step with
  | listen type id => exact ⟨h.compared, h.projected, h.watched⟩
  | require c slot =>
      cases c with
      | comparison property operator value =>
          have hproperty := hstep property rfl
          refine ((h.addVariable hproperty).addAttribute hproperty).addCondition slot ?_
          rintro _ _ _ ⟨⟩
          exact hproperty
      | spatial relation coords => exact h.addCondition slot (by simp)
  | observe attr => exact h.addAttribute (hstep attr rfl)
  | store path v => exact ⟨h.compared, h.projected, h.watched⟩
  | share path key fields => exact ⟨h.compared, h.projected, h.watched⟩

theorem effects (h : d.IsNamed) {n : Node}
    (hn : ∀ property, n.property? = some property → ¬ Condition.IsNameless property) (i : Nat) :
    ((n.effects i).foldl Step.apply d).IsNamed := by
  refine List.foldlRecOn (n.effects i) Step.apply h fun d h step hstep => h.apply ?_
  intro name hname
  obtain ⟨property, hproperty, rfl⟩ := Node.exists_property_of_mem_effects hstep hname
  exact fun hempty => hn property hproperty (Condition.attributeOf_eq_empty_iff.1 hempty)

end IsNamed

end Draft

namespace Gate

theorem ne_empty_of_mem_release {d : Draft} {name : String}
    (h : name ∈ (release d).state.projected) : name ∈ d.projected ∨ name ≠ "" := by
  by_cases hready : d.stage = .ready
  · rw [(release_of_ready hready).2] at h
    exact Rule.ne_empty_of_mem_write h
  · rw [(release_of_not_ready hready).1] at h
    exact .inl h

theorem isNamed_step {c : Course} (h : c.draft.IsNamed) (event : Event) :
    (c.step event).draft.IsNamed := by
  have hfollows := follows_step c event
  refine ⟨fun slot property operator value hmem => ?_, fun name hname => ?_, fun name hname => ?_⟩
  · rw [hfollows.conditions] at hmem
    exact h.compared slot property operator value hmem
  · cases event with
    | assign slot id =>
        obtain ⟨names, hprojected, hnames⟩ := projected_step c (.assign slot id)
        rw [hprojected, hnames (by simp)] at hname
        exact h.projected name hname
    | release =>
        obtain hold | hnew := ne_empty_of_mem_release hname
        · exact h.projected name hold
        · exact hnew
  · rw [hfollows.device] at hname
    exact h.watched name hname

theorem isNamed_run {d : Draft} (h : d.IsNamed) (events : List Event) :
    (Course.run d events).draft.IsNamed :=
  List.foldlRecOn events Course.step (motive := fun c => c.draft.IsNamed) h
    fun _ h event _ => isNamed_step h event

end Gate

/-! ### Queries and select clauses -/

namespace Text

/-- What has no separator in it lies on one side of it. -/
theorem infix_of_infix_append_cons {x a b : List Char} {c : Char} (hc : c ∉ x)
    (h : x <:+: a ++ c :: b) : x <:+: a ∨ x <:+: b := by
  obtain h | h | ⟨l, l', rfl, hl, hl'⟩ := List.infix_append_iff.1 h
  · exact .inl h
  · obtain h | h := List.infix_cons_iff.1 h
    · obtain rfl | ⟨x, rfl, -⟩ := List.prefix_cons_iff.1 h
      · exact .inl List.nil_infix
      · exact absurd (.head _) hc
    · exact .inr h
  · obtain rfl | ⟨l', rfl, -⟩ := List.prefix_cons_iff.1 hl'
    · rw [List.append_nil]
      exact .inl hl.isInfix
    · exact absurd (by simp) hc

/-- What has no comma in it and does not begin with a blank lies in one of the texts that are
listed. -/
theorem infix_of_infix_join {x : List Char} (hcomma : ',' ∉ x) (hblank : x.head? ≠ some ' ')
    (hx : x ≠ []) {pieces : List (List Char)} (h : x <:+: join [',', ' '] pieces) :
    ∃ piece ∈ pieces, x <:+: piece := by
  induction pieces with
  | nil => exact absurd (List.infix_nil.1 h) hx
  | cons piece pieces ih =>
      by_cases hpieces : pieces = []
      · subst hpieces
        exact ⟨piece, .head _, h⟩
      · rw [join_cons _ _ hpieces, List.append_assoc] at h
        obtain h | h := infix_of_infix_append_cons hcomma h
        · exact ⟨piece, .head _, h⟩
        · obtain h | h := List.infix_cons_iff.1 h
          · obtain rfl | ⟨x, rfl, -⟩ := List.prefix_cons_iff.1 h
            · exact absurd rfl hx
            · exact absurd rfl hblank
          · obtain ⟨piece', hpiece', hwithin⟩ := ih h
            exact ⟨piece', .tail _ hpiece', hwithin⟩

theorem dot_notMem_ruleName (flowId : String) (sequence : Int) :
    '.' ∉ (ruleName flowId sequence).toList := by
  have hid : '.' ∉ (replaceChar '.' '_' flowId).toList := by
    rw [replaceChar, String.toList_ofList]
    intro hmem
    obtain ⟨c, -, hc⟩ := List.mem_map.1 hmem
    split at hc
    · cases hc
    · exact absurd hc ‹_›
  have hdigits : '.' ∉ intDigits sequence := notMem_intDigits (by decide) (by decide) sequence
  simp only [ruleName, String.toList_append, List.mem_append, String.toList_ofList, not_or]
  exact ⟨⟨⟨by decide, hid⟩, by decide⟩, hdigits⟩

end Text

/-- A query begins with a sign only if the property that it compares does. -/
theorem Condition.sign_prefix_property {property value : String} {operator : Operator}
    (hproperty : property ≠ "") {sign : List Char} (hsign : ' ' ∉ sign)
    (h : ' ' :: sign <+: (query property operator value).toList) :
    ' ' :: sign <+: property.toList := by
  have hquery : (query property operator value).toList =
      property.toList ++ ' ' :: (operator.symbol?.getD "None" ++ " " ++ value).toList := by
    simp [query]
  rw [hquery] at h
  cases hname : property.toList with
  | nil => exact absurd (String.toList_eq_nil_iff.1 hname) hproperty
  | cons c name =>
      rw [hname, List.cons_append, List.cons_prefix_cons] at h
      obtain ⟨rfl, h⟩ := h
      refine List.cons_prefix_cons.2 ⟨rfl, ?_⟩
      obtain hshort | ⟨rest, rfl⟩ := List.prefix_or_prefix_of_prefix h (List.prefix_append name _)
      · exact hshort
      · -- The sign would go on behind the property, where a blank stands.
        obtain rfl | ⟨rest, rfl, -⟩ :=
          List.prefix_cons_iff.1 ((List.prefix_append_right_inj name).1 h)
        · rw [List.append_nil]
        · exact absurd (by simp) hsign

namespace Rule

/-- The column of a name is cut at its question mark, and what stands before that is the name. -/
theorem not_infix_column {event name before behind : List Char} (hevent : '?' ∉ event)
    (hname : '?' ∉ name) (hempty : name ≠ []) (hdot : name.getLast? ≠ some '.') :
    ¬ before ++ '.' :: '?' :: behind <:+:
      event ++ '.' :: name ++ '?' :: (" as ".toList ++ name) := by
  rintro ⟨s, t, h⟩
  have hclean : '?' ∉ event ++ '.' :: name := by simp [hevent, hname]
  have hmark : event ++ '.' :: name ++ '?' :: (" as ".toList ++ name) =
      s ++ before ++ ['.'] ++ '?' :: (behind ++ t) := by
    rw [← h]
    simp
  have hcut : event ++ '.' :: name = s ++ before ++ ['.'] :=
    ((List.append_cons_inj_of_notMem hclean (by simp [hname])).1 hmark).1
  have hlast := congrArg List.getLast? hcut
  rw [List.getLast?_append_of_ne_nil _ (by simp), List.getLast?_cons_of_ne_nil hempty] at hlast
  exact hdot (hlast.trans List.getLast?_concat)

/-- A column without a name is selected only if there is one, or if some name is spelled so that
the column looks like that. -/
theorem exists_name_of_infix_columns {d : Draft} (hname : '.' ∉ d.name.toList)
    (hprojected : ∀ name ∈ d.projected, name ≠ "") {nameless : String}
    (hnameless : nameless ∈ ["ev.? as ", "ev2.? as "])
    (h : nameless.toList <:+: ("select *, " ++ Text.joinWith ", " (columns d)).toList) :
    ∃ name ∈ d.projected, '?' ∈ name.toList ∨ name.toList.getLast? = some '.' := by
  obtain ⟨event, hevent, hcomma, hblank⟩ : ∃ event : String,
      nameless.toList = event.toList ++ '.' :: '?' :: " as ".toList ∧ ',' ∉ nameless.toList ∧
        nameless.toList.head? ≠ some ' ' := by
    rw [List.mem_cons, List.mem_singleton] at hnameless
    obtain rfl | rfl := hnameless
    · exact ⟨"ev", rfl, by decide, by decide⟩
    · exact ⟨"ev2", rfl, by decide, by decide⟩
  have hdot : '.' ∈ nameless.toList := by simp [hevent]
  have hclause : ("select *, " ++ Text.joinWith ", " (columns d)).toList =
      Text.join [',', ' '] ("select *".toList :: (columns d).map String.toList) := by
    rw [Text.join_cons _ _ (by simp [columns]), Text.joinWith, String.toList_append,
      String.toList_ofList (l := Text.join _ _)]
    rfl
  rw [hclause] at h
  obtain ⟨piece, hpiece, hwithin⟩ :=
    Text.infix_of_infix_join hcomma hblank (List.ne_nil_of_mem hdot) h
  rw [columns, List.map_cons, List.map_map, List.mem_cons, List.mem_cons, List.mem_map] at hpiece
  obtain rfl | rfl | ⟨name, hmem, rfl⟩ := hpiece
  · exact absurd (hwithin.subset hdot) (by decide)
  · refine absurd (hwithin.subset hdot) ?_
    simp [hname]
  · refine ⟨name, hmem, ?_⟩
    by_contra hspelled
    obtain ⟨hmark, hlast⟩ := not_or.1 hspelled
    have hempty : name.toList ≠ [] :=
      fun hnil => hprojected name hmem (String.toList_eq_nil_iff.1 hnil)
    have hselected : '?' ∉ (if d.isPaired then "ev2" else "ev").toList := by
      split <;> decide
    have hcolumn : event.toList ++ '.' :: '?' :: " as ".toList <:+:
        (if d.isPaired then "ev2" else "ev").toList ++ '.' :: name.toList ++
          '?' :: (" as ".toList ++ name.toList) := by
      rw [← hevent]
      simpa using hwithin
    exact not_infix_column hselected hmark hempty hlast hcolumn

end Rule

/-! ### The drafts of a plan -/

namespace Plan

/-- Every property that a node of the flow looks at names an attribute. -/
def NamesProperties (flow : Value) : Prop :=
  ∀ descriptors, flow.entries? = some descriptors → ∀ v ∈ descriptors, ∀ n,
    Node.ofDescriptor v = .ok n → ∀ property, n.property? = some property →
      ¬ Condition.IsNameless property

variable {settings : Settings} {flow flowId : Value} {service : Option String} {plan : Plan}
  {d : Draft}

theorem isNamed_of_mem_drafts (h : (ofFlow settings flow flowId service).outcome = .ok plan)
    (hnamed : NamesProperties flow) (hd : d ∈ plan.drafts) : d.IsNamed := by
  refine gathered_in (P := Draft.IsNamed) ?_ ?_ ?_ h d hd
  · refine ⟨fun slot _ _ _ hmem => ?_, by simp, by simp⟩
    cases slot <;> cases hmem
  · intro descriptors g hentries hgraph n hn i d _ hd
    obtain ⟨k, rfl⟩ := List.get_of_mem hn
    have hnodes := Graph.ofDescriptors_eq_ok_iff.1 hgraph
    have hk : k.1 < descriptors.length := by
      rw [hnodes.length_eq]
      exact k.2
    exact hd.effects
      (hnamed descriptors hentries _ (List.get_mem _ ⟨k, hk⟩) _ (hnodes.get hk k.2)) i
  · exact fun d name memory action hd => ⟨hd.compared, hd.projected, hd.watched⟩

theorem dot_notMem_name (h : (ofFlow settings flow flowId service).outcome = .ok plan)
    (hd : d ∈ plan.drafts) : '.' ∉ d.name.toList := by
  obtain ⟨_, _, _, -, -, -, -, hdrafts⟩ := drafts_along_routes h
  obtain ⟨k, hk⟩ := List.getElem?_of_mem hd
  obtain ⟨id, way, memory, -, -, rfl⟩ := hdrafts k d hk
  exact Text.dot_notMem_ruleName id _

/-- If every property of a flow names an attribute, no rule compares, projects or watches the empty
name, whatever happens at the gate. So no query begins with a sign where a property should be, and
no column without a name is selected: either is found only where a name is spelled like that. -/
theorem names_never_empty (h : (ofFlow settings flow flowId service).outcome = .ok plan)
    (hnamed : NamesProperties flow) (hd : d ∈ plan.drafts) (events : List Gate.Event) :
    let e := (Gate.Course.run d events).draft
    (∀ slot property operator value,
      .comparison property operator value ∈ e.pattern.conditions slot → property ≠ "" ∧
        ∀ (o : Operator) (sign : String), o.symbol? = some sign →
          ' ' :: sign.toList <+: (Condition.query property operator value).toList →
            ' ' :: sign.toList <+: property.toList) ∧
    (∀ name ∈ e.projected, name ≠ "") ∧ (∀ name ∈ e.device.attributes, name ≠ "") ∧
    ∀ nameless ∈ ["ev.? as ", "ev2.? as "],
      nameless.toList <:+: ("select *, " ++ Text.joinWith ", " (Rule.columns e)).toList →
        ∃ name ∈ e.projected, '?' ∈ name.toList ∨ name.toList.getLast? = some '.' := by
  intro e
  have he : e.IsNamed := Gate.isNamed_run (isNamed_of_mem_drafts h hnamed hd) events
  have hname : e.name = d.name := (Gate.follows_run { draft := d } events).name
  refine ⟨fun slot property operator value hmem => ?_, he.projected, he.watched, ?_⟩
  · have hproperty := he.compared slot property operator value hmem
    refine ⟨hproperty, fun o sign hsign => Condition.sign_prefix_property hproperty ?_⟩
    cases o <;> cases hsign <;> decide
  · intro nameless hnameless
    exact Rule.exists_name_of_infix_columns (hname ▸ dot_notMem_name h hd) he.projected hnameless

theorem namesProperties_enteringFlow : NamesProperties enteringFlow := by
  rintro _ ⟨⟩ v hv n hn property hproperty
  rw [← Condition.attributeOf_eq_empty_iff]
  simp only [List.mem_cons, List.not_mem_nil, or_false] at hv
  obtain rfl | rfl | rfl | rfl | rfl := hv <;> cases hn <;> cases hproperty <;> decide

/-- The gate assigns both ids and gives the rule. -/
theorem names_never_empty_enteringFlow :
    (ofFlow {} enteringFlow (.text "f") none).outcome = .ok entering ∧
    NamesProperties enteringFlow ∧ enteringDraft ∈ entering.drafts ∧
    ∀ name ∈ (Gate.Course.run enteringDraft enteringEvents).draft.projected, name ≠ "" := by
  refine ⟨ofFlow_enteringFlow, namesProperties_enteringFlow,
    List.mem_singleton_self enteringDraft, ?_⟩
  exact (names_never_empty ofFlow_enteringFlow namesProperties_enteringFlow
    (List.mem_singleton_self enteringDraft) enteringEvents).2.1

def namelessFlow : Value :=
  .list [
    .object [("id", .text "s"), ("type", .text "device out"), ("wires", .list [.list [.text "w"]])],
    .object [("id", .text "w"), ("type", .text "switch"),
      ("rules", .list [.object [("t", .text "eq"), ("v", .text "1")]]),
      ("wires", .list [.list [.text "h"]])],
    .object [("id", .text "h"), ("type", .text "history")]]

def namelessGraph : Graph where
  nodes := [⟨"s", "device out", "", [["w"]], .source "" ""⟩,
    ⟨"w", "switch", "", [["h"]], .switch "" [⟨"eq", .text "1", none, .null, none⟩]⟩,
    ⟨"h", "history", "", [], .history⟩]
  distinct := by decide
  wired := by decide

def namelessWalk : Walk :=
  .pass false [] [.pass true [.listen "" ""] [.pass false [] [.pass true
    [.require (.comparison "" .eq "1") .fixed] [.sink ⟨"http://cygnus:5050/notify", .history⟩]]]]

def namelessDraft : Draft where
  projected := [""]
  pattern := .single [.comparison "" .eq "1"] ""
  device := { attributes := [""] }
  action := some ⟨"http://cygnus:5050/notify", .history⟩
  name := "rule_f_1"

theorem nameDrafts_namelessWalk :
    nameDrafts (.text "f") (draftsOf [namelessWalk]) = .ok [namelessDraft] := by
  simp only [draftsOf, harvestAll, Walk.start, namelessWalk, Walk.harvest_pass_singleton]
  rfl

/-- A property that is not given is taken for one without a name: its rule is planned, with a query
that begins with a sign, and selects a column without a name. -/
theorem plan_of_nameless_property :
    ∃ plan, (ofFlow {} namelessFlow (.text "f") none).outcome = .ok plan ∧
      plan.drafts = [namelessDraft] ∧ Condition.query "" .eq "1" = " == 1" ∧
      Rule.columns namelessDraft = ["\"rule_f_1\" as ruleName", "ev.? as "] :=
  ⟨⟨.text "f", none, [namelessDraft], Request.ofDrafts [namelessDraft]⟩,
    ofFlow_eq_ok_iff.2 ⟨_, _, namelessGraph, [namelessWalk], [namelessDraft], rfl, rfl, rfl,
      by with_unfolding_all rfl, nameDrafts_namelessWalk, rfl⟩, rfl, rfl, rfl⟩

end Plan

end EventFlow
