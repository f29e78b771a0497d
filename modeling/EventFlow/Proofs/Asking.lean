import EventFlow.Proofs.InPlace
import EventFlow.Proofs.Watching

/-!
What is asked of the broker.

The conditions of a draft are gathered one after the other, each for a slot. Whatever the order of
the slots, a rule on one event has all conditions in order, and each event of a pair has the fixed
ones and its own (`Pattern.foldl_add`). A subscription hands the conditions of its slot on as one
expression, in which the parts under a name are joined in the order of the conditions
(`Expression.get?_ofConditions`).
-/

namespace EventFlow

/-! ### The pattern of some demands -/

namespace Pattern

variable {demands : List (Condition × Slot)}

/-- The conditions that the event of a slot has to meet: its own and the fixed ones. -/
def demanded (slot : Slot) (demands : List (Condition × Slot)) : List Condition :=
  (demands.filter fun demand => demand.2 = .fixed ∨ demand.2 = slot).map Prod.fst

def ofDemands (demands : List (Condition × Slot)) : Pattern :=
  if ∃ demand ∈ demands, demand.2 ≠ .fixed then
    .paired (demanded .first demands) (demanded .second demands) "" ""
  else if demands = [] then .undecided
  else .single (demands.map Prod.fst) ""

theorem demanded_append (slot : Slot) (demands : List (Condition × Slot)) (c : Condition)
    (s : Slot) : demanded slot (demands ++ [(c, s)]) =
      demanded slot demands ++ if s = .fixed ∨ s = slot then [c] else [] := by
  by_cases h : s = .fixed ∨ s = slot <;> simp [demanded, List.filter_append, h]

theorem demanded_of_fixed (h : ∀ demand ∈ demands, demand.2 = .fixed) (slot : Slot) :
    demanded slot demands = demands.map Prod.fst := by
  rw [demanded, List.filter_eq_self.2 fun demand hdemand => by simp [h demand hdemand]]

theorem ofDemands_of_exists (h : ∃ demand ∈ demands, demand.2 ≠ .fixed) :
    ofDemands demands = .paired (demanded .first demands) (demanded .second demands) "" "" :=
  if_pos h

theorem ofDemands_of_fixed (h : ∀ demand ∈ demands, demand.2 = .fixed) :
    ofDemands demands = if demands = [] then .undecided else .single (demands.map Prod.fst) "" :=
  if_neg fun ⟨demand, hdemand, hslot⟩ => hslot (h demand hdemand)

/-- One more condition makes the pattern of one more demand. -/
theorem add_ofDemands (demands : List (Condition × Slot)) (c : Condition) (slot : Slot) :
    (ofDemands demands).add c slot = ofDemands (demands ++ [(c, slot)]) := by
  by_cases hpaired : ∃ demand ∈ demands, demand.2 ≠ .fixed
  · have hpaired' : ∃ demand ∈ demands ++ [(c, slot)], demand.2 ≠ .fixed := by
      obtain ⟨demand, hdemand, hslot⟩ := hpaired
      exact ⟨demand, List.mem_append_left _ hdemand, hslot⟩
    rw [ofDemands_of_exists hpaired, ofDemands_of_exists hpaired', demanded_append, demanded_append]
    cases slot <;> simp [add]
  · have hfixed : ∀ demand ∈ demands, demand.2 = .fixed := by
      simpa using hpaired
    rw [ofDemands_of_fixed hfixed]
    by_cases hslot : slot = .fixed
    · subst hslot
      have hfixed' : ∀ demand ∈ demands ++ [(c, Slot.fixed)], demand.2 = .fixed :=
        List.forall_mem_append.2 ⟨hfixed, by simp⟩
      rw [ofDemands_of_fixed hfixed']
      by_cases hnil : demands = [] <;> simp [add, hnil]
    · -- The pattern changes here: what was fixed so far is carried into both events.
      have hpaired' : ∃ demand ∈ demands ++ [(c, slot)], demand.2 ≠ .fixed :=
        ⟨(c, slot), by simp, hslot⟩
      rw [ofDemands_of_exists hpaired', demanded_append, demanded_append, demanded_of_fixed hfixed,
        demanded_of_fixed hfixed]
      by_cases hnil : demands = [] <;> cases slot <;> simp_all [add]

theorem foldl_add (demands : List (Condition × Slot)) :
    demands.foldl (fun p demand => p.add demand.1 demand.2) .undecided = ofDemands demands := by
  induction demands using List.reverseRecOn with
  | nil => rfl
  | append_singleton demands demand ih =>
      rw [List.foldl_append, ih]
      exact add_ofDemands demands demand.1 demand.2

end Pattern

namespace Draft

theorem foldl_addCondition (demands : List (Condition × Slot)) (d : Draft) :
    demands.foldl (fun d demand => d.addCondition demand.1 demand.2) d =
      { d with pattern := demands.foldl (fun p demand => p.add demand.1 demand.2) d.pattern } := by
  induction demands generalizing d with
  | nil => rfl
  | cons demand demands ih => exact ih (d.addCondition demand.1 demand.2)

/-- Conditions that are added to a draft without a pattern are all kept, in order. If each of them
is fixed, the rule is on one event, which has to meet all of them. If one is for the first or the
second event, the rule is on two; each event has to meet the fixed conditions and those for itself,
whichever came first. Nothing else of the draft is changed. -/
theorem addCondition_keeps_all {d : Draft} (hd : d.pattern = .undecided)
    (demands : List (Condition × Slot)) :
    let e := demands.foldl (fun d demand => d.addCondition demand.1 demand.2) d
    e = { d with pattern := e.pattern } ∧ (∀ slot, e.pattern.idOf slot = "") ∧
    ((∀ demand ∈ demands, demand.2 = .fixed) →
      e.isPaired = false ∧ (e.pattern = .undecided ↔ demands = []) ∧
      e.pattern.conditions .fixed = demands.map Prod.fst ∧
      e.pattern.conditions .first = [] ∧ e.pattern.conditions .second = []) ∧
    ((∃ demand ∈ demands, demand.2 ≠ .fixed) →
      e.isPaired = true ∧
      e.pattern.conditions .first =
        (demands.filter fun demand => demand.2 = .fixed ∨ demand.2 = .first).map Prod.fst ∧
      e.pattern.conditions .second =
        (demands.filter fun demand => demand.2 = .fixed ∨ demand.2 = .second).map Prod.fst ∧
      e.pattern.conditions .fixed = []) := by
  intro e
  have he : e = { d with pattern := Pattern.ofDemands demands } := by
    rw [← Pattern.foldl_add, ← hd]
    exact foldl_addCondition demands d
  rw [he]
  refine ⟨rfl, fun slot => ?_, fun hfixed => ?_, fun hpaired => ?_⟩
  · change (Pattern.ofDemands demands).idOf slot = ""
    rw [Pattern.ofDemands]
    split
    · cases slot <;> rfl
    · split <;> cases slot <;> rfl
  · simp only [isPaired, Pattern.ofDemands_of_fixed hfixed]
    by_cases hnil : demands = [] <;> simp [hnil, Pattern.isPaired, Pattern.conditions]
  · simp only [isPaired, Pattern.ofDemands_of_exists hpaired]
    exact ⟨rfl, rfl, rfl, rfl⟩

/-- One fixed condition comes before the pattern is known to be on two events, one after that. -/
theorem addCondition_keeps_all_areaEntered :
    let demands : List (Condition × Slot) :=
      [(.comparison "on" .eq "true", .fixed), (.spatial .disjoint "0,0", .first),
        (.comparison "t" .gt "5", .fixed), (.spatial .coveredBy "0,0", .second)]
    let e := demands.foldl (fun d demand => d.addCondition demand.1 demand.2) ({} : Draft)
    e.isPaired = true ∧
      e.pattern.conditions .first =
        [.comparison "on" .eq "true", .spatial .disjoint "0,0", .comparison "t" .gt "5"] ∧
      e.pattern.conditions .second =
        [.comparison "on" .eq "true", .comparison "t" .gt "5", .spatial .coveredBy "0,0"] := by
  intro demands
  have hpaired : ∃ demand ∈ demands, demand.2 ≠ .fixed :=
    ⟨(.spatial .disjoint "0,0", .first), by decide, by decide⟩
  obtain ⟨-, -, -, hevents⟩ := addCondition_keeps_all (d := {}) rfl demands
  obtain ⟨hisPaired, hfirst, hsecond, -⟩ := hevents hpaired
  exact ⟨hisPaired, hfirst, hsecond⟩

end Draft

/-! ### The expression of some conditions -/

namespace Fields

variable {α : Type} {fields fields' : Fields α}

theorem get?_eq_none_iff {key : String} : get? fields key = none ↔ key ∉ names fields := by
  induction fields with
  | nil => simp [get?, names]
  | cons e rest ih =>
      by_cases h : e.1 = key
      · simp [get?, names, h]
      · simpa [get?, names, h, Ne.symm h] using ih

/-- What stands under a name, if each name stands once. -/
theorem filter_eq_toList_get? (h : (names fields).Nodup) (key : String) :
    (fields.filter (·.1 = key)).map Prod.snd = (get? fields key).toList := by
  induction fields with
  | nil => rfl
  | cons e rest ih =>
      obtain ⟨hkey, hrest⟩ := List.nodup_cons.1 h
      by_cases he : e.1 = key
      · have hnone : get? rest key = none := get?_eq_none_iff.2 (he ▸ hkey)
        simp [get?, he, ih hrest, hnone]
      · simp [get?, he, ih hrest]

/-- Fields are the same if they have the same names, each once, and the same values under them. -/
theorem eq_of_get?_eq (hnames : names fields = names fields') (hdistinct : (names fields).Nodup)
    (hget : ∀ key, get? fields key = get? fields' key) : fields = fields' := by
  induction fields generalizing fields' with
  | nil => exact (List.map_eq_nil_iff.1 hnames.symm).symm
  | cons e rest ih =>
      cases fields' with
      | nil => cases hnames
      | cons e' rest' =>
          obtain ⟨hkey, hrest⟩ : e.1 = e'.1 ∧ names rest = names rest' := List.cons.inj hnames
          obtain ⟨hnew, hdistinct⟩ := List.nodup_cons.1 hdistinct
          have hvalue : e.2 = e'.2 := by simpa [get?, hkey] using hget e'.1
          refine congrArg₂ List.cons (Prod.ext hkey hvalue) (ih hrest hdistinct fun key => ?_)
          by_cases he : e'.1 = key
          · rw [← hkey] at he
            rw [get?_eq_none_iff.2 (he ▸ hnew), get?_eq_none_iff.2 (hrest ▸ he ▸ hnew)]
          · simpa [get?, hkey, he] using hget key

end Fields

theorem Text.joinWith_cons (sep piece : String) {pieces : List String} (h : pieces ≠ []) :
    joinWith sep (piece :: pieces) = piece ++ sep ++ joinWith sep pieces := by
  have hchars : pieces.map String.toList ≠ [] := by simpa using h
  rw [joinWith, List.map_cons, join_cons _ _ hchars, String.ofList_append, String.ofList_append,
    String.ofList_toList, String.ofList_toList, joinWith]

namespace Expression

def both : Option String → Option String → Option String
  | none, b => b
  | some a, none => some a
  | some a, some b => some (a ++ "; " ++ b)

def joined (texts : List String) : Option String :=
  if texts = [] then none else some (Text.joinWith "; " texts)

@[simp] theorem both_none (a : Option String) : both a none = a := by
  cases a <;> rfl

theorem both_assoc (a b c : Option String) : both (both a b) c = both a (both b c) := by
  cases a <;> cases b <;> cases c <;> simp [both, String.append_assoc]

theorem joined_cons (text : String) (texts : List String) :
    joined (text :: texts) = both (some text) (joined texts) := by
  cases texts with
  | nil => simp [joined, Text.joinWith_singleton]
  | cons next texts =>
      rw [joined, if_neg (List.cons_ne_nil _ _), joined, if_neg (List.cons_ne_nil _ _), both,
        Text.joinWith_cons _ _ (List.cons_ne_nil _ _)]

theorem joined_toList (a : Option String) : joined a.toList = a := by
  cases a with
  | none => rfl
  | some text => simp [joined, Text.joinWith_singleton]

theorem get?_add (expression : Fields String) (part : String × String) (key : String) :
    Fields.get? (add expression part) key =
      both (Fields.get? expression key) (if part.1 = key then some part.2 else none) := by
  by_cases h : part.1 = key
  · subst h
    rw [add, if_pos rfl]
    split
    · next before hbefore => rw [Fields.get?_put_self, hbefore, both]
    · next hnone => rw [Fields.get?_put_self, hnone, both]
  · rw [add, if_neg h, both_none]
    split <;> exact Fields.get?_put_of_ne _ _ (Ne.symm h)

theorem names_add (expression : Fields String) (part : String × String) :
    Fields.names (add expression part) = Names.add (Fields.names expression) part.1 := by
  rw [add]
  split <;> exact Fields.names_put _ _ _

/-- Under each name the parts come behind what is there, in their order. -/
theorem get?_foldl_add (expression parts : Fields String) (key : String) :
    Fields.get? (parts.foldl add expression) key =
      both (Fields.get? expression key)
        (joined ((parts.filter (·.1 = key)).map Prod.snd)) := by
  induction parts generalizing expression with
  | nil => exact (both_none _).symm
  | cons part parts ih =>
      rw [List.foldl_cons, ih, get?_add, both_assoc]
      by_cases h : part.1 = key
      · simp [h, joined_cons]
      · simp [h, both]

theorem names_foldl_add (expression parts : Fields String) :
    Fields.names (parts.foldl add expression) =
      Names.addAll (Fields.names expression) (Fields.names parts) := by
  induction parts generalizing expression with
  | nil => rfl
  | cons part parts ih =>
      rw [List.foldl_cons, ih, names_add]
      rfl

theorem nodup_names_foldl_add (expression parts : Fields String)
    (h : (Fields.names expression).Nodup) :
    (Fields.names (parts.foldl add expression)).Nodup := by
  rw [names_foldl_add]
  exact Names.nodup_addAll _ h

/-- Parts may be put together before they are added. -/
theorem foldl_add_foldl_add {expression : Fields String} (h : (Fields.names expression).Nodup)
    (parts : Fields String) :
    (parts.foldl add []).foldl add expression = parts.foldl add expression := by
  have hparts : (Fields.names (parts.foldl add [])).Nodup :=
    nodup_names_foldl_add [] parts List.nodup_nil
  refine Fields.eq_of_get?_eq ?_ (nodup_names_foldl_add _ _ h) fun key => ?_
  · rw [names_foldl_add, names_foldl_add, names_foldl_add, Names.addAll_addAll]
    rfl
  · rw [get?_foldl_add, get?_foldl_add, Fields.filter_eq_toList_get? hparts, joined_toList,
      get?_foldl_add]
    rfl

theorem nodup_names_expression (c : Condition) : (Fields.names c.expression).Nodup := by
  cases c with
  | comparison property operator value => simp [Condition.expression, Fields.names]
  | spatial relation coords => simp [Condition.expression, Fields.names]

/-- Each name has what the conditions say under it, in their order. -/
theorem get?_ofConditions (conditions : List Condition) (key : String) :
    Fields.get? (ofConditions conditions) key =
      joined (conditions.filterMap fun c => Fields.get? c.expression key) := by
  have hparts : ((conditions.flatMap Condition.expression).filter (·.1 = key)).map Prod.snd =
      conditions.filterMap fun c => Fields.get? c.expression key := by
    rw [List.filter_flatMap, List.map_flatMap, List.filterMap_eq_flatMap_toList]
    congr 1
    funext c
    exact Fields.filter_eq_toList_get? (nodup_names_expression c) key
  rw [ofConditions, get?_foldl_add, hparts]
  rfl

theorem ofConditions_append (conditions more : List Condition) :
    ofConditions (conditions ++ more) =
      (ofConditions more).foldl add (ofConditions conditions) := by
  have hdistinct : (Fields.names (ofConditions conditions)).Nodup :=
    nodup_names_foldl_add [] _ List.nodup_nil
  rw [ofConditions, List.flatMap_append, List.foldl_append]
  exact (foldl_add_foldl_add hdistinct _).symm

end Expression

/-- How an operator is written between a property and a value. -/
def Operator.sign : Operator → String
  | .eq => "=="
  | .neq => "!="
  | .lt => "<"
  | .lte => "<="
  | .gt => ">"
  | .gte => ">="
  | .contains => "~="
  | .between | .otherwise => "None"

namespace Condition

def query? : Condition → Option String
  | .comparison property operator value => some (property ++ " " ++ operator.sign ++ " " ++ value)
  | .spatial .. => none

def area? : Condition → Option (String × String)
  | .comparison .. => none
  | .spatial .near coords => some ("near", coords)
  | .spatial .coveredBy coords => some ("coveredBy", coords)
  | .spatial .intersects coords => some ("intersects", coords)
  | .spatial .equals coords => some ("equals", coords)
  | .spatial .disjoint coords => some ("disjoint", coords)

theorem get?_expression_query (c : Condition) : Fields.get? c.expression "q" = c.query? := by
  cases c with
  | comparison property operator value => cases operator <;> rfl
  | spatial relation coords => rfl

end Condition

namespace Expression

/-- What the expression of a request has to say for some conditions: the queries of the comparisons,
and what the spatial ones relate to, each under its name and in order. -/
structure Says (expression : Fields Value) (conditions : List Condition) : Prop where
  queries : Fields.get? expression "q" =
    (joined (conditions.filterMap Condition.query?)).map .text
  relations : Fields.get? expression "georel" =
    (joined ((conditions.filterMap Condition.area?).map Prod.fst)).map .text
  geometries : Fields.get? expression "geometry" =
    (joined ((conditions.filterMap Condition.area?).map fun _ => "polygon")).map .text
  coords : Fields.get? expression "coords" =
    (joined ((conditions.filterMap Condition.area?).map Prod.snd)).map .text
  nothingElse : ∀ key ∈ Fields.names expression, key ∈ ["q", "georel", "geometry", "coords"]
  once : (Fields.names expression).Nodup

theorem get?_texts (conditions : List Condition) (key : String) :
    Fields.get? (Fields.map Value.text (ofConditions conditions)) key =
      (joined (conditions.filterMap fun c => Fields.get? c.expression key)).map Value.text := by
  rw [Fields.get?_map, get?_ofConditions]

theorem get?_texts_area {key : String} {f : String × String → String}
    (hspatial : ∀ (relation : Relation) (coords : String),
      Fields.get? (Condition.spatial relation coords).expression key =
        some (f (relation.tag, coords)))
    (hcomparison : ∀ property operator value,
      Fields.get? (Condition.comparison property operator value).expression key = none)
    (conditions : List Condition) :
    Fields.get? (Fields.map Value.text (ofConditions conditions)) key =
      (joined ((conditions.filterMap Condition.area?).map f)).map Value.text := by
  have harea (c : Condition) : Fields.get? c.expression key = c.area?.map f := by
    cases c with
    | comparison property operator value => exact hcomparison property operator value
    | spatial relation coords =>
        rw [hspatial]
        cases relation <;> rfl
  simp only [get?_texts, harea, List.map_filterMap]

theorem says_ofConditions (conditions : List Condition) :
    Says (Fields.map .text (ofConditions conditions)) conditions where
  queries := by simp only [get?_texts, Condition.get?_expression_query]
  relations := get?_texts_area (fun _ _ => rfl) (fun _ _ _ => rfl) conditions
  geometries := get?_texts_area (fun _ _ => rfl) (fun _ _ _ => rfl) conditions
  coords := get?_texts_area (fun _ _ => rfl) (fun _ _ _ => rfl) conditions
  nothingElse := by
    intro key hkey
    rw [Fields.names_map] at hkey
    by_contra hother
    have hnone (c : Condition) : Fields.get? c.expression key = none := by
      refine Fields.get?_eq_none_iff.2 fun hmem => hother ?_
      cases c <;> simp_all [Condition.expression, Fields.names]
    refine Fields.get?_eq_none_iff.1 ?_ hkey
    rw [get?_ofConditions, List.filterMap_eq_nil_iff.2 fun c _ => hnone c]
    rfl
  once := by
    rw [Fields.names_map]
    exact nodup_names_foldl_add [] _ List.nodup_nil

end Expression

/-! ### The requests of some drafts -/

/-- A subscription carries the conditions of a slot: the body of the request has a condition if
there are any, on the attributes that the draft watches. -/
structure Subscription.Carries (s : Subscription) (d : Draft) (conditions : List Condition) :
    Prop where
  absent : s.condition? = none ↔ conditions = []
  present : conditions ≠ [] → ∃ expression, Expression.Says expression conditions ∧
    s.condition? = some (.object [("attrs", .list (d.device.attributes.map .text)),
      ("expression", .object expression)])

theorem Subscription.carries_ofConditions (d : Draft) (conditions : List Condition) (slot : Slot) :
    (ofConditions d conditions slot).Carries d conditions := by
  have hpresent (h : conditions ≠ []) := condition?_ofConditions d h slot
  refine ⟨⟨fun hnone => ?_, fun hnil => ?_⟩, fun h => ?_⟩
  · by_contra h
    rw [hpresent h] at hnone
    cases hnone
  · rw [hnil]
    rfl
  · exact ⟨_, Expression.says_ofConditions conditions, hpresent h⟩

namespace Request

theorem subscription_of_mem_ofDraft {d : Draft} {index : Nat} {q : Request}
    (h : q ∈ ofDraft d index) :
    q.subscription = .ofConditions d (d.pattern.conditions q.slot) q.slot := by
  rw [ofDraft] at h
  cases hpattern : d.pattern with
  | paired fs ss fid sid =>
      rw [hpattern] at h
      obtain rfl | rfl : q = _ ∨ q = _ := by simpa using h
      · rfl
      · rfl
  | _ =>
      rw [hpattern] at h
      obtain rfl := List.mem_singleton.1 h
      rfl

theorem exists_draft_of_mem_ofDrafts {drafts : List Draft} {q : Request}
    (h : q ∈ ofDrafts drafts) : ∃ d, drafts[q.draft]? = some d ∧
      q.subscription = .ofConditions d (d.pattern.conditions q.slot) q.slot := by
  obtain ⟨⟨d, i⟩, hmem, hq⟩ := List.mem_flatMap.1 h
  refine ⟨d, ?_, subscription_of_mem_ofDraft hq⟩
  rw [draft_of_mem_ofDraft hq]
  exact List.mem_zipIdx_iff_getElem?.1 hmem

/-- Draft by draft there is one request for a rule on one event, and for a rule on two events one
for the first and one for the second, each with the place of its draft. A request carries the
conditions of its slot and no others. The expression of more conditions is found from the two
expressions, by adding the parts of the second to the first. -/
theorem ofDrafts_carry_conditions (drafts : List Draft) :
    (ofDrafts drafts).map place = (drafts.zipIdx.flatMap fun p =>
      if p.1.isPaired then [(p.2, .first), (p.2, .second)] else [(p.2, .fixed)]) ∧
    (∀ q ∈ ofDrafts drafts, ∃ d, drafts[q.draft]? = some d ∧ q.subscription.slot = q.slot ∧
      q.subscription.Carries d (d.pattern.conditions q.slot)) ∧
    ∀ conditions more, Expression.ofConditions (conditions ++ more) =
      (Expression.ofConditions more).foldl Expression.add (Expression.ofConditions conditions) := by
  refine ⟨?_, fun q hq => ?_, Expression.ofConditions_append⟩
  · rw [map_place_ofDrafts]
    congr 1
    funext ⟨d, i⟩
    change d.pattern.slots.map _ = _
    rw [Pattern.slots, Draft.isPaired]
    split <;> rfl
  · obtain ⟨d, hd, hsubscription⟩ := exists_draft_of_mem_ofDrafts hq
    rw [hsubscription]
    exact ⟨d, hd, rfl, Subscription.carries_ofConditions d _ _⟩

/-- The first event has to meet two comparisons and to be in an area, the second one may be any. -/
def mildInArea : Draft where
  pattern := .paired
    [.comparison "t" .gte "5", .spatial .coveredBy "1,2;3,4;1,2", .comparison "on" .eq "true"] []
    "" ""
  device := { type := "Sensor", id := "s1", attributes := ["t", "on"] }

theorem ofDrafts_carry_conditions_mildInArea :
    (ofDrafts [{}, mildInArea]).map (fun q => (q.draft, q.slot, q.subscription.payload)) =
      [(0, .fixed, .object [
          ("description", .text "Subscription for "),
          ("subject", .object [
            ("entities", .list [.object [("type", .text ""), ("id", .text "")]])]),
          ("notification", .object [("http", .object [("url", .text "")])])]),
        (1, .first, .object [
          ("description", .text "Subscription for s1"),
          ("subject", .object [
            ("entities", .list [.object [("type", .text "Sensor"), ("id", .text "s1")]]),
            ("condition", .object [
              ("attrs", .list [.text "t", .text "on"]),
              ("expression", .object [
                ("q", .text "t >= 5; on == true"), ("georel", .text "coveredBy"),
                ("geometry", .text "polygon"), ("coords", .text "1,2;3,4;1,2")])])]),
          ("notification", .object [("http", .object [("url", .text "")])])]),
        (1, .second, .object [
          ("description", .text "Subscription for s1"),
          ("subject", .object [
            ("entities", .list [.object [("type", .text "Sensor"), ("id", .text "s1")]])]),
          ("notification", .object [("http", .object [("url", .text "")])])])] ∧
    ∀ q ∈ ofDrafts [{}, mildInArea], ∃ d, [{}, mildInArea][q.draft]? = some d ∧
      q.subscription.slot = q.slot ∧ q.subscription.Carries d (d.pattern.conditions q.slot) :=
  ⟨by with_unfolding_all rfl, (ofDrafts_carry_conditions [{}, mildInArea]).2.1⟩

end Request

end EventFlow
