import EventFlow.Proofs.Pairing
import Mathlib.Data.Int.Order.Basic
import Mathlib.Order.Lattice

/-!
The otherwise rule of a switch.

Literals mean nothing to a flow, so all that is said here holds for any meaning of them in a linear
order (`Reading`). A comparison and its opposite then share the values among them
(`Operator.holds_negated?`), so a way out by the otherwise rule is open exactly where no comparison
holds. A range is different: its two bounds are demanded together, which excludes the range but
also nearly everything else, so a value that no rule takes can be left without a way out.
-/

namespace EventFlow

/-! ### Meanings -/

/-- What attributes and literals stand for, and what is known of texts and places. -/
structure Reading (α : Type*) where
  observed : String → α
  literal : String → α
  contains : α → α → Prop
  isAt : Relation → String → Prop

section Meaning

variable {α : Type*} [LinearOrder α]

/-- Whether a value compares with another one. A range and the otherwise rule are no comparisons. -/
def Operator.Holds (contains : α → α → Prop) (x y : α) : Operator → Prop
  | .eq => x = y
  | .neq => x ≠ y
  | .lt => x < y
  | .lte => x ≤ y
  | .gt => y < x
  | .gte => y ≤ x
  | .contains => contains x y
  | .between | .otherwise => False

/-- The opposite holds exactly where a comparison does not. -/
theorem Operator.holds_negated? {contains : α → α → Prop} {operator negated : Operator}
    (h : operator.negated? = some negated) (x y : α) :
    negated.Holds contains x y ↔ ¬ operator.Holds contains x y := by
  cases operator <;> cases h <;> simp [Holds]

def Condition.Holds (r : Reading α) : Condition → Prop
  | .comparison property operator literal =>
    operator.Holds r.contains (r.observed property) (r.literal literal)
  | .spatial relation coords => r.isAt relation coords

/-- Whether a condition that equates an attribute with a range holds, both bounds included. -/
def Condition.HoldsInRange (r : Reading α) (lower upper : String) (c : Condition) : Prop :=
  ∃ property, c = .comparison property .eq (lower ++ ".." ++ upper) ∧
    r.literal lower ≤ r.observed property ∧ r.observed property ≤ r.literal upper

end Meaning

/-- Only truth values are displayed otherwise than they are written in a query. -/
theorem Value.display_eq_queryText {v : Value} (h : ∀ b, v ≠ .bool b) :
    v.display = v.queryText := by
  cases v with
  | bool b => exact absurd rfl (h b)
  | null => rfl
  | number n => rfl
  | text s => rfl
  | list items => rfl
  | object fields => rfl

/-! ### The rules of a switch -/

namespace Branch

def IsOrdering (rule : Branch) : Prop :=
  ∃ operator ∈ [Operator.eq, .neq, .lt, .lte, .gt, .gte], Operator.ofTag? rule.tag = some operator

def IsRange (rule : Branch) : Prop :=
  Operator.ofTag? rule.tag = some .between

def IsOtherwise (rule : Branch) : Prop :=
  Operator.ofTag? rule.tag = some .otherwise

instance (rule : Branch) : Decidable rule.IsOrdering :=
  inferInstanceAs (Decidable (∃ operator ∈ _, _))

instance (rule : Branch) : Decidable rule.IsRange :=
  inferInstanceAs (Decidable (_ = _))

instance (rule : Branch) : Decidable rule.IsOtherwise :=
  inferInstanceAs (Decidable (_ = _))

def tests (rules : List Branch) (rule : Branch) : List (Operator × Value) :=
  match Operator.ofTag? rule.tag with
  | none => []
  | some .between => [(.eq, rule.range)]
  | some .otherwise => rules.flatMap negations
  | some operator => [(operator, rule.value)]

theorem demands_steps (property : String) (rules : List Branch) (rule : Branch) :
    ((rule.steps property rules).filterMap Step.demand?).map Prod.fst =
      (rule.tests rules).map (Condition.compared property) := by
  have hdemands (tests : List (Operator × Value)) :
      ((tests.map fun test => Step.require (Condition.compared property test) .fixed).filterMap
        Step.demand?).map Prod.fst = tests.map (Condition.compared property) := by
    simp [List.filterMap_map, Function.comp_def, Step.demand?]
  rw [steps, tests]
  cases ho : Operator.ofTag? rule.tag with
  | none => rfl
  | some operator =>
      cases operator with
      | otherwise =>
          simp only [List.filterMap_append, List.map_append]
          rw [← List.map_flatMap, hdemands]
          split <;> simp [Step.demand?]
      | _ => exact hdemands [_]

theorem IsOrdering.exists_operator {rule : Branch} (h : rule.IsOrdering) :
    ∃ operator negated, operator.negated? = some negated ∧
      rule.negations = [(negated, rule.value)] ∧
      ∀ rules, rule.tests rules = [(operator, rule.value)] := by
  obtain ⟨operator, hmem, ho⟩ := h
  refine ⟨operator, ?_⟩
  simp only [List.mem_cons, List.not_mem_nil, or_false] at hmem
  rcases hmem with rfl | rfl | rfl | rfl | rfl | rfl <;>
    exact ⟨_, rfl, by simp [negations, ho, Operator.negated?], by simp [tests, ho]⟩

theorem IsRange.negations_eq {rule : Branch} (h : rule.IsRange) :
    rule.negations = [(.lt, rule.value), (.gte, rule.upper)] := by
  rw [IsRange] at h
  simp [negations, h]

theorem IsRange.tests_eq {rule : Branch} (h : rule.IsRange) (rules : List Branch) :
    rule.tests rules = [(.eq, rule.range)] := by
  rw [IsRange] at h
  simp [tests, h]

theorem IsOtherwise.tests_eq {rule : Branch} (h : rule.IsOtherwise) (rules : List Branch) :
    rule.tests rules = rules.flatMap negations := by
  rw [IsOtherwise] at h
  simp [tests, h]

theorem IsOtherwise.isPassable_eq {rule : Branch} (h : rule.IsOtherwise) (rules : List Branch) :
    rule.isPassable rules = rules.all isNegatable := by
  rw [IsOtherwise] at h
  simp [isPassable, h]

theorem IsOtherwise.written_eq {rule : Branch} (h : rule.IsOtherwise) (rules : List Branch) :
    rule.written rules = rules.flatMap fun sibling => sibling.negations.map Prod.snd := by
  rw [IsOtherwise] at h
  simp [written, h]

theorem IsOtherwise.negations_eq {rule : Branch} (h : rule.IsOtherwise) : rule.negations = [] := by
  rw [IsOtherwise] at h
  simp [negations, h, Operator.negated?]

theorem IsOtherwise.not_isRange {rule : Branch} (h : rule.IsOtherwise) : ¬ rule.IsRange := by
  rw [IsOtherwise] at h
  simp [IsRange, h]

theorem IsOrdering.not_isOtherwise {rule : Branch} (h : rule.IsOrdering) : ¬ rule.IsOtherwise := by
  obtain ⟨operator, hmem, ho⟩ := h
  rw [IsOtherwise, ho]
  rintro ⟨⟩
  simp at hmem

theorem IsOrdering.not_isRange {rule : Branch} (h : rule.IsOrdering) : ¬ rule.IsRange := by
  obtain ⟨operator, hmem, ho⟩ := h
  rw [IsRange, ho]
  rintro ⟨⟩
  simp at hmem

/-- A way out and its negation need the same values. -/
theorem isPassable_of_compares {rule : Branch} (h : rule.IsOrdering ∨ rule.IsRange)
    (rules : List Branch) :
    rule.isPassable rules = rule.isNegatable ∧
      rule.written rules = rule.negations.map Prod.snd := by
  obtain ⟨operator, hmem, ho⟩ | h := h
  · simp only [List.mem_cons, List.not_mem_nil, or_false] at hmem
    rcases hmem with rfl | rfl | rfl | rfl | rfl | rfl <;>
      simp [isPassable, isNegatable, written, negations, ho, Operator.negated?]
  · rw [IsRange] at h
    simp [isPassable, isNegatable, written, negations, h]

def isExplicit (rule : Branch) : Bool :=
  (Operator.ofTag? rule.tag).any (· ≠ .otherwise)

theorem negations_of_not_isExplicit {rule : Branch} (h : rule.isExplicit = false) :
    rule.negations = [] := by
  rw [negations]
  cases ho : Operator.ofTag? rule.tag with
  | none => rfl
  | some operator =>
      obtain rfl : operator = .otherwise := by simpa [isExplicit, ho] using h
      rfl

theorem flatMap_negations_filter (rules : List Branch) :
    (rules.filter isExplicit).flatMap negations = rules.flatMap negations := by
  induction rules with
  | nil => rfl
  | cons rule rules ih =>
      cases h : rule.isExplicit with
      | false =>
          rw [List.filter_cons_of_neg (by simp [h]), List.flatMap_cons, ih,
            negations_of_not_isExplicit h, List.nil_append]
      | true => rw [List.filter_cons_of_pos h, List.flatMap_cons, List.flatMap_cons, ih]

section Admits

variable {α : Type*} [LinearOrder α]

/-- Whether the conditions of the way out by a rule hold, those of a range rule as a range. -/
def Admits (r : Reading α) (rule : Branch) (conditions : List Condition) : Prop :=
  if rule.IsRange then
    ∀ c ∈ conditions, c.HoldsInRange r rule.value.display rule.upper.display
  else ∀ c ∈ conditions, c.Holds r

/-- Whether the negations of a rule hold. -/
def Refutes (r : Reading α) (property : String) (rule : Branch) : Prop :=
  ∀ test ∈ rule.negations, (Condition.compared property test).Holds r

variable (r : Reading α) (property : String) (rules : List Branch) {rule : Branch}

/-- A comparison either holds or is refuted. -/
theorem IsOrdering.refutes_iff (h : rule.IsOrdering) :
    rule.Refutes r property ↔
      ¬ rule.Admits r ((rule.tests rules).map (Condition.compared property)) := by
  obtain ⟨operator, negated, hnegated, hnegations, htests⟩ := h.exists_operator
  rw [Refutes, Admits, if_neg h.not_isRange, hnegations, htests, List.forall_mem_singleton,
    List.map_singleton, List.forall_mem_singleton]
  exact Operator.holds_negated? hnegated _ _

theorem IsRange.refutes_iff (h : rule.IsRange) :
    rule.Refutes r property ↔
      r.observed (Condition.attributeOf property) < r.literal rule.value.queryText ∧
      r.literal rule.upper.queryText ≤ r.observed (Condition.attributeOf property) := by
  rw [Refutes, h.negations_eq, List.forall_mem_cons, List.forall_mem_singleton]
  rfl

theorem IsRange.admits_iff (h : rule.IsRange) :
    rule.Admits r ((rule.tests rules).map (Condition.compared property)) ↔
      r.literal rule.value.display ≤ r.observed (Condition.attributeOf property) ∧
      r.observed (Condition.attributeOf property) ≤ r.literal rule.upper.display := by
  rw [Admits, if_pos h, h.tests_eq, List.map_singleton, List.forall_mem_singleton]
  constructor
  · rintro ⟨name, hc, hlower, hupper⟩
    cases hc
    exact ⟨hlower, hupper⟩
  · rintro ⟨hlower, hupper⟩
    exact ⟨_, rfl, hlower, hupper⟩

theorem IsOtherwise.refutes (h : rule.IsOtherwise) : rule.Refutes r property := by
  rw [Refutes, h.negations_eq]
  exact fun _ htest => by cases htest

theorem holds_negations_iff :
    (∀ c ∈ (rules.flatMap negations).map (Condition.compared property), c.Holds r) ↔
      ∀ sibling ∈ rules, sibling.Refutes r property := by
  simp only [List.forall_mem_map, List.mem_flatMap, Refutes]
  constructor
  · intro h sibling hsibling test htest
    exact h test ⟨sibling, hsibling, htest⟩
  · rintro h test ⟨sibling, hsibling, htest⟩
    exact h sibling hsibling test htest

end Admits

end Branch

/-! ### Ways out -/

theorem Run.exists_ok_of_mapM {ε α β : Type} {f : α → Except ε β} {xs : List α} {ys : List β}
    (h : xs.mapM f = .ok ys) : ∀ x ∈ xs, ∃ y, f x = .ok y := by
  induction mapM_eq_ok_iff.1 h with
  | nil => exact fun _ hx => by cases hx
  | cons hx hrest ih =>
      exact List.forall_mem_cons.2 ⟨⟨_, hx⟩, ih (mapM_eq_ok_iff.2 hrest)⟩

namespace Condition

theorem ofComparison_eq {property : String} {test : Operator × Value}
    (h : isComplete test = true) :
    ofComparison (some property) test.1 (.literal test.2) =
      if test.2.isWritable then .ok (.ok (compared property test)) else .error .overlong := by
  obtain ⟨operator, v⟩ := test
  simp only [isComplete, Bool.and_eq_true, Bool.not_eq_true'] at h
  obtain ⟨sign, hsign⟩ := Option.isSome_iff_exists.1 h.1
  simp only [ofComparison, hsign, Operand.isNull, h.2, Bool.false_eq_true, if_false,
    Value.queryText?_eq]
  split <;> rfl

/-- Only values that can be written are compared with. -/
theorem isWritable_of_ofComparisons {property : String} {tests : List (Operator × Value)}
    (hcomplete : tests.all isComplete = true) {answer : Except Refusal (List Condition)}
    (h : ofComparisons property tests = .ok answer) :
    ∀ test ∈ tests, test.2.isWritable = true := by
  induction tests generalizing answer with
  | nil => exact fun _ htest => by cases htest
  | cons test rest ih =>
      obtain ⟨htest, hrest⟩ := Bool.and_eq_true_iff.1 hcomplete
      rw [ofComparisons, ofComparison_eq htest] at h
      by_cases hwritable : test.2.isWritable = true
      · rw [if_pos hwritable] at h
        cases hr : ofComparisons property rest with
        | error e =>
            rw [hr] at h
            cases h
        | ok answers => exact List.forall_mem_cons.2 ⟨hwritable, ih hrest hr⟩
      · rw [if_neg hwritable] at h
        cases h

end Condition

namespace Exit

/-- The conditions that leaving a switch by a rule adds to a draft, if there is a way out by it. -/
def conditions? (node property : String) (rules : List Branch) (rule : Branch) :
    Except Failure (Option (List Condition)) :=
  (ofRule node property rules rule).outcome.map
    (Option.map fun steps => (steps.filterMap Step.demand?).map Prod.fst)

variable {node property : String} {rules : List Branch} {rule : Branch}

theorem delivers_conditions? (node property : String) (rules : List Branch) (rule : Branch) :
    Delivers (∀ v ∈ rule.written rules, v.isWritable = true) (conditions? node property rules rule)
      (· = if rule.isPassable rules then
        some ((rule.tests rules).map (Condition.compared property)) else none) := by
  rw [conditions?]
  obtain ⟨steps, hsteps, rfl⟩ | ⟨herror, hlong⟩ := delivers_written node property rules rule
  · rw [hsteps]
    refine .ok ?_
    split
    · rw [Option.map_some, Branch.demands_steps]
    · rfl
  · rw [herror]
    exact .inr ⟨rfl, hlong⟩

theorem conditions?_eq (hpassable : rule.isPassable rules = true)
    (hwritable : ∀ v ∈ rule.written rules, v.isWritable = true) :
    conditions? node property rules rule =
      .ok (some ((rule.tests rules).map (Condition.compared property))) := by
  obtain ⟨conditions, hconditions, rfl⟩ :=
    (delivers_conditions? node property rules rule).exists_ok hwritable
  rwa [if_pos hpassable] at hconditions

theorem isWritable_of_otherwise (ho : rule.IsOtherwise)
    (hneeded : ∀ sibling ∈ rules, sibling.isNegatable = true)
    {conditions : Option (List Condition)}
    (h : conditions? node property rules rule = .ok conditions) :
    ∀ sibling ∈ rules, ∀ test ∈ sibling.negations, test.2.isWritable = true := by
  obtain ⟨steps, hsteps⟩ : ∃ steps, (ofRule node property rules rule).outcome = .ok steps := by
    rw [conditions?] at h
    cases hoc : (ofRule node property rules rule).outcome with
    | error e =>
        rw [hoc] at h
        cases h
    | ok steps => exact ⟨steps, rfl⟩
  rw [Branch.IsOtherwise] at ho
  simp only [ofRule, ho] at hsteps
  obtain ⟨outcomes, houtcomes, -⟩ := Run.exists_of_outcome_bind hsteps
  rw [Run.outcome_each] at houtcomes
  intro sibling hsibling
  obtain ⟨outcome, houtcome⟩ := Run.exists_ok_of_mapM houtcomes sibling hsibling
  obtain ⟨answer, hanswer, -⟩ := Run.exists_of_outcome_bind houtcome
  have hcomplete := (Branch.all_isComplete_negations sibling).trans (hneeded sibling hsibling)
  exact Condition.isWritable_of_ofComparisons hcomplete hanswer

/-- A switch that has a way out by an otherwise rule has one by each rule that compares. -/
theorem delivers_otherwise (node property : String) {other : Branch} (hother : other ∈ rules)
    (ho : other.IsOtherwise) (hneeded : ∀ rule ∈ rules, rule.isNegatable = true) :
    Delivers (∀ rule ∈ rules, rule.isWritable = true) (conditions? node property rules other)
      fun conditions =>
        conditions = some ((rules.flatMap Branch.negations).map (Condition.compared property)) ∧
        conditions? node property (rules.filter Branch.isExplicit) other = .ok conditions ∧
        ∀ rule ∈ rules, rule.IsOtherwise ∨ rule.IsOrdering ∨ rule.IsRange →
          conditions? node property rules rule =
            .ok (some ((rule.tests rules).map (Condition.compared property))) := by
  obtain ⟨conditions, hconditions, rfl⟩ | ⟨herror, hlong⟩ :=
    delivers_conditions? node property rules other
  · have hwritable := isWritable_of_otherwise ho hneeded hconditions
    have hpassable {rules' : List Branch} (hsub : rules' ⊆ rules) {rule : Branch}
        (h : rule.IsOtherwise) : conditions? node property rules' rule =
          .ok (some ((rules'.flatMap Branch.negations).map (Condition.compared property))) := by
      rw [← h.tests_eq]
      refine conditions?_eq ?_ ?_
      · rw [h.isPassable_eq, List.all_eq_true]
        exact fun sibling hsibling => hneeded sibling (hsub hsibling)
      · rw [h.written_eq]
        intro v hv
        simp only [List.mem_flatMap, List.mem_map] at hv
        obtain ⟨sibling, hsibling, test, htest, rfl⟩ := hv
        exact hwritable sibling (hsub hsibling) test htest
    refine .inl ⟨_, hpassable (List.Subset.refl rules) ho, rfl, ?_, ?_⟩
    · rw [hpassable (List.filter_subset_self rules) ho, Branch.flatMap_negations_filter]
    · rintro rule hrule (h | h)
      · rw [h.tests_eq]
        exact hpassable (List.Subset.refl rules) h
      · obtain ⟨hpass, hwritten⟩ := Branch.isPassable_of_compares h rules
        refine conditions?_eq (hpass.trans (hneeded rule hrule)) ?_
        rw [hwritten, List.forall_mem_map]
        exact hwritable rule hrule
  · exact .inr ⟨herror, fun h => hlong (Branch.isWritable_of_mem_written hother h)⟩

end Exit

namespace Exit

variable {α : Type*} [LinearOrder α] (r : Reading α) {node property : String} {rules : List Branch}
  {rule : Branch}

/-- Whether an event leaves a switch by a rule. -/
def Lets (r : Reading α) (node property : String) (rules : List Branch) (rule : Branch) : Prop :=
  ∃ conditions, conditions? node property rules rule = .ok (some conditions) ∧
    rule.Admits r conditions

theorem lets_iff {conditions : List Condition}
    (h : conditions? node property rules rule = .ok (some conditions)) :
    Lets r node property rules rule ↔ rule.Admits r conditions := by
  constructor
  · rintro ⟨others, hothers, hadmits⟩
    cases h.symm.trans hothers
    exact hadmits
  · exact fun hadmits => ⟨conditions, h, hadmits⟩

variable (hopen : conditions? node property rules rule =
  .ok (some ((rule.tests rules).map (Condition.compared property))))

include hopen

theorem lets_ordering_iff (h : rule.IsOrdering) :
    Lets r node property rules rule ↔ ¬ rule.Refutes r property := by
  rw [lets_iff r hopen, h.refutes_iff r property rules, not_not]

theorem lets_otherwise_iff (h : rule.IsOtherwise) :
    Lets r node property rules rule ↔ ∀ sibling ∈ rules, sibling.Refutes r property := by
  rw [lets_iff r hopen, Branch.Admits, if_neg h.not_isRange, h.tests_eq,
    Branch.holds_negations_iff]

theorem lets_range_iff (h : rule.IsRange) :
    Lets r node property rules rule ↔
      r.literal rule.value.display ≤ r.observed (Condition.attributeOf property) ∧
      r.observed (Condition.attributeOf property) ≤ r.literal rule.upper.display := by
  rw [lets_iff r hopen, h.admits_iff]

end Exit

/-! ### What the otherwise rule takes -/

namespace Branch

open Exit (conditions? Lets)

variable {α : Type*} [LinearOrder α]

/-- The way out by an otherwise rule is open exactly where no rule holds, if all others compare by
equality or order, and never where such a rule or a range holds. Only rules with an operator of
their own take part in it. -/
theorem otherwise_complements (r : Reading α) (node property : String) {rules : List Branch}
    (hneeded : ∀ rule ∈ rules, rule.isNegatable = true)
    (hbounds : ∀ rule ∈ rules, rule.IsRange →
      (∀ b, rule.value ≠ .bool b) ∧ ∀ b, rule.upper ≠ .bool b)
    {other : Branch} (hother : other ∈ rules) (ho : other.IsOtherwise) :
    Delivers (∀ rule ∈ rules, rule.isWritable = true) (conditions? node property rules other)
      fun demanded => ∃ conditions, demanded = some conditions ∧
        (∀ rule ∈ rules, rule.IsOrdering ∨ rule.IsRange →
          ∃ own, conditions? node property rules rule = .ok (some own)) ∧
        ((∀ rule ∈ rules, rule.IsOtherwise ∨ rule.IsOrdering) →
          ((∀ c ∈ conditions, c.Holds r) ↔
            ∀ rule ∈ rules, ¬ rule.IsOtherwise → ¬ Lets r node property rules rule)) ∧
        ((∀ c ∈ conditions, c.Holds r) →
          ∀ rule ∈ rules, rule.IsOrdering ∨ rule.IsRange → ¬ Lets r node property rules rule) ∧
        conditions? node property (rules.filter isExplicit) other = .ok (some conditions) := by
  refine (Exit.delivers_otherwise node property hother ho hneeded).mono id ?_
  rintro _ ⟨rfl, hexplicit, hopen⟩
  have hordering {rule : Branch} (hrule : rule ∈ rules) (h : rule.IsOrdering) :=
    Exit.lets_ordering_iff r (hopen rule hrule (.inr (.inl h))) h
  refine ⟨_, rfl, fun rule hrule h => ⟨_, hopen rule hrule (.inr h)⟩, fun hall => ?_, ?_, hexplicit⟩
  · rw [holds_negations_iff]
    constructor
    · intro hrefutes rule hrule hnot
      rw [hordering hrule ((hall rule hrule).resolve_left hnot), not_not]
      exact hrefutes rule hrule
    · intro hnone rule hrule
      obtain h | h := hall rule hrule
      · exact h.refutes r property
      · have hlets := hnone rule hrule h.not_isOtherwise
        rwa [hordering hrule h, not_not] at hlets
  · rw [holds_negations_iff]
    rintro hrefutes rule hrule (h | h)
    · rw [hordering hrule h, not_not]
      exact hrefutes rule hrule
    · rw [Exit.lets_range_iff r (hopen rule hrule (.inr (.inr h))) h]
      rintro ⟨hlower, -⟩
      have hbelow := ((h.refutes_iff r property).1 (hrefutes rule hrule)).1
      rw [← Value.display_eq_queryText (hbounds rule hrule h).1] at hbelow
      exact absurd hlower (not_le_of_gt hbelow)

/-- Numerals stand for whole numbers, and every attribute has the same value. -/
def atInteger (x : Int) : Reading Int where
  observed _ := x
  literal s := (Numeral.integer? s).getD 0
  contains _ _ := False
  isAt _ _ := False

def levelRules : List Branch :=
  [{ tag := "else" }, { tag := "eq", value := .text "2" }, { tag := "lt", value := .text "0" },
    { tag := "gte", value := .text "5" }]

def levelConditions : List Condition :=
  [.comparison "t" .neq "2", .comparison "t" .gte "0", .comparison "t" .lt "5"]

/-- A rule that is not known would make no difference. -/
theorem otherwise_complements_levelRules :
    (∀ rule ∈ levelRules, rule.isNegatable = true) ∧
    (∀ rule ∈ levelRules, rule.IsOtherwise ∨ rule.IsOrdering) ∧
    conditions? "w" "payload.t" levelRules { tag := "else" } = .ok (some levelConditions) ∧
    conditions? "w" "payload.t" ({ tag := "rises" } :: levelRules) { tag := "else" } =
      .ok (some levelConditions) ∧
    (∀ rule ∈ levelRules, ¬ rule.IsOtherwise →
      ¬ Lets (atInteger 3) "w" "payload.t" levelRules rule) ∧
    ∃ rule ∈ levelRules, ¬ rule.IsOtherwise ∧
      Lets (atInteger 2) "w" "payload.t" levelRules rule := by
  have hneeded : ∀ rule ∈ levelRules, rule.isNegatable = true := by decide
  have hbounds : ∀ rule ∈ levelRules, rule.IsRange →
      (∀ b, rule.value ≠ .bool b) ∧ ∀ b, rule.upper ≠ .bool b := by
    intro rule hrule h
    simp only [levelRules, List.mem_cons, List.not_mem_nil, or_false] at hrule
    rcases hrule with rfl | rfl | rfl | rfl <;> simp
  have hwritable : ∀ rule ∈ levelRules, rule.isWritable = true := by decide
  have hall : ∀ rule ∈ levelRules, rule.IsOtherwise ∨ rule.IsOrdering := by decide
  have hdemanded : conditions? "w" "payload.t" levelRules { tag := "else" } =
      .ok (some levelConditions) := rfl
  have hcomplement (x : Int) : (x ≠ 2 ∧ 0 ≤ x ∧ x < 5) ↔
      ∀ rule ∈ levelRules, ¬ rule.IsOtherwise →
        ¬ Lets (atInteger x) "w" "payload.t" levelRules rule := by
    obtain ⟨_, hconditions, conditions, rfl, -, hiff, -⟩ :=
      (otherwise_complements (atInteger x) "w" "payload.t" hneeded hbounds
        (List.mem_cons_self : ({ tag := "else" } : Branch) ∈ levelRules) rfl).exists_ok hwritable
    cases hdemanded.symm.trans hconditions
    rw [← hiff hall, levelConditions, List.forall_mem_cons, List.forall_mem_cons,
      List.forall_mem_singleton]
    exact Iff.rfl
  refine ⟨hneeded, hall, hdemanded, rfl, (hcomplement 3).1 (by decide), ?_⟩
  by_contra hnone
  have h := (hcomplement 2).2 fun rule hrule hnot hlets => hnone ⟨rule, hrule, hnot, hlets⟩
  exact h.1 rfl

/-- A switch with an otherwise rule has a way out for every event, unless no other rule holds and
there is a range: its bounds are then demanded together, which fails wherever the lower bound is not
above the value or the upper bound is. -/
theorem exhaustive_unless_between (r : Reading α) (node property : String) {rules : List Branch}
    (hknown : ∀ rule ∈ rules, rule.IsOtherwise ∨ rule.IsOrdering ∨ rule.IsRange)
    (hneeded : ∀ rule ∈ rules, rule.isNegatable = true) {other : Branch} (hother : other ∈ rules)
    (ho : other.IsOtherwise) :
    Delivers (∀ rule ∈ rules, rule.isWritable = true) (conditions? node property rules other)
      fun _ =>
        (∀ rule ∈ rules, ∃ own, conditions? node property rules rule = .ok (some own)) ∧
        ((∃ rule ∈ rules, Lets r node property rules rule) ↔
          ¬ ((∀ rule ∈ rules, ¬ rule.IsOtherwise → ¬ Lets r node property rules rule) ∧
            ∃ rule ∈ rules, rule.IsRange ∧
              ¬ (r.observed (Condition.attributeOf property) < r.literal rule.value.queryText ∧
                r.literal rule.upper.queryText ≤
                  r.observed (Condition.attributeOf property)))) := by
  refine (Exit.delivers_otherwise node property hother ho hneeded).mono id ?_
  rintro _ ⟨-, -, hopen⟩
  have hotherwise {rule : Branch} (hrule : rule ∈ rules) (h : rule.IsOtherwise) :=
    Exit.lets_otherwise_iff r (hopen rule hrule (.inl h)) h
  refine ⟨fun rule hrule => ⟨_, hopen rule hrule (hknown rule hrule)⟩, ?_⟩
  constructor
  · rintro ⟨rule, hrule, hlets⟩ ⟨hnone, range, hrange, h, hgap⟩
    have hrule' : rule.IsOtherwise := not_not.1 fun hnot => hnone rule hrule hnot hlets
    rw [hotherwise hrule hrule'] at hlets
    exact hgap ((h.refutes_iff r property).1 (hlets range hrange))
  · intro hno
    by_contra hnone
    have hlets : ∀ rule ∈ rules, ¬ Lets r node property rules rule := by
      intro rule hrule hlets
      exact hnone ⟨rule, hrule, hlets⟩
    refine hlets other hother ((hotherwise hother ho).2 fun rule hrule => ?_)
    -- What is not refuted has a way out of its own, or is a range that leaves a gap.
    obtain h | h | h := hknown rule hrule
    · exact h.refutes r property
    · have hrule' := hlets rule hrule
      rwa [Exit.lets_ordering_iff r (hopen rule hrule (.inr (.inl h))) h, not_not] at hrule'
    · rw [h.refutes_iff]
      by_contra hgap
      exact hno ⟨fun rule hrule _ => hlets rule hrule, rule, hrule, h, hgap⟩

def oneToFive : Branch :=
  { tag := "btwn", value := .text "1", upper := .text "5" }

def rangeRules : List Branch :=
  [oneToFive, { tag := "else" }]

theorem lets_oneToFive_iff (x : Int) :
    Lets (atInteger x) "w" "payload.t" rangeRules oneToFive ↔ 1 ≤ x ∧ x ≤ 5 :=
  Exit.lets_range_iff (atInteger x) rfl rfl

theorem refutes_oneToFive_iff (x : Int) :
    oneToFive.Refutes (atInteger x) "payload.t" ↔ x < 1 ∧ 5 ≤ x :=
  IsRange.refutes_iff (atInteger x) "payload.t" rfl

theorem exhaustive_unless_between_rangeRules :
    (∀ rule ∈ rangeRules, rule.IsOtherwise ∨ rule.IsOrdering ∨ rule.IsRange) ∧
    (∀ rule ∈ rangeRules, rule.isNegatable = true) ∧
    ∃ rule ∈ rangeRules, Lets (atInteger 3) "w" "payload.t" rangeRules rule := by
  have hknown : ∀ rule ∈ rangeRules, rule.IsOtherwise ∨ rule.IsOrdering ∨ rule.IsRange := by
    decide
  have hneeded : ∀ rule ∈ rangeRules, rule.isNegatable = true := by decide
  have hwritable : ∀ rule ∈ rangeRules, rule.isWritable = true := by decide
  have hother : ({ tag := "else" } : Branch) ∈ rangeRules :=
    List.mem_cons_of_mem _ List.mem_cons_self
  obtain ⟨_, -, -, hexhaustive⟩ :=
    (exhaustive_unless_between (atInteger 3) "w" "payload.t" hknown hneeded hother rfl).exists_ok
      hwritable
  refine ⟨hknown, hneeded, hexhaustive.2 fun hgap => ?_⟩
  exact hgap.1 oneToFive List.mem_cons_self (by decide) ((lets_oneToFive_iff 3).2 (by decide))

/-- Above a range there is no way out, although no other rule holds. -/
theorem no_way_out_rangeRules :
    ¬ ∃ rule ∈ rangeRules, Lets (atInteger 7) "w" "payload.t" rangeRules rule := by
  rintro ⟨rule, hrule, hlets⟩
  simp only [rangeRules, List.mem_cons, List.not_mem_nil, or_false] at hrule
  obtain rfl | rfl := hrule
  · exact absurd ((lets_oneToFive_iff 7).1 hlets) (by decide)
  · have hrefutes : ∀ sibling ∈ rangeRules, sibling.Refutes (atInteger 7) "payload.t" :=
      (Exit.lets_otherwise_iff (atInteger 7) (by rfl) (by rfl)).1 hlets
    have hbounds := (refutes_oneToFive_iff 7).1 (hrefutes oneToFive List.mem_cons_self)
    exact absurd hbounds (by decide)

end Branch

end EventFlow
