import EventFlow.Proofs.Outcome
import EventFlow.Walk

/-!
Which outlets of a node are live, and what leaving by them does to a draft.

Both are said here of the node alone, without the reports and the failures of `Node.exits`; that the
exits agree is the main result (`Node.exits_deliver`). A failure can only come from a whole number
that is too long to be written. Nodes without such numbers are `Legible`.
-/

namespace EventFlow

/-! ### Computations that a long number can stop -/

section Delivers

variable {α β : Type} {legible : Prop}

/-- The result has the property `p`. Only a number that is too long to be written keeps a
computation from its result, and there is none if `legible` holds. -/
def Delivers (legible : Prop) (x : Except Failure α) (p : α → Prop) : Prop :=
  (∃ a, x = .ok a ∧ p a) ∨ x = .error .overlong ∧ ¬ legible

namespace Delivers

theorem ok {p : α → Prop} {a : α} (h : p a) : Delivers legible (.ok a) p :=
  .inl ⟨a, rfl, h⟩

theorem of_ok {x : Except Failure α} {p : α → Prop} {a : α} (h : Delivers legible x p)
    (hx : x = .ok a) : p a := by
  obtain ⟨b, hb, hp⟩ | ⟨he, _⟩ := h
  · rw [hx] at hb
    cases hb
    exact hp
  · rw [hx] at he
    cases he

theorem exists_ok {x : Except Failure α} {p : α → Prop} (h : Delivers legible x p)
    (hl : legible) : ∃ a, x = .ok a ∧ p a := by
  obtain ha | ⟨_, hn⟩ := h
  · exact ha
  · exact absurd hl hn

theorem mono {legible' : Prop} {x : Except Failure α} {p q : α → Prop} (h : Delivers legible x p)
    (hl : legible' → legible) (hpq : ∀ a, p a → q a) : Delivers legible' x q := by
  obtain ⟨a, ha, hp⟩ | ⟨he, hn⟩ := h
  · exact .inl ⟨a, ha, hpq a hp⟩
  · exact .inr ⟨he, fun h' => hn (hl h')⟩

theorem bind {x : Except Failure α} {f : α → Except Failure β} {p : α → Prop} {q : β → Prop}
    (hx : Delivers legible x p) (hf : ∀ a, p a → Delivers legible (f a) q) :
    Delivers legible (x >>= f) q := by
  obtain ⟨a, rfl, hp⟩ | ⟨rfl, hn⟩ := hx
  · exact hf a hp
  · exact .inr ⟨rfl, hn⟩

theorem mapM {f : α → Except Failure β} {r : α → β → Prop} {xs : List α}
    (h : ∀ x ∈ xs, Delivers legible (f x) (r x)) :
    Delivers legible (xs.mapM f) (List.Forall₂ r xs) := by
  induction xs with
  | nil => exact ok .nil
  | cons x rest ih =>
      rw [List.mapM_cons]
      refine bind (h x List.mem_cons_self) fun y hy => ?_
      refine bind (ih fun z hz => h z (List.mem_cons_of_mem x hz)) fun ys hys => ?_
      exact ok (.cons hy hys)

end Delivers

end Delivers

/-! ### Comparisons -/

namespace Value

def queryText : Value → String
  | .bool true => "true"
  | .bool false => "false"
  | v => v.display

theorem delivers_display (v : Value) :
    Delivers (v.isWritable = true) v.display? (· = v.display) := by
  rw [display?]
  split
  · exact .ok rfl
  · next h => exact .inr ⟨rfl, h⟩

/-- A literal can be written if its value can. -/
theorem queryText?_eq (v : Value) :
    (Operand.literal v).queryText? =
      if v.isWritable then .ok v.queryText else .error .overlong := by
  cases v with
  | bool b => cases b <;> rfl
  | null => rfl
  | number n => rfl
  | text s => rfl
  | list items => rfl
  | object fields => rfl

theorem delivers_queryText (v : Value) :
    Delivers (v.isWritable = true) (Operand.literal v).queryText? (· = v.queryText) := by
  rw [queryText?_eq]
  split
  · exact .ok rfl
  · next h => exact .inr ⟨rfl, h⟩

end Value

namespace Condition

def compared (property : String) (test : Operator × Value) : Condition :=
  .comparison (attributeOf property) test.1 test.2.queryText

def isComplete (test : Operator × Value) : Bool :=
  test.1.symbol?.isSome && !test.2.isNull

/-- A test is answered with what it was asked for if it is open, and refused otherwise. -/
def Answers {α : Type} (isOpen : Bool) (a : α) (answer : Except Refusal α) : Prop :=
  if isOpen then answer = .ok a else ∃ refusal, answer = .error refusal

theorem Answers.map {α β : Type} {isOpen : Bool} {a : α} {answer : Except Refusal α} (f : α → β)
    (h : Answers isOpen a answer) : Answers isOpen (f a) (answer.map f) := by
  cases isOpen with
  | false =>
      obtain ⟨refusal, rfl⟩ : ∃ refusal, answer = .error refusal := by simpa [Answers] using h
      exact ⟨refusal, rfl⟩
  | true =>
      obtain rfl : answer = .ok a := by simpa [Answers] using h
      rfl

theorem delivers_ofComparison (property : String) (test : Operator × Value) :
    Delivers (test.2.isWritable = true)
      (ofComparison (some property) test.1 (.literal test.2))
      (Answers (isComplete test) (compared property test)) := by
  obtain ⟨operator, v⟩ := test
  rw [ofComparison]
  cases hs : operator.symbol? with
  | none => exact .ok (by simp [Answers, isComplete, hs])
  | some sign =>
      by_cases hv : (Operand.literal v).isNull = true
      · simp only [hv, if_true]
        exact .ok (by simpa [Answers, isComplete, Operand.isNull] using fun _ => hv)
      · simp only [hv]
        refine (Value.delivers_queryText v).bind fun text htext => .ok ?_
        have hv' : v.isNull = false := by simpa [Operand.isNull] using hv
        simp [Answers, isComplete, hs, hv', compared, htext]

theorem delivers_ofComparisons (property : String) (tests : List (Operator × Value)) :
    Delivers (∀ test ∈ tests, test.2.isWritable = true) (ofComparisons property tests)
      (Answers (tests.all isComplete) (tests.map (compared property))) := by
  induction tests with
  | nil => exact .ok rfl
  | cons test rest ih =>
      rw [ofComparisons]
      have hrest : Delivers (∀ t ∈ test :: rest, t.2.isWritable = true) _ _ :=
        ih.mono (fun h t ht => h t (List.mem_cons_of_mem test ht)) fun _ => id
      refine .bind ((delivers_ofComparison property test).mono
        (fun h => h test List.mem_cons_self) fun _ => id) fun answer hanswer => ?_
      cases hc : isComplete test with
      | false =>
          obtain ⟨refusal, rfl⟩ : ∃ refusal, answer = .error refusal := by
            simpa [Answers, hc] using hanswer
          exact .ok (by simp [Answers, hc])
      | true =>
          obtain rfl : answer = .ok (compared property test) := by
            simpa [Answers, hc] using hanswer
          refine hrest.bind fun answers hanswers => .ok ?_
          cases ha : rest.all isComplete with
          | false =>
              obtain ⟨refusal, rfl⟩ : ∃ refusal, answers = .error refusal := by
                simpa [Answers, ha] using hanswers
              simp [Answers, hc, ha, Except.map]
          | true =>
              obtain rfl : answers = .ok (rest.map (compared property)) := by
                simpa [Answers, ha] using hanswers
              simp [Answers, hc, ha, Except.map]

end Condition

namespace Exit

open Condition (Answers)

theorem isEmpty_refusals {tests : List (Bool × List Step)}
    {outcomes : List (Except Refusal (List Step))}
    (h : List.Forall₂ (fun test => Answers test.1 test.2) tests outcomes) :
    (outcomes.filterMap fun
      | .error refusal => some refusal
      | .ok _ => none).isEmpty = tests.all (·.1) := by
  induction h with
  | nil => rfl
  | @cons test outcome tests outcomes hfirst _ ih =>
      rw [List.all_cons]
      cases ht : test.1 with
      | false =>
          obtain ⟨refusal, rfl⟩ : ∃ refusal, outcome = .error refusal := by
            simpa [Answers, ht] using hfirst
          simp
      | true =>
          obtain rfl : outcome = .ok test.2 := by simpa [Answers, ht] using hfirst
          simpa using ih

theorem flatMap_accepted {tests : List (Bool × List Step)}
    {outcomes : List (Except Refusal (List Step))}
    (h : List.Forall₂ (fun test => Answers test.1 test.2) tests outcomes)
    (hall : tests.all (·.1) = true) :
    (outcomes.flatMap fun
      | .ok steps => steps
      | .error _ => []) = tests.flatMap (·.2) := by
  induction h with
  | nil => rfl
  | @cons test outcome tests outcomes hfirst _ ih =>
      simp only [List.all_cons, Bool.and_eq_true] at hall
      obtain rfl : outcome = .ok test.2 := by simpa [Answers, hall.1] using hfirst
      rw [List.flatMap_cons, List.flatMap_cons, ih hall.2]

/-- An exit is open if all its tests are, and then takes the steps of all of them. -/
theorem outcome_judge (id : String) {tests : List (Bool × List Step)}
    {outcomes : List (Except Refusal (List Step))}
    (h : List.Forall₂ (fun test => Answers test.1 test.2) tests outcomes) :
    (judge id outcomes).outcome =
      .ok (if tests.all (·.1) then some (tests.flatMap (·.2)) else none) := by
  have hwarn (xs : List Refusal) : xs.mapM (fun _ => Except.ok (ε := Failure) ()) =
      .ok (xs.map fun _ => ()) := List.mapM_pure
  have hjudge : (judge id outcomes).outcome =
      .ok (if (outcomes.filterMap fun
        | .error refusal => some refusal
        | .ok _ => none).isEmpty
      then some (outcomes.flatMap fun
        | .ok steps => steps
        | .error _ => [])
      else none) := by
    rw [judge, Run.outcome_bind, Run.outcome_each]
    simp only [Run.outcome_warn, hwarn]
    rw [apply_ite Run.outcome, apply_ite Except.ok]
    rfl
  rw [hjudge, isEmpty_refusals h]
  cases hall : tests.all (·.1) with
  | false => rfl
  | true => rw [if_pos rfl, if_pos rfl, flatMap_accepted h hall]

end Exit

/-! ### The rules of a switch -/

namespace Branch

def isWritable (rule : Branch) : Bool :=
  rule.value.isWritable && rule.upper.isWritable

/-- Whether a rule has the values that its negation compares with. A rule without a negated form
needs none. -/
def isNegatable (rule : Branch) : Bool :=
  match Operator.ofTag? rule.tag with
  | some .between => !rule.value.isNull && !rule.upper.isNull
  | some operator => operator.negated?.isNone || !rule.value.isNull
  | none => true

/-- Whether a draft can leave a switch with the given rules by one of them. -/
def isPassable (rules : List Branch) (rule : Branch) : Bool :=
  match Operator.ofTag? rule.tag with
  | none => false
  | some .between => !rule.value.isNull && !rule.upper.isNull
  | some .otherwise => rules.all isNegatable
  | some _ => !rule.value.isNull

def range (rule : Branch) : Value :=
  .text (rule.value.display ++ ".." ++ rule.upper.display)

def steps (property : String) (rules : List Branch) (rule : Branch) : List Step :=
  let demands (tests : List (Operator × Value)) : List Step :=
    tests.map fun test => .require (Condition.compared property test) .fixed
  match Operator.ofTag? rule.tag with
  | none => []
  | some .between => demands [(.eq, rule.range)]
  | some .otherwise =>
    rules.flatMap (fun sibling => demands sibling.negations) ++
      if property = "" then [] else [.observe (Condition.attributeOf property)]
  | some operator => demands [(operator, rule.value)]

def written (rules : List Branch) (rule : Branch) : List Value :=
  match Operator.ofTag? rule.tag with
  | none => []
  | some .between => [rule.value, rule.upper]
  | some .otherwise => rules.flatMap fun sibling => sibling.negations.map Prod.snd
  | some _ => [rule.value]

/-- The negations of a rule compare by operators that have a sign. -/
theorem symbol?_of_mem_negations {rule : Branch} :
    ∀ test ∈ rule.negations, test.1.symbol?.isSome = true := by
  intro test htest
  rw [negations] at htest
  cases ho : Operator.ofTag? rule.tag with
  | none => simp [ho] at htest
  | some operator =>
      cases operator <;> simp [ho, Operator.negated?] at htest
      case between => rcases htest with rfl | rfl <;> rfl
      all_goals
        subst htest
        rfl

/-- All that a rule of a switch does is to demand comparisons of the property, each with a sign, and
to watch the property. -/
theorem mem_steps {property : String} {rules : List Branch} {rule : Branch} {step : Step}
    (h : step ∈ rule.steps property rules) :
    (∃ test : Operator × Value, test.1.symbol?.isSome = true ∧
      step = .require (Condition.compared property test) .fixed) ∨
      step = .observe (Condition.attributeOf property) := by
  rw [steps] at h
  cases ho : Operator.ofTag? rule.tag with
  | none => simp [ho] at h
  | some operator =>
      cases operator with
      | otherwise =>
          simp only [ho] at h
          obtain h | h := List.mem_append.1 h
          · simp only [List.mem_flatMap, List.mem_map] at h
            obtain ⟨sibling, -, test, htest, rfl⟩ := h
            exact .inl ⟨test, symbol?_of_mem_negations test htest, rfl⟩
          · split at h
            · cases h
            · exact .inr (List.mem_singleton.1 h)
      | _ =>
          simp only [ho] at h
          exact .inl ⟨_, rfl, List.mem_singleton.1 h⟩

theorem all_isComplete_negations (rule : Branch) :
    rule.negations.all Condition.isComplete = rule.isNegatable := by
  rw [negations, isNegatable]
  cases Operator.ofTag? rule.tag with
  | none => rfl
  | some operator =>
      cases operator <;> simp [Condition.isComplete, Operator.negated?, Operator.symbol?]

theorem isWritable_of_mem_negations {rule : Branch} (h : rule.isWritable = true) :
    ∀ test ∈ rule.negations, test.2.isWritable = true := by
  simp only [isWritable, Bool.and_eq_true] at h
  intro test htest
  rw [negations] at htest
  cases ho : Operator.ofTag? rule.tag with
  | none => simp [ho] at htest
  | some operator =>
      cases operator <;> simp [ho, Operator.negated?] at htest
      case between =>
        rcases htest with rfl | rfl
        · exact h.1
        · exact h.2
      all_goals
        subst htest
        exact h.1

theorem isWritable_of_mem_written {rules : List Branch} {rule : Branch} (hrule : rule ∈ rules)
    (h : ∀ r ∈ rules, r.isWritable = true) : ∀ v ∈ rule.written rules, v.isWritable = true := by
  intro v hv
  have hwritable := h rule hrule
  simp only [isWritable, Bool.and_eq_true] at hwritable
  rw [written] at hv
  cases ho : Operator.ofTag? rule.tag with
  | none => simp [ho] at hv
  | some operator =>
      cases operator with
      | between =>
          simp only [ho, List.mem_cons, List.not_mem_nil, or_false] at hv
          obtain rfl | rfl := hv
          · exact hwritable.1
          · exact hwritable.2
      | otherwise =>
          simp only [ho, List.mem_flatMap, List.mem_map] at hv
          obtain ⟨sibling, hsibling, test, htest, rfl⟩ := hv
          exact isWritable_of_mem_negations (h sibling hsibling) test htest
      | _ =>
          simp only [ho, List.mem_singleton] at hv
          rw [hv]
          exact hwritable.1

end Branch

namespace Exit

open Condition (Answers)

theorem delivers_bounds (rule : Branch) :
    Delivers (rule.isWritable = true) (bounds rule)
      (· = if rule.value.isNull || rule.upper.isNull then .null else rule.range) := by
  have hvalue := (Value.delivers_display rule.value).mono (q := (· = rule.value.display))
    (fun h : rule.isWritable = true => by simp_all [Branch.isWritable]) fun _ => id
  have hupper := (Value.delivers_display rule.upper).mono (q := (· = rule.upper.display))
    (fun h : rule.isWritable = true => by simp_all [Branch.isWritable]) fun _ => id
  rw [bounds]
  split
  · exact .ok rfl
  · refine hvalue.bind fun low hlow => ?_
    refine hupper.bind fun high hhigh => .ok ?_
    rw [hlow, hhigh, Branch.range]

/-- The tests of one rule for one slot, as an exit judges them. -/
theorem delivers_comparisons (property : String) (tests : List (Operator × Value)) :
    Delivers (∀ test ∈ tests, test.2.isWritable = true)
      (Run.outcome do
        return requireAll .fixed (← Run.ofExcept (Condition.ofComparisons property tests)))
      (Answers (tests.all Condition.isComplete)
        (tests.map fun test => Step.require (Condition.compared property test) .fixed)) := by
  rw [Run.outcome_bind]
  refine (Condition.delivers_ofComparisons property tests).bind fun answer hanswer => .ok ?_
  have hrequired := hanswer.map fun conditions => conditions.map (Step.require · .fixed)
  rwa [List.map_map] at hrequired

/-- A test alone decides its exit. -/
theorem delivers_single {property : String} {test : Operator × Value} {legible : Prop}
    (node : String) (h : legible → test.2.isWritable = true) :
    Delivers legible
      (Run.outcome do
        let answer ← (do
          return requireAll .fixed (← Run.ofExcept (Condition.ofComparisons property [test])))
        judge node [answer])
      (· = if Condition.isComplete test then
          some [.require (Condition.compared property test) .fixed] else none) := by
  rw [Run.outcome_bind]
  refine ((delivers_comparisons property [test]).mono (fun hl t ht => ?_) fun _ => id).bind
    fun answer hanswer => ?_
  · rw [List.mem_singleton.1 ht]
    exact h hl
  · simp only [List.all_cons, List.all_nil, Bool.and_true, List.map_cons, List.map_nil] at hanswer
    have hall : List.Forall₂ (fun t => Answers t.1 t.2)
        [(Condition.isComplete test, [Step.require (Condition.compared property test) .fixed])]
        [answer] := .cons hanswer .nil
    rw [outcome_judge node hall]
    exact .ok (by simp)

/-- Only what is written can be too long. -/
theorem delivers_written (node property : String) (rules : List Branch) (rule : Branch) :
    Delivers (∀ v ∈ rule.written rules, v.isWritable = true)
      (ofRule node property rules rule).outcome
      (· = if rule.isPassable rules then some (rule.steps property rules) else none) := by
  rw [ofRule, Branch.isPassable, Branch.steps, Branch.written]
  cases ho : Operator.ofTag? rule.tag with
  | none => exact .ok rfl
  | some operator =>
      cases operator with
      | between =>
          simp only
          rw [Run.outcome_bind, Run.outcome_ofExcept]
          refine ((delivers_bounds rule).mono (fun h => ?_) fun _ => id).bind fun v hv => ?_
          · simpa [Branch.isWritable] using h
          have hwritable : v.isWritable = true := by
            rw [hv]
            split <;> rfl
          refine (delivers_single node fun _ => hwritable).mono id fun r hr => ?_
          rw [hr, hv]
          cases rule.value.isNull <;> cases rule.upper.isNull <;>
            simp [Condition.isComplete, Operator.symbol?, Branch.range, Value.isNull]
      | otherwise =>
          simp only
          rw [Run.outcome_bind, Run.outcome_each]
          refine (Delivers.mapM fun (sibling : Branch) hsibling =>
            (delivers_comparisons property sibling.negations).mono
              (fun h test htest => h test.2 (List.mem_flatMap.2
                ⟨sibling, hsibling, List.mem_map_of_mem htest⟩))
              fun _ => id).bind fun outcomes houtcomes => ?_
          -- The attribute that is watched anyway counts as one more test, which is always open.
          have hall : List.Forall₂ (fun t => Answers t.1 t.2)
              (rules.map (fun sibling => (sibling.isNegatable, sibling.negations.map fun test =>
                Step.require (Condition.compared property test) .fixed)) ++
                [(true, if property = "" then [] else [.observe (Condition.attributeOf property)])])
              (outcomes ++ [.ok (if property = "" then []
                else [.observe (Condition.attributeOf property)])]) := by
            refine List.rel_append ?_ (.cons rfl .nil)
            rw [List.forall₂_map_left_iff]
            refine houtcomes.imp fun sibling outcome h => ?_
            rwa [Branch.all_isComplete_negations] at h
          rw [outcome_judge node hall]
          refine .ok ?_
          simp [List.all_map, List.flatMap_map, Function.comp_def]
      | _ =>
          refine (delivers_single node fun h => h rule.value List.mem_cons_self).mono id
            fun r hr => ?_
          rw [hr]
          simp [Condition.isComplete, Operator.symbol?]

theorem delivers_ofRule (node property : String) {rules : List Branch} {rule : Branch}
    (hrule : rule ∈ rules) :
    Delivers (∀ r ∈ rules, r.isWritable = true) (ofRule node property rules rule).outcome
      (· = if rule.isPassable rules then some (rule.steps property rules) else none) :=
  (delivers_written node property rules rule).mono (Branch.isWritable_of_mem_written hrule)
    fun _ => id

end Exit

/-! ### Edge detections and geofences -/

namespace Branch

def isCrossing (rule : Branch) : Bool :=
  (Edge.ofTag? rule.tag).isSome && !rule.value.isNull

def crossing (property : String) (rule : Branch) : List Step :=
  match Edge.ofTag? rule.tag with
  | none => []
  | some edge =>
    [.require (Condition.compared property (edge.before, rule.value)) .first,
      .require (Condition.compared property (edge.after, rule.value)) .second]

end Branch

namespace Area

/-- Whether a draft can pass a geofence: the filter is known, and there is a polyline to test
against. -/
def isOpen (points : Option (List Vertex)) (mode filter : Option String) : Bool :=
  (filter.bind Filter.ofTag?).isSome && !(points.getD []).isEmpty &&
    mode == some Condition.polylineMode

def condition (points : Option (List Vertex)) (relation : Relation) : Condition :=
  match points with
  | some (first :: rest) => .spatial relation (Polygon.coords first rest)
  | _ => .spatial relation ""

def steps (points : Option (List Vertex)) (filter : Option String) : List Step :=
  match filter.bind Filter.ofTag? with
  | some f => f.tests.map fun test => .require (condition points test.2) test.1
  | none => []

end Area

namespace Exit

open Condition (Answers)

theorem delivers_ofEdge (node property : String) (rule : Branch) :
    Delivers (rule.isWritable = true) (ofEdge node property rule).outcome
      (· = if rule.isCrossing then some (rule.crossing property) else none) := by
  rw [ofEdge, Branch.isCrossing, Branch.crossing]
  cases he : Edge.ofTag? rule.tag with
  | none => exact .ok rfl
  | some edge =>
      have hside (operator : Operator) (hs : operator.symbol?.isSome = true) :
          Delivers (rule.isWritable = true)
            (Condition.ofComparisons property [(operator, rule.value)])
            (Answers (!rule.value.isNull)
              [Condition.compared property (operator, rule.value)]) := by
        refine (Condition.delivers_ofComparisons property [(operator, rule.value)]).mono ?_ ?_
        · intro h test htest
          rw [List.mem_singleton.1 htest]
          simp only [Branch.isWritable, Bool.and_eq_true] at h
          exact h.1
        · intro answer h
          simpa [Condition.isComplete, hs] using h
      simp only
      rw [Run.outcome_bind]
      refine (hside edge.before (by cases edge <;> rfl)).bind fun before hbefore => ?_
      rw [Run.outcome_bind]
      refine (hside edge.after (by cases edge <;> rfl)).bind fun after hafter => ?_
      have hall : List.Forall₂ (fun t => Answers t.1 t.2)
          [(!rule.value.isNull,
              [Step.require (Condition.compared property (edge.before, rule.value)) .first]),
            (!rule.value.isNull,
              [Step.require (Condition.compared property (edge.after, rule.value)) .second])]
          [requireAll .first before, requireAll .second after] :=
        .cons (hbefore.map _) (.cons (hafter.map _) .nil)
      rw [outcome_judge node hall]
      exact .ok (by simp)

theorem delivers_vertices (vertices : List Vertex) :
    Delivers (∀ v ∈ vertices, v.isWritable = true)
      (LineEntry.vertices? (vertices.map .vertex))
      (fun read => read = vertices ∧ vertices.all Vertex.isWritable = true) := by
  induction vertices with
  | nil => exact .ok ⟨rfl, rfl⟩
  | cons v rest ih =>
      rw [List.map_cons, LineEntry.vertices?]
      split
      · next hv =>
          have hrest : Delivers (∀ u ∈ v :: rest, u.isWritable = true) _ _ :=
            ih.mono (fun h u hu => h u (List.mem_cons_of_mem v hu)) fun _ => id
          refine hrest.bind (f := fun read => .ok (v :: read)) fun read hread => .ok ?_
          exact ⟨congrArg (v :: ·) hread.1, by simpa [hv] using hread.2⟩
      · next hv => exact .inr ⟨rfl, fun h => hv (h v List.mem_cons_self)⟩

def operand (points : Option (List Vertex)) : Operand :=
  match points with
  | none => .literal .null
  | some vertices => .line (vertices.map .vertex)

theorem delivers_area (relation : Relation) (points : Option (List Vertex)) (mode : Option String) :
    Delivers (∀ v ∈ points.getD [], v.isWritable = true)
      (Condition.ofArea relation (operand points) mode)
      (Answers (!(points.getD []).isEmpty && mode == some Condition.polylineMode)
        (Area.condition points relation)) := by
  cases mode with
  | none => exact .ok (by simp [Answers])
  | some mode =>
      match points with
      | none => exact .ok (by simp [Answers])
      | some [] => exact .ok (by simp [Answers])
      | some (first :: rest) =>
          by_cases hmode : mode = Condition.polylineMode
          · subst hmode
            refine Delivers.bind (delivers_vertices (first :: rest)) fun vertices hvertices => ?_
            obtain ⟨rfl, hall⟩ := hvertices
            simp only [Polygon.coords?, hall, if_true]
            exact .ok (by simp [Answers, Area.condition])
          · have hrefused : Condition.ofArea relation (operand (some (first :: rest))) (some mode) =
                .ok (.error (.unknownMode mode)) := by
              simp [Condition.ofArea, operand, Operand.isTruthy, hmode]
            rw [hrefused]
            exact .ok (by simp [Answers, hmode])

theorem delivers_ofArea (node : String) (points : Option (List Vertex))
    (mode filter : Option String) :
    Delivers (∀ v ∈ points.getD [], v.isWritable = true) (ofArea node points mode filter).outcome
      (· = if Area.isOpen points mode filter then some (Area.steps points filter) else none) := by
  rw [ofArea.eq_def, Area.isOpen, Area.steps]
  cases hf : filter.bind Filter.ofTag? with
  | none => exact .ok rfl
  | some f =>
      simp only
      rw [Run.outcome_bind, Run.outcome_each]
      have htest (test : Slot × Relation) : Delivers (∀ v ∈ points.getD [], v.isWritable = true)
          (Run.outcome do
            let outcome ← Run.ofExcept (Condition.ofArea test.2 (operand points) mode)
            return requireAll test.1 (outcome.map ([·])))
          (Answers (!(points.getD []).isEmpty && mode == some Condition.polylineMode)
            [Step.require (Area.condition points test.2) test.1]) := by
        rw [Run.outcome_bind]
        refine Delivers.bind (delivers_area test.2 points mode) fun answer hanswer => .ok ?_
        exact (hanswer.map ([·])).map fun conditions => conditions.map (Step.require · test.1)
      refine (Delivers.mapM fun test _ => htest test).bind fun outcomes houtcomes => ?_
      have hall : List.Forall₂ (fun t => Answers t.1 t.2)
          (f.tests.map fun test =>
            (!(points.getD []).isEmpty && mode == some Condition.polylineMode,
              [Step.require (Area.condition points test.2) test.1])) outcomes :=
        List.forall₂_map_left_iff.2 houtcomes
      rw [outcome_judge node hall]
      refine .ok ?_
      cases f <;> simp [Filter.tests]

end Exit

/-! ### Change nodes -/

namespace Change

/-- Whether the value that a rule stores can be made: a reference shows what it refers to, and a
spelling is read. -/
def isLegible (rule : Change) : Bool :=
  match rule.valueType, rule.value with
  | "msg", v => v.isWritable
  | "json", .text s =>
    match Value.read s with
    | .error .overlong => false
    | _ => true
  | _, _ => true

def result (rule : Change) : Value :=
  match rule.valueType, rule.value with
  | "msg", v => .text (placeholder v.display)
  | "num", .text s => numberOrText s
  | "bool", .text s => .bool (isTrueWord s)
  | "json", .text s =>
    match Value.read s with
    | .ok v => v
    | .error _ => .text s
  | _, v => v

def steps (node : String) (index : Nat) (rule : Change) : List Step :=
  if rule.tag = "set" then
    match rule.value, rule.result with
    | .object _, .object fields => [.share rule.path ⟨node, index⟩ fields]
    | _, v => [.store rule.path v]
  else []

theorem delivers_stored (rule : Change) :
    Delivers (rule.isLegible = true) rule.stored.outcome (· = rule.result) := by
  obtain ⟨tag, path, value, valueType⟩ := rule
  rw [isLegible.eq_def]
  simp only
  split
  · rw [stored.eq_def, result.eq_def]
    simp only
    rw [Run.outcome_bind]
    refine Delivers.bind (Value.delivers_display value) fun text htext => .ok ?_
    rw [htext]
  · next s =>
      rw [stored.eq_def, result.eq_def]
      simp only
      cases Value.read s with
      | ok v => exact .ok rfl
      | error e =>
          cases e with
          | malformed => exact .ok rfl
          | overlong => exact .inr ⟨rfl, by simp⟩
  · next hmsg hjson =>
      rw [stored.eq_def, result.eq_def]
      simp only
      split
      · exact (hmsg rfl).elim
      · exact .ok rfl
      · exact .ok rfl
      · exact (hjson _ rfl rfl).elim
      · exact .ok (by simp_all)

end Change

theorem Exit.delivers_ofChange (node : String) (index : Nat) (rule : Change) :
    Delivers (rule.isLegible = true) (ofChange node index rule).outcome
      (· = rule.steps node index) := by
  rw [ofChange, Change.steps]
  split
  · rw [Run.outcome_bind]
    refine rule.delivers_stored.bind fun v hv => ?_
    subst hv
    split
    · exact .ok (by simp_all)
    · exact .ok (by simp_all)
  · exact .ok rfl

/-! ### Nodes -/

namespace Node

def isSink (n : Node) : Bool :=
  (Task.ofKind? n.kind).isSome

/-- Whether drafts leave a node by an outlet, if the outlet is wired. -/
def isLive (n : Node) (i : Nat) : Bool :=
  match n.kind with
  | .source .. | .change _ | .template .. => i == 0
  | .switch _ rules => (rules[i]?.map (Branch.isPassable rules)).getD false
  | .edge _ rules => (rules[i]?.map Branch.isCrossing).getD false
  | .geofence points mode filter => i == 0 && Area.isOpen points mode filter
  | .update .. | .post .. | .email .. | .history | .unsupported => false

def effects (n : Node) (i : Nat) : List Step :=
  match n.kind with
  | .source deviceId deviceType => [.listen deviceType deviceId]
  | .switch property rules => (rules[i]?.map (Branch.steps property rules)).getD []
  | .edge property rules => (rules[i]?.map (Branch.crossing property)).getD []
  | .geofence points _ filter => Area.steps points filter
  | .change rules => rules.zipIdx.flatMap fun (rule, k) => rule.steps n.id k
  | .template field template => [.store field (.text template)]
  | .update .. | .post .. | .email .. | .history | .unsupported => []

/-- Whether drafts that leave a node are copies of the one that arrived. -/
def copies (n : Node) : Bool :=
  match n.kind with
  | .source .. | .switch .. | .edge .. => true
  | _ => false

/-- Whether no whole number in a node is too long for what the node does with it. -/
def isLegible (n : Node) : Bool :=
  match n.kind with
  | .switch _ rules | .edge _ rules => rules.all Branch.isWritable
  | .geofence points _ _ => (points.getD []).all Vertex.isWritable
  | .change rules => rules.all Change.isLegible
  | _ => true

def liveOutlets (n : Node) : List Nat :=
  (List.range n.exits.length).filter n.isLive

theorem lt_of_isLive {n : Node} {i : Nat} (h : n.isLive i = true) : i < n.exits.length := by
  obtain ⟨id, type, tab, wires, kind⟩ := n
  cases kind with
  | switch property rules =>
      simp only [exits, List.length_mapIdx]
      by_contra hi
      simp [isLive, List.getElem?_eq_none (Nat.le_of_not_lt hi)] at h
  | edge property rules =>
      simp only [exits, List.length_mapIdx]
      by_contra hi
      simp [isLive, List.getElem?_eq_none (Nat.le_of_not_lt hi)] at h
  | source _ _ => simp [isLive] at h; simp [h, exits]
  | geofence _ _ _ => simp [isLive] at h; simp [h, exits]
  | change _ => simp [isLive] at h; simp [h, exits]
  | template _ _ => simp [isLive] at h; simp [h, exits]
  | _ => simp [isLive] at h

@[simp] theorem mem_liveOutlets {n : Node} {i : Nat} : i ∈ n.liveOutlets ↔ n.isLive i = true := by
  rw [liveOutlets, List.mem_filter, List.mem_range]
  exact ⟨And.right, fun h => ⟨lt_of_isLive h, h⟩⟩

/-- The exits of a node are its outlets in order, open where the outlet is live. -/
theorem exits_deliver {n : Node} {i : Nat} {exit : Exit} (h : n.exits[i]? = some exit) :
    exit.outlet = i ∧ exit.copied = n.copies ∧
      Delivers (n.isLegible = true) exit.steps.outcome
        (· = if n.isLive i then some (n.effects i) else none) := by
  obtain ⟨id, type, tab, wires, kind⟩ := n
  cases kind with
  | switch property rules =>
      rw [exits, List.getElem?_mapIdx, Option.map_eq_some_iff] at h
      obtain ⟨rule, hrule, rfl⟩ := h
      refine ⟨rfl, rfl, ?_⟩
      have hmem := List.mem_of_getElem? hrule
      refine (Exit.delivers_ofRule id property hmem).mono ?_ fun r hr => ?_
      · exact fun hl => List.all_eq_true.1 hl
      · simpa [isLive, effects, hrule] using hr
  | edge property rules =>
      rw [exits, List.getElem?_mapIdx, Option.map_eq_some_iff] at h
      obtain ⟨rule, hrule, rfl⟩ := h
      refine ⟨rfl, rfl, ?_⟩
      have hmem := List.mem_of_getElem? hrule
      refine (Exit.delivers_ofEdge id property rule).mono ?_ fun r hr => ?_
      · exact fun hl => List.all_eq_true.1 hl rule hmem
      · simpa [isLive, effects, hrule] using hr
  | source deviceId deviceType =>
      obtain ⟨rfl, rfl⟩ : i = 0 ∧ _ = exit := by simpa [exits, List.getElem?_singleton] using h
      exact ⟨rfl, rfl, .ok rfl⟩
  | geofence points mode filter =>
      obtain ⟨rfl, rfl⟩ : i = 0 ∧ _ = exit := by simpa [exits, List.getElem?_singleton] using h
      refine ⟨rfl, rfl, ?_⟩
      refine (Exit.delivers_ofArea id points mode filter).mono ?_ fun r hr => ?_
      · exact fun hl => List.all_eq_true.1 hl
      · simpa [isLive, effects] using hr
  | change rules =>
      obtain ⟨rfl, rfl⟩ : i = 0 ∧ _ = exit := by simpa [exits, List.getElem?_singleton] using h
      refine ⟨rfl, rfl, ?_⟩
      rw [Run.outcome_bind, Run.outcome_each]
      refine (Delivers.mapM fun (entry : Change × Nat) hentry =>
        (Exit.delivers_ofChange id entry.2 entry.1).mono
          (fun hl : rules.all Change.isLegible = true =>
            List.all_eq_true.1 hl entry.1 (List.fst_mem_of_mem_zipIdx hentry))
          fun _ => Eq.symm).bind fun results hresults => .ok ?_
      have heq : rules.zipIdx.map (fun entry => entry.1.steps id entry.2) = results := by
        rw [← List.forall₂_eq_eq_eq, List.forall₂_map_left_iff]
        exact hresults
      rw [← heq]
      rfl
  | template field template =>
      obtain ⟨rfl, rfl⟩ : i = 0 ∧ _ = exit := by simpa [exits, List.getElem?_singleton] using h
      exact ⟨rfl, rfl, .ok rfl⟩
  | _ => simp [exits] at h

end Node

end EventFlow
