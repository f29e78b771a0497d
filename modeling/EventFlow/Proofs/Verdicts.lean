import EventFlow.Proofs.Live

/-!
What comes of a test.

A test is refused, and then the draft stays as it is, or it adds one condition to one slot and, if
that compares an attribute, the name of the attribute. Which of these it is depends on what is given
alone; `Draft.Verdict` lists the cases, and a test ends in exactly one of them
(`Draft.Verdict.testIfAny_eq`, `Draft.exists_verdict`).
-/

namespace EventFlow

/-! ### Operators by their tags -/

namespace Operator

theorem ofTag?_tag (operator : Operator) : ofTag? operator.tag = some operator := by
  cases operator <;> rfl

theorem tag_injective : Function.Injective tag := by
  intro o o' h
  have hsome := ofTag?_tag o
  rw [h, ofTag?_tag] at hsome
  exact (Option.some.inj hsome).symm

theorem tag_of_ofTag? {tag : String} {operator : Operator} (h : ofTag? tag = some operator) :
    operator.tag = tag := by
  simpa using List.find?_some h

end Operator

namespace Relation

theorem ofTag?_tag (relation : Relation) : ofTag? relation.tag = some relation := by
  cases relation <;> rfl

theorem tag_of_ofTag? {tag : String} {relation : Relation} (h : ofTag? tag = some relation) :
    relation.tag = tag := by
  simpa using List.find?_some h

end Relation

namespace TestOperator

theorem ofTag?_operator (operator : Operator) :
    ofTag? operator.tag = some (.comparison operator) := by
  rw [ofTag?, Operator.ofTag?_tag]

/-- No relation goes by the tag of an operator. -/
theorem ofTag?_relation (relation : Relation) : ofTag? relation.tag = some (.spatial relation) := by
  cases relation <;> rfl

theorem ofTag?_eq_none {tag : String} (hoperator : ∀ operator : Operator, operator.tag ≠ tag)
    (hrelation : ∀ relation : Relation, relation.tag ≠ tag) : ofTag? tag = none := by
  rw [ofTag?]
  cases ho : Operator.ofTag? tag with
  | some operator => exact absurd (Operator.tag_of_ofTag? ho) (hoperator operator)
  | none =>
      cases hr : Relation.ofTag? tag with
      | some relation => exact absurd (Relation.tag_of_ofTag? hr) (hrelation relation)
      | none => rfl

theorem tag_of_ofTag? {tag : String} {operator : TestOperator} (h : ofTag? tag = some operator) :
    (∃ o : Operator, operator = .comparison o ∧ o.tag = tag) ∨
      ∃ r : Relation, operator = .spatial r ∧ r.tag = tag := by
  rw [ofTag?] at h
  cases ho : Operator.ofTag? tag with
  | some o =>
      rw [ho] at h
      cases h
      exact .inl ⟨o, rfl, Operator.tag_of_ofTag? ho⟩
  | none =>
      rw [ho] at h
      obtain ⟨r, hr, rfl⟩ := Option.map_eq_some_iff.1 h
      exact .inr ⟨r, rfl, Relation.tag_of_ofTag? hr⟩

end TestOperator

/-! ### Operands that can be written -/

def Value.ofText? : Option String → Value
  | none => .null
  | some s => .text s

def LineEntry.isWritable : LineEntry → Bool
  | .vertex v => v.isWritable
  | .other v => v.isWritable

def Operand.isWritable : Operand → Bool
  | .literal v => v.isWritable
  | .line entries => entries.all LineEntry.isWritable

theorem LineEntry.exists_quoted? {entry : LineEntry} (h : entry.isWritable = true) :
    ∃ text, entry.quoted? = .ok text := by
  cases entry with
  | vertex v => exact ⟨v.quoted, if_pos h⟩
  | other v => exact ⟨v.quoted, if_pos h⟩

theorem Operand.exists_queryText? {operand : Operand} (h : operand.isWritable = true) :
    ∃ text, operand.queryText? = .ok text := by
  cases operand with
  | literal v => exact ⟨v.queryText, (Value.queryText?_eq v).trans (if_pos h)⟩
  | line entries =>
      have hquoted : Delivers True (entries.mapM LineEntry.quoted?) fun _ => True :=
        (Delivers.mapM (r := fun _ _ => True) fun entry hentry => by
          obtain ⟨text, htext⟩ := LineEntry.exists_quoted? (List.all_eq_true.1 h entry hentry)
          rw [htext]
          exact .ok trivial).mono id fun _ _ => trivial
      obtain ⟨texts, htexts, -⟩ := hquoted.exists_ok trivial
      exact ⟨_, by rw [queryText?, htexts]; rfl⟩

namespace Draft

/-! ### Verdicts -/

variable {draft? : Option Draft} {property operator mode : Option String} {operand : Operand}
  {slot : Slot} {kind? : Option String} {after : Option Draft}

/-- What is to come of a test: the kind of the refusal, if there is one, and the draft after it. -/
inductive Verdict (draft? : Option Draft) (property operator : Option String) (operand : Operand)
    (mode : Option String) (slot : Slot) : Option String → Option Draft → Prop where
  /-- There is no draft or no operator. -/
  | incomplete (h : draft? = none ∨ operator = none) :
      Verdict draft? property operator operand mode slot (some "InvalidParameter") draft?
  /-- A comparison that the broker has a sign for lacks its property or its value. -/
  | lacking {d : Draft} {o : Operator} (hd : draft? = some d) (ho : operator = some o.tag)
      (hsign : o.symbol?.isSome = true) (h : property = none ∨ operand.isNull = true) :
      Verdict draft? property operator operand mode slot (some "InvalidParameter") draft?
  /-- There is no area, or nothing that says what shape it has. -/
  | empty {d : Draft} {r : Relation} (hd : draft? = some d) (hr : operator = some r.tag)
      (h : mode = none ∨ operand.isTruthy = false) :
      Verdict draft? property operator operand mode slot (some "EmptyGeofenceNode") draft?
  /-- The area is of another shape than a polyline. -/
  | unknownMode {d : Draft} {r : Relation} {m : String} (hd : draft? = some d)
      (hr : operator = some r.tag) (harea : operand.isTruthy = true) (hm : mode = some m)
      (h : m ≠ "polyline") :
      Verdict draft? property operator operand mode slot (some "InvalidGeofenceMode") draft?
  /-- The operator is neither a comparison with a sign nor a relation. -/
  | unknownOperator {d : Draft} {tag : String} (hd : draft? = some d) (htag : operator = some tag)
      (hsign : ∀ o : Operator, o.tag = tag → o.symbol? = none) (h : ∀ r : Relation, r.tag ≠ tag) :
      Verdict draft? property operator operand mode slot (some "InvalidOperator") draft?
  /-- A comparison is added. Its attribute is what stands behind the first dot of the property, or
  all of it if there is none, and comes last in what is projected and in what is watched, unless it
  is there already. -/
  | compared {d : Draft} {o : Operator} {p name text : String} (hd : draft? = some d)
      (ho : operator = some o.tag) (hsign : o.symbol?.isSome = true) (hp : property = some p)
      (hname : (∃ segment, '.' ∉ segment ∧ p.toList = segment ++ '.' :: name.toList) ∨
        ('.' ∉ p.toList ∧ name = p))
      (h : operand.isNull = false) (htext : operand.queryText? = .ok text) :
      Verdict draft? property operator operand mode slot none
        (some { d.addCondition (.comparison name o text) slot with
          projected := if name ∈ d.projected then d.projected else d.projected ++ [name]
          device := { d.device with
            attributes :=
              if name ∈ d.device.attributes then d.device.attributes
              else d.device.attributes ++ [name] } })
  /-- A polygon is added. -/
  | located {d : Draft} {r : Relation} {first : Vertex} {rest : List Vertex} (hd : draft? = some d)
      (hr : operator = some r.tag) (hm : mode = some "polyline")
      (h : operand = .line ((first :: rest).map .vertex)) :
      Verdict draft? property operator operand mode slot none
        (some (d.addCondition (.spatial r (Polygon.coords first rest)) slot))

def refusedAs : Except Refusal Unit → Option String
  | .ok _ => none
  | .error refusal => some refusal.kind

theorem testIfAny_of_test {d e : Draft} {property operator mode : Value}
    {answer : Except Refusal Unit}
    (h : test property operator operand mode slot d = ⟨e, [], .ok answer⟩) :
    testIfAny property operator operand mode slot (some d) = ⟨some e, [], .ok answer⟩ := by
  have hzoom : testIfAny property operator operand mode slot (some d) =
      ⟨some (test property operator operand mode slot d).state,
        (test property operator operand mode slot d).log,
        (test property operator operand mode slot d).outcome⟩ := rfl
  rw [hzoom, h]

theorem test_operator (o : Operator) :
    test (.ofText? property) (.ofText? (some o.tag)) operand (.ofText? mode) slot =
      compare property o operand slot := by
  rw [test, Value.ofText?.eq_def (some o.tag)]
  simp only [Value.isNull, TestOperator.ofValue?, TestOperator.ofTag?_operator]
  cases property <;> rfl

theorem test_relation (r : Relation) :
    test (.ofText? property) (.ofText? (some r.tag)) operand (.ofText? mode) slot =
      locate r operand mode slot := by
  rw [test, Value.ofText?.eq_def (some r.tag)]
  simp only [Value.isNull, TestOperator.ofValue?, TestOperator.ofTag?_relation]
  cases mode <;> rfl

theorem test_unknown {tag : String} (h : TestOperator.ofTag? tag = none) (d : Draft) :
    test (.ofText? property) (.ofText? (some tag)) operand (.ofText? mode) slot d =
      ⟨d, [], .ok (.error (.unknownOperator tag))⟩ := by
  rw [test, Value.ofText?.eq_def (some tag)]
  simp only [Value.isNull, TestOperator.ofValue?, h]
  rfl

theorem compare_of_sign {o : Operator} (hsign : o.symbol?.isSome = true) (p : String)
    {text : String} (hoperand : operand.isNull = false) (htext : operand.queryText? = .ok text)
    (d : Draft) :
    compare (some p) o operand slot d =
      ⟨d.require (.comparison (Condition.attributeOf p) o text) slot, [], .ok (.ok ())⟩ := by
  obtain ⟨sign, hsign⟩ := Option.isSome_iff_exists.1 hsign
  have hcondition : Condition.ofComparison (some p) o operand =
      .ok (.ok (.comparison (Condition.attributeOf p) o text)) := by
    rw [Condition.ofComparison.eq_def, hsign]
    simp only [hoperand, htext]
    rfl
  rw [compare, hcondition]
  rfl

theorem compare_of_lacking {o : Operator} (hsign : o.symbol?.isSome = true)
    (h : property = none ∨ operand.isNull = true) (d : Draft) :
    compare property o operand slot d = ⟨d, [], .ok (.error (.missingOperand o))⟩ := by
  obtain ⟨sign, hsign⟩ := Option.isSome_iff_exists.1 hsign
  have hrefused : Condition.ofComparison property o operand = .ok (.error (.missingOperand o)) := by
    rw [Condition.ofComparison.eq_def, hsign]
    cases property with
    | none => rfl
    | some p => exact if_pos (h.resolve_left (by simp))
  rw [compare, hrefused]
  rfl

theorem compare_of_no_sign {o : Operator} (hsign : o.symbol? = none) (d : Draft) :
    compare property o operand slot d = ⟨d, [], .ok (.error (.unknownOperator o.tag))⟩ := by
  have hrefused : Condition.ofComparison property o operand =
      .ok (.error (.unknownOperator o.tag)) := by
    rw [Condition.ofComparison.eq_def, hsign]
  rw [compare, hrefused]
  rfl

theorem locate_of_ok {r : Relation} {c : Condition}
    (h : Condition.ofArea r operand mode = .ok (.ok c)) (d : Draft) :
    locate r operand mode slot d = ⟨d.require c slot, [], .ok (.ok ())⟩ := by
  rw [locate, h]
  rfl

theorem locate_of_refused {r : Relation} {refusal : Refusal}
    (h : Condition.ofArea r operand mode = .ok (.error refusal)) (d : Draft) :
    locate r operand mode slot d = ⟨d, [], .ok (.error refusal)⟩ := by
  rw [locate, h]
  rfl

/-- A test ends as its verdict says. -/
theorem Verdict.testIfAny_eq (hwritable : operand.isWritable = true)
    (h : Verdict draft? property operator operand mode slot kind? after) :
    ∃ answer, testIfAny (.ofText? property) (.ofText? operator) operand (.ofText? mode) slot
        draft? = ⟨after, [], .ok answer⟩ ∧ refusedAs answer = kind? := by
  cases h with
  | incomplete h =>
      refine ⟨.error .incomplete, ?_, rfl⟩
      cases draft? with
      | none => rfl
      | some d =>
          obtain rfl : operator = none := h.resolve_left (by simp)
          rfl
  | @lacking d o hd ho hsign h =>
      subst hd ho
      refine ⟨.error (.missingOperand o), ?_, rfl⟩
      exact testIfAny_of_test ((congrFun (test_operator o) d).trans (compare_of_lacking hsign h d))
  | @empty d r hd hr h =>
      subst hd hr
      have hrefused : Condition.ofArea r operand mode = .ok (.error .emptyArea) := by
        cases mode with
        | none => rfl
        | some m => simp [Condition.ofArea, h.resolve_left (by simp)]
      refine ⟨.error .emptyArea, ?_, rfl⟩
      exact testIfAny_of_test ((congrFun (test_relation r) d).trans (locate_of_refused hrefused d))
  | @unknownMode d r m hd hr harea hm h =>
      subst hd hr hm
      have hrefused : Condition.ofArea r operand (some m) = .ok (.error (.unknownMode m)) := by
        simp [Condition.ofArea, harea, Condition.polylineMode, h]
      refine ⟨.error (.unknownMode m), ?_, rfl⟩
      exact testIfAny_of_test ((congrFun (test_relation r) d).trans (locate_of_refused hrefused d))
  | @unknownOperator d tag hd htag hsign h =>
      subst hd htag
      refine ⟨.error (.unknownOperator tag), ?_, rfl⟩
      by_cases ho : ∃ o : Operator, o.tag = tag
      · obtain ⟨o, rfl⟩ := ho
        exact testIfAny_of_test
          ((congrFun (test_operator o) d).trans (compare_of_no_sign (hsign o rfl) d))
      · have hnone := TestOperator.ofTag?_eq_none (fun o ho' => ho ⟨o, ho'⟩) h
        exact testIfAny_of_test (test_unknown hnone d)
  | @compared d o p name text hd ho hsign hp hname h htext =>
      subst hd ho hp
      obtain rfl : Condition.attributeOf p = name := Condition.attributeOf_eq_iff.2 hname
      refine ⟨.ok (), ?_, rfl⟩
      exact testIfAny_of_test
        ((congrFun (test_operator o) d).trans (compare_of_sign hsign p h htext d))
  | @located d r first rest hd hr hm h =>
      subst hd hr hm h
      have hvertices : ∀ v ∈ first :: rest, v.isWritable = true := fun v hv =>
        List.all_eq_true.1 hwritable (.vertex v) (List.mem_map_of_mem hv)
      obtain ⟨answer, hanswer, hanswers⟩ :=
        (Exit.delivers_area r (some (first :: rest)) (some "polyline")).exists_ok hvertices
      obtain rfl : answer = .ok (.spatial r (Polygon.coords first rest)) := hanswers
      refine ⟨.ok (), ?_, rfl⟩
      exact testIfAny_of_test ((congrFun (test_relation r) d).trans (locate_of_ok hanswer d))

theorem exists_verdict_operator (d : Draft) (o : Operator) (property mode : Option String)
    (slot : Slot) (hwritable : operand.isWritable = true) :
    ∃ kind? after, Verdict (some d) property (some o.tag) operand mode slot kind? after := by
  by_cases hsign : o.symbol?.isSome = true
  · by_cases hlacking : property = none ∨ operand.isNull = true
    · exact ⟨_, _, .lacking rfl rfl hsign hlacking⟩
    · obtain ⟨p, rfl⟩ := Option.ne_none_iff_exists'.1 fun h => hlacking (.inl h)
      obtain ⟨text, htext⟩ := Operand.exists_queryText? hwritable
      have hnull : operand.isNull = false := by
        simpa using fun h : operand.isNull = true => hlacking (.inr h)
      exact ⟨_, _, .compared rfl rfl hsign rfl (Condition.attributeOf_eq_iff.1 rfl) hnull htext⟩
  · refine ⟨_, _, .unknownOperator rfl rfl ?_ ?_⟩
    · intro o' ho'
      rw [Operator.tag_injective ho']
      simpa using hsign
    · intro r hr
      have htag := TestOperator.ofTag?_relation r
      rw [hr, TestOperator.ofTag?_operator] at htag
      cases htag

theorem exists_verdict_relation (d : Draft) (r : Relation) (property mode : Option String)
    (slot : Slot) (hpoints : operand.isTruthy = true →
      ∃ vertices : List Vertex, operand = .line (vertices.map .vertex)) :
    ∃ kind? after, Verdict (some d) property (some r.tag) operand mode slot kind? after := by
  by_cases hempty : mode = none ∨ operand.isTruthy = false
  · exact ⟨_, _, .empty rfl rfl hempty⟩
  · obtain ⟨m, rfl⟩ := Option.ne_none_iff_exists'.1 fun h => hempty (.inl h)
    have harea : operand.isTruthy = true := by
      simpa using fun h : operand.isTruthy = false => hempty (.inr h)
    by_cases hm : m = "polyline"
    · subst hm
      obtain ⟨vertices, rfl⟩ := hpoints harea
      cases vertices with
      | nil => cases harea
      | cons first rest => exact ⟨_, _, .located rfl rfl rfl rfl⟩
    · exact ⟨_, _, .unknownMode rfl rfl harea rfl hm⟩

/-- There is a verdict on every test, if the area that it may ask for is drawn by points. -/
theorem exists_verdict (draft? : Option Draft) (property operator mode : Option String)
    (slot : Slot) (hwritable : operand.isWritable = true)
    (hpoints : ∀ r : Relation, operator = some r.tag → operand.isTruthy = true →
      ∃ vertices : List Vertex, operand = .line (vertices.map .vertex)) :
    ∃ kind? after, Verdict draft? property operator operand mode slot kind? after := by
  cases draft? with
  | none => exact ⟨_, _, .incomplete (.inl rfl)⟩
  | some d =>
      cases operator with
      | none => exact ⟨_, _, .incomplete (.inr rfl)⟩
      | some tag =>
          cases htag : TestOperator.ofTag? tag with
          | none =>
              refine ⟨_, _, .unknownOperator rfl rfl ?_ ?_⟩
              · rintro o rfl
                rw [TestOperator.ofTag?_operator] at htag
                cases htag
              · rintro r rfl
                rw [TestOperator.ofTag?_relation] at htag
                cases htag
          | some test =>
              obtain ⟨o, rfl, rfl⟩ | ⟨r, rfl, rfl⟩ := TestOperator.tag_of_ofTag? htag
              · exact exists_verdict_operator d o property mode slot hwritable
              · exact exists_verdict_relation d r property mode slot (hpoints r rfl)

theorem Verdict.eq_of_refused (h : Verdict draft? property operator operand mode slot kind? after)
    (hrefused : kind? ≠ none) : after = draft? := by
  cases h with
  | compared => exact absurd rfl hrefused
  | located => exact absurd rfl hrefused
  | _ => rfl

/-- A test gives an answer and nothing else: it ends in the one verdict that there is on it. If it
is refused, the draft is what it was before. -/
theorem testIfAny_ends_in_verdict (draft? : Option Draft) (property operator : Option String)
    (operand : Operand) (mode : Option String) (slot : Slot)
    (hwritable : operand.isWritable = true)
    (hpoints : ∀ r : Relation, operator = some r.tag → operand.isTruthy = true →
      ∃ vertices : List Vertex, operand = .line (vertices.map .vertex)) :
    ∃ answer after,
      testIfAny (.ofText? property) (.ofText? operator) operand (.ofText? mode) slot draft? =
        ⟨after, [], .ok answer⟩ ∧
      (∀ kind? after', Verdict draft? property operator operand mode slot kind? after' ↔
        kind? = refusedAs answer ∧ after' = after) ∧
      (refusedAs answer ≠ none → after = draft?) := by
  obtain ⟨kind?, after, hverdict⟩ :=
    exists_verdict draft? property operator mode slot hwritable hpoints
  obtain ⟨answer, hrun, rfl⟩ := hverdict.testIfAny_eq hwritable
  refine ⟨answer, after, hrun, fun kind? after' => ⟨fun hother => ?_, ?_⟩, fun hrefused => ?_⟩
  · obtain ⟨answer', hrun', rfl⟩ := hother.testIfAny_eq hwritable
    cases hrun.symm.trans hrun'
    exact ⟨rfl, rfl⟩
  · rintro ⟨rfl, rfl⟩
    exact hverdict
  · exact hverdict.eq_of_refused hrefused

/-- A property is compared that is projected but not watched. Then the second event has to be in an
area, of a rule that had one event so far. -/
theorem testIfAny_ends_in_verdict_heatInArea :
    let d : Draft := { projected := ["t"], device := { attributes := ["u"] } }
    let hot : Draft :=
      { projected := ["t"]
        device := { attributes := ["u", "t"] }
        pattern := .single [.comparison "t" .gt "5"] "" }
    let line : Operand := .line ([⟨.text "1", .text "2"⟩, ⟨.text "3", .text "4"⟩].map .vertex)
    testIfAny (.ofText? (some "payload.t")) (.ofText? (some "gt")) (.literal (.text "5"))
        (.ofText? none) .fixed (some d) = ⟨some hot, [], .ok (.ok ())⟩ ∧
    line.isWritable = true ∧ line.isTruthy = true ∧
    testIfAny (.ofText? none) (.ofText? (some "coveredBy")) line (.ofText? (some "polyline"))
        .second (some hot) =
      ⟨some { hot with
        pattern := .paired [.comparison "t" .gt "5"]
          [.comparison "t" .gt "5", .spatial .coveredBy "1,2;3,4;1,2"] "" "" },
        [], .ok (.ok ())⟩ := by
  intro d hot line
  have haccepted {answer : Except Refusal Unit} (h : none = refusedAs answer) :
      answer = .ok () := by
    cases answer with
    | ok _ => rfl
    | error refusal => cases h
  refine ⟨?_, rfl, rfl, ?_⟩
  · obtain ⟨answer, after, hrun, hverdict, -⟩ :=
      testIfAny_ends_in_verdict (some d) (some "payload.t") (some "gt") (.literal (.text "5")) none
        .fixed rfl fun r hr _ => absurd hr (by cases r <;> decide)
    have hcut : ∃ segment, '.' ∉ segment ∧ "payload.t".toList = segment ++ '.' :: "t".toList :=
      ⟨"payload".toList, by decide, by decide⟩
    obtain ⟨hanswer, rfl⟩ :=
      (hverdict _ _).1 (.compared (o := .gt) rfl rfl rfl rfl (.inl hcut) rfl rfl)
    rw [hrun, haccepted hanswer]
    rfl
  · obtain ⟨answer, after, hrun, hverdict, -⟩ :=
      testIfAny_ends_in_verdict (some hot) none (some "coveredBy") line (some "polyline") .second
        rfl fun _ _ _ => ⟨_, rfl⟩
    obtain ⟨hanswer, rfl⟩ := (hverdict _ _).1 (.located (r := .coveredBy) rfl rfl rfl rfl)
    rw [hrun, haccepted hanswer]
    rfl

end Draft

end EventFlow
