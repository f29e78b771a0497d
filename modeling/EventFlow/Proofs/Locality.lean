import EventFlow.Proofs.Listing
import EventFlow.Proofs.Otherwise

/-!
What a rule that no draft can leave by does to the rest of a flow.

A rule that is refused closes its own way out. The ways by other rules do not know of it, with the
exception of an otherwise rule, which demands its negation: where that is refused too, the otherwise
rule is closed along with it, unless another rule closes it already (`ofRule_eraseIdx_iff`). If it
makes no such difference, the rule can be dropped together with its outlet, and whatever is
extracted from the graph stays the same (`extract_dropRule`).
-/

namespace EventFlow

/-! ### Ways out without a rule -/

namespace Branch

variable {rules : List Branch} {rule : Branch}

def NegationFails (property : String) (rule : Branch) : Prop :=
  ∃ e, Condition.ofComparisons property rule.negations = .error e

/-- What a rule does to an otherwise rule, one of the rest does as well: it keeps it from being
written, or it closes it. -/
structure IsCovered (property : String) (rule : Branch) (rest : List Branch) : Prop where
  fails : rule.NegationFails property → ∃ sibling ∈ rest, sibling.NegationFails property
  closes : rule.isNegatable = false →
    ∃ sibling ∈ rest, sibling.isNegatable = false ∨ sibling.NegationFails property

/-- No otherwise rule is hindered by a rule more than by the rest. -/
def IsLocal (property : String) (rule : Branch) (rest : List Branch) : Prop :=
  (∃ other ∈ rest, other.IsOtherwise) → rule.IsCovered property rest

/-- A rule that has what its negation compares with is passable, if there is a negation. -/
theorem negations_of_not_isPassable (h : rule.isPassable rules = false)
    (hnegatable : rule.isNegatable = true) : rule.negations = [] := by
  by_cases hcompares : rule.IsOrdering ∨ rule.IsRange
  · rw [(isPassable_of_compares hcompares rules).1, hnegatable] at h
    cases h
  · rw [not_or, IsOrdering, IsRange] at hcompares
    rw [negations]
    cases ho : Operator.ofTag? rule.tag with
    | none => rfl
    | some operator => cases operator <;> simp_all [Operator.negated?]

end Branch

namespace Exit

variable {node property : String} {rules before after : List Branch} {rule other : Branch}

/-- The negations are all written before any of them is judged. -/
theorem ofRule_otherwise (ho : other.IsOtherwise) : ofRule node property rules other = (do
    let outcomes ← Run.each rules fun sibling => (do
      return requireAll .fixed (← Run.ofExcept (Condition.ofComparisons property sibling.negations)))
    judge node (outcomes ++ [.ok (if property = "" then []
      else [.observe (Condition.attributeOf property)])])) := by
  rw [Branch.IsOtherwise] at ho
  simp only [ofRule, ho]

/-- A refusal is no failure. -/
theorem exists_outcome_judge (node : String) (outcomes : List (Except Refusal (List Step))) :
    ∃ way, (judge node outcomes).outcome = .ok way := by
  have hall : List.Forall₂ (fun test => Condition.Answers test.1 test.2)
      (outcomes.map fun outcome => (outcome.isOk, outcome.toOption.getD [])) outcomes := by
    rw [List.forall₂_map_left_iff, List.forall₂_same]
    intro outcome _
    cases outcome with
    | ok steps => rfl
    | error refusal => exact ⟨refusal, rfl⟩
  exact ⟨_, outcome_judge node hall⟩

/-- Only what cannot be written makes an otherwise rule fail. -/
theorem outcome_otherwise_of_fails (ho : other.IsOtherwise)
    (h : ∃ sibling ∈ rules, sibling.NegationFails property) :
    (ofRule node property rules other).outcome = .error .overlong := by
  obtain ⟨way, hway, -⟩ | ⟨herror, -⟩ := delivers_written node property rules other
  · obtain ⟨sibling, hsibling, e, he⟩ := h
    rw [ofRule_otherwise ho] at hway
    obtain ⟨outcomes, houtcomes, -⟩ := Run.exists_of_outcome_bind hway
    rw [Run.outcome_each] at houtcomes
    obtain ⟨outcome, houtcome⟩ := Run.exists_ok_of_mapM houtcomes sibling hsibling
    rw [Run.outcome_bind, Run.outcome_ofExcept, he] at houtcome
    cases houtcome
  · exact herror

theorem outcome_otherwise_of_not_fails (ho : other.IsOtherwise)
    (h : ∀ sibling ∈ rules, ¬ sibling.NegationFails property) :
    (ofRule node property rules other).outcome =
      .ok (if rules.all Branch.isNegatable then some (other.steps property rules) else none) := by
  obtain ⟨way, hway, hpassable⟩ | ⟨herror, -⟩ := delivers_written node property rules other
  · rw [hway, hpassable, ho.isPassable_eq]
  · rw [ofRule_otherwise ho, Run.outcome_bind, Run.outcome_each] at herror
    cases houtcomes : rules.mapM (fun sibling => Run.outcome (ε := Failure) do
        return requireAll .fixed
          (← Run.ofExcept (Condition.ofComparisons property sibling.negations))) with
    | error e =>
        obtain ⟨i, sibling, hsibling, he, -⟩ := Run.mapM_eq_error_iff.1 houtcomes
        cases hanswer : Condition.ofComparisons property sibling.negations with
        | error e => exact absurd ⟨e, hanswer⟩ (h sibling (List.mem_of_getElem? hsibling))
        | ok answer =>
            rw [Run.outcome_bind, Run.outcome_ofExcept, hanswer] at he
            cases he
    | ok outcomes =>
        obtain ⟨way, hway⟩ := exists_outcome_judge node (outcomes ++ [.ok (if property = "" then []
          else [.observe (Condition.attributeOf property)])])
        rw [houtcomes] at herror
        cases hway.symm.trans herror

/-- The way out by a rule that is no otherwise rule does not depend on the others. -/
theorem ofRule_congr (ho : ¬ other.IsOtherwise) (rules rules' : List Branch) :
    ofRule node property rules other = ofRule node property rules' other := by
  rw [ofRule, ofRule]
  cases htag : Operator.ofTag? other.tag with
  | none => rfl
  | some operator =>
      cases operator with
      | otherwise => exact absurd htag ho
      | _ => rfl

theorem not_isPassable_of_closed (h : (ofRule node property rules rule).outcome = .ok none) :
    rule.isPassable rules = false := by
  have hway := (delivers_written node property rules rule).of_ok h
  cases hpassable : rule.isPassable rules with
  | false => rfl
  | true =>
      rw [hpassable] at hway
      cases hway

theorem mem_middle {sibling : Branch} :
    sibling ∈ before ++ rule :: after ↔ sibling = rule ∨ sibling ∈ before ++ after :=
  List.perm_middle.mem_iff.trans List.mem_cons

/-- If nothing in the rest fails, and a rule only where something in the rest does, nothing does. -/
theorem not_fails_middle
    (hfails : rule.NegationFails property →
      ∃ sibling ∈ before ++ after, sibling.NegationFails property)
    (h : ∀ sibling ∈ before ++ after, ¬ sibling.NegationFails property) :
    ∀ sibling ∈ before ++ rule :: after, ¬ sibling.NegationFails property := by
  intro sibling hsibling hsiblingFails
  obtain rfl | hsibling := mem_middle.1 hsibling
  · obtain ⟨other, hother, hotherFails⟩ := hfails hsiblingFails
    exact h other hother hotherFails
  · exact h sibling hsibling hsiblingFails

/-- An otherwise rule has the same way out without a closed rule that the rest covers. -/
theorem outcome_otherwise_eq (ho : other.IsOtherwise)
    (hclosed : rule.isPassable (before ++ rule :: after) = false)
    (hcovered : rule.IsCovered property (before ++ after)) :
    (ofRule node property (before ++ after) other).outcome =
      (ofRule node property (before ++ rule :: after) other).outcome := by
  by_cases hsome : ∃ sibling ∈ before ++ after, sibling.NegationFails property
  · have hsome' : ∃ sibling ∈ before ++ rule :: after, sibling.NegationFails property := by
      obtain ⟨sibling, hsibling, h⟩ := hsome
      exact ⟨sibling, mem_middle.2 (.inr hsibling), h⟩
    rw [outcome_otherwise_of_fails ho hsome, outcome_otherwise_of_fails ho hsome']
  · have hnone : ∀ sibling ∈ before ++ after, ¬ sibling.NegationFails property :=
      fun sibling hsibling h => hsome ⟨sibling, hsibling, h⟩
    rw [outcome_otherwise_of_not_fails ho hnone,
      outcome_otherwise_of_not_fails ho (not_fails_middle hcovered.fails hnone)]
    cases hnegatable : rule.isNegatable with
    | true =>
        -- With a negation that can be demanded the rule would be passable, so it has none.
        have hnegations := Branch.negations_of_not_isPassable hclosed hnegatable
        rw [Branch.IsOtherwise] at ho
        simp [Branch.steps, ho, hnegations, hnegatable]
    | false =>
        obtain ⟨sibling, hsibling, hrefused | h⟩ := hcovered.closes hnegatable
        · have hall : (before ++ after).all Branch.isNegatable = false :=
            List.all_eq_false.2 ⟨sibling, hsibling, by simp [hrefused]⟩
          have hall' : (before ++ rule :: after).all Branch.isNegatable = false :=
            List.all_eq_false.2 ⟨sibling, mem_middle.2 (.inr hsibling), by simp [hrefused]⟩
          rw [hall, hall']
          rfl
        · exact absurd h (hnone sibling hsibling)

/-- An otherwise rule has the same way out without a rule only if the rest covers that rule. -/
theorem isCovered_of_outcome_eq (ho : other.IsOtherwise)
    (h : (ofRule node property (before ++ after) other).outcome =
      (ofRule node property (before ++ rule :: after) other).outcome) :
    rule.IsCovered property (before ++ after) := by
  have hfails : rule.NegationFails property →
      ∃ sibling ∈ before ++ after, sibling.NegationFails property := by
    intro hrule
    by_contra hnone
    rw [outcome_otherwise_of_not_fails ho fun sibling hsibling h => hnone ⟨sibling, hsibling, h⟩,
      outcome_otherwise_of_fails ho ⟨rule, mem_middle.2 (.inl rfl), hrule⟩] at h
    cases h
  refine ⟨hfails, fun hrule => ?_⟩
  by_contra hnone
  have hnot : ∀ sibling ∈ before ++ after, ¬ sibling.NegationFails property :=
    fun sibling hsibling h => hnone ⟨sibling, hsibling, .inr h⟩
  have hall : (before ++ after).all Branch.isNegatable = true :=
    List.all_eq_true.2 fun sibling hsibling => by
      by_contra hrefused
      exact hnone ⟨sibling, hsibling, .inl (by simpa using hrefused)⟩
  have hall' : (before ++ rule :: after).all Branch.isNegatable = false :=
    List.all_eq_false.2 ⟨rule, mem_middle.2 (.inl rfl), by simp [hrule]⟩
  rw [outcome_otherwise_of_not_fails ho hnot,
    outcome_otherwise_of_not_fails ho (not_fails_middle hfails hnot), hall, hall'] at h
  cases h

/-- A closed rule can be dropped without a difference to the other ways out exactly if it does not
hinder an otherwise rule more than the rest. -/
theorem ofRule_eraseIdx_iff {i : Nat} (hrule : rules[i]? = some rule)
    (hclosed : (ofRule node property rules rule).outcome = .ok none) :
    (∀ other ∈ rules.eraseIdx i, (ofRule node property (rules.eraseIdx i) other).outcome =
      (ofRule node property rules other).outcome) ↔
      rule.IsLocal property (rules.eraseIdx i) := by
  obtain ⟨hi, hget⟩ := List.getElem?_eq_some_iff.1 hrule
  have hsplit : rules = rules.take i ++ rule :: rules.drop (i + 1) := by
    rw [← hget, List.getElem_cons_drop, List.take_append_drop]
  have hclosed := not_isPassable_of_closed hclosed
  rw [List.eraseIdx_eq_take_drop_succ]
  generalize rules.take i = before, rules.drop (i + 1) = after at hsplit ⊢
  subst hsplit
  constructor
  · rintro h ⟨other, hother, ho⟩
    exact isCovered_of_outcome_eq ho (h other hother)
  · intro hlocal other hother
    by_cases ho : other.IsOtherwise
    · exact outcome_otherwise_eq ho hclosed (hlocal ⟨other, hother, ho⟩)
    · rw [ofRule_congr ho]

end Exit

/-! ### Graphs without a rule -/

/-- What has no result can be left out where only results are gathered. -/
theorem Run.mapM_eraseIdx_bind {ε α β : Type} {xs : List (Except ε (Option α))} {i : Nat}
    (h : xs[i]? = some (.ok none)) (k : List α → Except ε β) :
    ((xs.eraseIdx i).mapM id >>= fun ys => k (ys.filterMap id)) =
      xs.mapM id >>= fun ys => k (ys.filterMap id) := by
  induction xs generalizing i k with
  | nil => cases h
  | cons x rest ih =>
      rw [List.mapM_cons, LawfulMonad.bind_assoc]
      cases i with
      | zero =>
          obtain rfl : x = .ok none := Option.some.inj h
          rw [List.eraseIdx_cons_zero]
          cases rest.mapM id with
          | error e => rfl
          | ok ys => rfl
      | succ i =>
          rw [List.eraseIdx_cons_succ, List.mapM_cons, LawfulMonad.bind_assoc]
          cases x with
          | error e => rfl
          | ok y =>
              have hrest := ih h fun ys => k (y.toList ++ ys)
              simp only [id, LawfulMonad.pure_bind, LawfulMonad.bind_assoc]
              cases y with
              | none => exact hrest
              | some y => exact hrest

namespace Node

/-- The node without a rule and the outlet that the rule leads to, if it is the switch with the
given id. -/
def dropRule (id : String) (i : Nat) (n : Node) : Node :=
  if n.id = id then
    match n.kind with
    | .switch property rules =>
      { n with wires := n.wires.eraseIdx i, kind := .switch property (rules.eraseIdx i) }
    | _ => n
  else n

variable {n : Node} {id property : String} {rules : List Branch} {i : Nat}

theorem dropRule_of_ne (h : n.id ≠ id) : n.dropRule id i = n :=
  if_neg h

theorem dropRule_of_switch (h : n.kind = .switch property rules) :
    n.dropRule n.id i =
      { n with wires := n.wires.eraseIdx i, kind := .switch property (rules.eraseIdx i) } := by
  rw [dropRule, if_pos rfl, h]

theorem dropRule_cases (n : Node) (id : String) (i : Nat) : n.dropRule id i = n ∨
    ∃ property rules, n.kind = .switch property rules ∧ n.dropRule id i =
      { n with wires := n.wires.eraseIdx i, kind := .switch property (rules.eraseIdx i) } := by
  rw [dropRule]
  split
  · split
    · next property rules hkind => exact .inr ⟨property, rules, hkind, rfl⟩
    · exact .inl rfl
  · exact .inl rfl

theorem id_dropRule (n : Node) (id : String) (i : Nat) : (n.dropRule id i).id = n.id := by
  obtain h | ⟨_, _, _, h⟩ := dropRule_cases n id i <;> rw [h]

theorem map_id_dropRule (nodes : List Node) (id : String) (i : Nat) :
    (nodes.map (dropRule id i)).map Node.id = nodes.map Node.id := by
  rw [List.map_map]
  exact List.map_congr_left fun n _ => n.id_dropRule id i

theorem mem_wires_dropRule {outlet : List String} (h : outlet ∈ (n.dropRule id i).wires) :
    outlet ∈ n.wires := by
  obtain heq | ⟨_, _, _, heq⟩ := dropRule_cases n id i
  · rwa [heq] at h
  · rw [heq] at h
    exact List.mem_of_mem_eraseIdx h

theorem ofNode?_dropRule (settings : Settings) (n : Node) (id : String) (i : Nat) :
    Action.ofNode? settings (n.dropRule id i) = Action.ofNode? settings n := by
  obtain h | ⟨_, _, hkind, h⟩ := dropRule_cases n id i
  · rw [h]
  · rw [h, Action.ofNode?, Action.ofNode?, hkind]
    rfl

end Node

namespace Graph

variable {g : Graph} {settings : Settings} {id property : String} {rules : List Branch} {i : Nat}

def dropRule (g : Graph) (id : String) (i : Nat) : Graph where
  nodes := g.nodes.map (Node.dropRule id i)
  distinct := by
    rw [Node.map_id_dropRule]
    exact g.distinct
  wired := by
    rw [Node.map_id_dropRule]
    intro n' hn' outlet houtlet target htarget
    obtain ⟨n, hn, rfl⟩ := List.mem_map.1 hn'
    exact g.wired n hn outlet (Node.mem_wires_dropRule houtlet) target htarget

theorem mem_dropRule {n : Node} (h : n ∈ g.nodes) : n.dropRule id i ∈ (g.dropRule id i).nodes :=
  List.mem_map_of_mem h

theorem find?_dropRule (g : Graph) (id : String) (i : Nat) (target : String) :
    (g.dropRule id i).find? target = (g.find? target).map (Node.dropRule id i) := by
  have hid : ((·.id == target) ∘ Node.dropRule id i) = fun n : Node => n.id == target :=
    funext fun n => congrArg (· == target) (n.id_dropRule id i)
  rw [find?, find?, dropRule, List.find?_map, hid]

/-- The ways out of a switch that has lost a rule are the other ones. -/
theorem map_leave_dropRule {switch : Node} {path : List String}
    (hkind : switch.kind = .switch property rules)
    (hsame : ∀ other ∈ rules.eraseIdx i,
      (Exit.ofRule switch.id property (rules.eraseIdx i) other).outcome =
        (Exit.ofRule switch.id property rules other).outcome)
    (henter : ∀ target, (g.dropRule switch.id i).enter settings (path ++ [switch.id]) target =
      g.enter settings (path ++ [switch.id]) target) :
    (switch.dropRule switch.id i).exits.map
        ((g.dropRule switch.id i).leave settings path (switch.dropRule switch.id i)) =
      (switch.exits.map (g.leave settings path switch)).eraseIdx i := by
  rw [Node.dropRule_of_switch hkind, Node.exits, Node.exits, hkind]
  refine List.ext_getElem? fun j => ?_
  -- Behind the rule that is dropped, rules and outlets move up by one place.
  let k := if j < i then j else j + 1
  have hget {α : Type} (xs : List α) : (xs.eraseIdx i)[j]? = xs[k]? := by
    rw [List.getElem?_eraseIdx, apply_ite (xs[·]?)]
  rw [hget]
  simp only [List.getElem?_map, List.getElem?_mapIdx, hget]
  cases hother : rules[k]? with
  | none => rfl
  | some other =>
      have hmem : other ∈ rules.eraseIdx i := List.mem_of_getElem? ((hget rules).trans hother)
      refine congrArg some (leave_congr rfl rfl (hsame other hmem) ?_ henter)
      simp only [Node.outlet, List.getD_eq_getElem?_getD, hget]

/-- Entering at an id comes to the same after a closed rule is dropped. -/
theorem enter_dropRule {switch : Node} {rule : Branch} (hswitch : switch ∈ g.nodes)
    (hkind : switch.kind = .switch property rules) (hrule : rules[i]? = some rule)
    (hclosed : (Exit.ofRule switch.id property rules rule).outcome = .ok none)
    (hlocal : rule.IsLocal property (rules.eraseIdx i)) (settings : Settings) (path : List String)
    (target : String) :
    (g.dropRule switch.id i).enter settings path target = g.enter settings path target := by
  -- Dropping a rule keeps the ids, so it is enough to count in the whole graph.
  induction hr : g.remaining path using Nat.strongRecOn generalizing path target with
  | ind r ih =>
      subst hr
      have hfind := g.find?_dropRule switch.id i target
      cases hm : g.find? target with
      | none =>
          rw [hm] at hfind
          rw [enter_eq_of_none hm, enter_eq_of_none hfind]
      | some m =>
          rw [hm] at hfind
          have hid := m.id_dropRule switch.id i
          have haction := Node.ofNode?_dropRule settings m switch.id i
          rw [enter_eq hm, enter_eq hfind]
          by_cases hpath : m.id ∈ path
          · rw [outcome_unfold_of_mem _ hpath, outcome_unfold_of_mem _ (hid ▸ hpath), hid]
          · cases ha : Action.ofNode? settings m with
            | some action =>
                rw [outcome_unfold_sink _ hpath ha,
                  outcome_unfold_sink _ (hid ▸ hpath) (haction.trans ha)]
            | none =>
                have hnext (next : String) :
                    (g.dropRule switch.id i).enter settings (path ++ [m.id]) next =
                      g.enter settings (path ++ [m.id]) next :=
                  ih _ (remaining_append_lt (mem_of_find? hm) hpath) _ next rfl
                rw [outcome_unfold_pass _ hpath ha,
                  outcome_unfold_pass _ (hid ▸ hpath) (haction.trans ha)]
                by_cases hmid : m.id = switch.id
                · obtain rfl : m = switch :=
                    List.inj_on_of_nodup_map g.distinct (mem_of_find? hm) hswitch hmid
                  have hsame := (Exit.ofRule_eraseIdx_iff hrule hclosed).2 hlocal
                  have hnone : (m.exits.map (g.leave settings path m))[i]? = some (.ok none) := by
                    rw [Node.exits, hkind]
                    simp only [List.getElem?_map, List.getElem?_mapIdx, hrule, Option.map_some,
                      leave, hclosed]
                    rfl
                  have hways := Run.mapM_eraseIdx_bind hnone fun ways =>
                    .ok (Walk.pass false [] ways)
                  rw [← map_leave_dropRule hkind hsame hnext, List.mapM_map, List.mapM_map] at hways
                  exact hways
                · rw [Node.dropRule_of_ne hmid]
                  rw [Run.mapM_congr fun exit _ => leave_congr rfl rfl rfl rfl hnext]

/-- A rule that no draft can leave by can be dropped together with its outlet: if it does not hinder
an otherwise rule more than the rest, which is exactly if no other way out of the switch changes,
then all that is extracted from the graph stays the same. -/
theorem extract_dropRule {switch : Node} {rule : Branch} (hswitch : switch ∈ g.nodes)
    (hkind : switch.kind = .switch property rules) (hrule : rules[i]? = some rule)
    (hclosed : (Exit.ofRule switch.id property rules rule).outcome = .ok none) :
    (rule.IsLocal property (rules.eraseIdx i) ↔ ∀ other ∈ rules.eraseIdx i,
      (Exit.ofRule switch.id property (rules.eraseIdx i) other).outcome =
        (Exit.ofRule switch.id property rules other).outcome) ∧
    (rule.IsLocal property (rules.eraseIdx i) →
      ∀ (settings : Settings) (n : Node) (hn : n ∈ g.nodes) (d : Draft) (shelf : Shelf),
        ((g.dropRule switch.id i).extract settings (n.dropRule switch.id i) (mem_dropRule hn) d
          shelf).outcome = (g.extract settings n hn d shelf).outcome) := by
  refine ⟨(Exit.ofRule_eraseIdx_iff hrule hclosed).symm, fun hlocal settings n hn d shelf => ?_⟩
  have henter := enter_dropRule hswitch hkind hrule hclosed hlocal settings [] n.id
  have hmem : n.dropRule switch.id i ∈ (g.dropRule switch.id i).nodes := mem_dropRule hn
  have hfind := find?_of_mem hmem
  rw [Node.id_dropRule] at hfind
  rw [enter_eq hfind, enter_eq (find?_of_mem hn)] at henter
  rw [outcome_extract, outcome_extract, henter]

def threeRules (tag : String) : List Branch :=
  [{ tag }, { tag := "gt", value := .text "5" }, { tag := "else" }]

def threeWays (tag : String) : Node :=
  ⟨"w", "switch", "", [["h"], ["h"], ["h"]], .switch "payload.t" (threeRules tag)⟩

def recorded (tag : String) : Graph where
  nodes := [threeWays tag, ⟨"h", "history", "", [], .history⟩]
  distinct := by simp [threeWays]
  wired := by simp [threeWays]

theorem mem_recorded (tag : String) : threeWays tag ∈ (recorded tag).nodes :=
  List.mem_cons_self

def conditionsOf (extracted : Except Failure (Shelf × List Carried)) :
    Except Failure (List (List Condition)) :=
  extracted.map fun result => result.2.map fun c => (c.settle result.1).pattern.conditions .fixed

/-- A text that is not given closes no way out but its own, as there is no opposite to demand. -/
theorem extract_dropRule_withoutText :
    (Exit.ofRule "w" "payload.t" (threeRules "cont") { tag := "cont" }).outcome = .ok none ∧
    (((recorded "cont").dropRule "w" 0).extract {} ((threeWays "cont").dropRule "w" 0)
        (mem_dropRule (mem_recorded "cont")) {} []).outcome =
      ((recorded "cont").extract {} (threeWays "cont") (mem_recorded "cont") {} []).outcome ∧
    conditionsOf
        ((recorded "cont").extract {} (threeWays "cont") (mem_recorded "cont") {} []).outcome =
      .ok [[.comparison "t" .gt "5"], [.comparison "t" .lte "5"]] := by
  have hclosed :
      (Exit.ofRule "w" "payload.t" (threeRules "cont") { tag := "cont" }).outcome = .ok none := rfl
  have hlocal : Branch.IsLocal "payload.t" { tag := "cont" } ((threeRules "cont").eraseIdx 0) := by
    refine fun _ => ⟨?_, fun hrefused => by cases hrefused⟩
    rintro ⟨e, he⟩
    cases he
  have hdrop := extract_dropRule (i := 0) (mem_recorded "cont") rfl rfl hclosed
  exact ⟨hclosed, hdrop.2 hlocal {} _ (mem_recorded "cont") {} [], by with_unfolding_all rfl⟩

/-- A bound that is not given closes the otherwise rule as well: only without its rule is there a
draft for what does not exceed the other bound. -/
theorem conditions_extract_withoutBound :
    (Exit.ofRule "w" "payload.t" (threeRules "lt") { tag := "lt" }).outcome = .ok none ∧
    conditionsOf ((recorded "lt").extract {} (threeWays "lt") (mem_recorded "lt") {} []).outcome =
      .ok [[.comparison "t" .gt "5"]] ∧
    conditionsOf (((recorded "lt").dropRule "w" 0).extract {} ((threeWays "lt").dropRule "w" 0)
        (mem_dropRule (mem_recorded "lt")) {} []).outcome =
      .ok [[.comparison "t" .gt "5"], [.comparison "t" .lte "5"]] :=
  ⟨rfl, by with_unfolding_all rfl, by with_unfolding_all rfl⟩

end Graph

end EventFlow
