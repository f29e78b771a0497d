import EventFlow.Draft

/-!
Walks: what a traversal of a flow does to the drafts it carries.

A walk is a tree. It branches where a node lets a draft take several ways, and ends at sinks. How a
flow unfolds into a walk is decided by its nodes alone; a draft is only carried along, changed by
the steps on its way.

An exit leads out of a node through one outlet; one that is closed reports why. The walk follows the
wires of every open exit. It carries the ids of the nodes behind it, and fails when it comes back to
one of them. As the ids on the path are distinct and belong to nodes of the graph, the nodes that
are not on it become fewer with each wire; this is why unfolding ends.
-/

namespace EventFlow

/-- Names an object that a change rule holds, by node and rule. -/
structure LiteralKey where
  node : String
  rule : Nat
deriving DecidableEq, Repr

inductive Step where
  /-- Takes over the device of a source. -/
  | listen (type id : String)
  | require (c : Condition) (slot : Slot)
  /-- Watches an attribute without projecting it. -/
  | observe (attr : String)
  | store (path : String) (v : Value)
  /-- Stores the object that a change rule holds. -/
  | share (path : String) (key : LiteralKey) (fields : Fields Value)

namespace Step

def apply (d : Draft) : Step → Draft
  | .listen type id => { d with device := { d.device with type := type, id := id } }
  | .require c slot => d.require c slot
  | .observe attr => d.addAttribute attr
  | .store path v => { d with memory := d.memory.set path v }
  | .share path _ fields => { d with memory := d.memory.set path (.object fields) }

end Step

inductive Walk where
  /-- A sink completes the draft. -/
  | sink (action : Action)
  /-- Some steps, and the ways on. `copied` says that the steps change a copy of the draft that
  arrives. -/
  | pass (copied : Bool) (steps : List Step) (next : List Walk)

/-! ### What a change rule stores -/

namespace Change

def placeholder (path : String) : String :=
  "\x7b\x7b" ++ path ++ "\x7d\x7d"

def numberOrText (s : String) : Value :=
  match Numeral.integer? s with
  | some n => .int n
  | none =>
    match Numeral.float? s with
    | some x => .float x
    | none => .text s

/-- Whether a text is the word for true; only the letters of the word itself have it as their lower
case. -/
def isTrueWord (s : String) : Bool :=
  ((Text.trim s).toList.map Char.toLower) == "true".toList

/-- The value to store: a text is understood as the value type says; any other value, and a text of
any other type, is stored as it is. A reference to a message field is stored as a template. -/
def stored (rule : Change) : Traced Failure Value :=
  match rule.valueType, rule.value with
  | "msg", v => do return .text (placeholder (← Run.ofExcept v.display?))
  | "num", .text s => pure (numberOrText s)
  | "bool", .text s => pure (.bool (isTrueWord s))
  | "json", .text s =>
    match Value.read s with
    | .ok v => pure v
    | .error .overlong => Run.fail .overlong
    | .error .malformed => do
      Run.warn ("Change rule for '" ++ rule.path ++ "' holds invalid JSON, kept as text")
      return .text s
  | _, v => pure v

end Change

/-! ### The ways out of a node -/

structure Exit where
  outlet : Nat
  /-- Each draft that leaves is a copy of the one that arrived. -/
  copied : Bool
  /-- The steps of an open exit; `none` if it is closed. -/
  steps : Traced Failure (Option (List Step))

namespace Exit

/-- Reports the refusals among the outcomes of tests. The exit is open if there is none. -/
def judge (id : String) (outcomes : List (Except Refusal (List Step))) :
    Traced Failure (Option (List Step)) := do
  let refusals := outcomes.filterMap fun
    | .error refusal => some refusal
    | .ok _ => none
  let _ ← Run.each refusals fun refusal =>
    Run.warn ("Node '" ++ id ++ "': branch dropped, " ++ refusal.kind ++ ": " ++ refusal.message)
  if refusals.isEmpty then
    return some (outcomes.flatMap fun
      | .ok steps => steps
      | .error _ => [])
  else return none

def requireAll (slot : Slot) (outcome : Except Refusal (List Condition)) :
    Except Refusal (List Step) :=
  outcome.map fun cs => cs.map (.require · slot)

/-- The bounds of a range as one literal, null if one of them is. -/
def bounds (rule : Branch) : Except Failure Value :=
  if rule.value.isNull || rule.upper.isNull then .ok .null
  else do return .text ((← rule.value.display?) ++ ".." ++ (← rule.upper.display?))

/-- What a draft must meet to leave a switch by a rule. The otherwise rule demands that no rule
holds, and watches the property even if that demands nothing. -/
def ofRule (id property : String) (rules : List Branch) (rule : Branch) :
    Traced Failure (Option (List Step)) :=
  let comparisons := fun tests => do
    return requireAll .fixed (← Run.ofExcept (Condition.ofComparisons property tests))
  match Operator.ofTag? rule.tag with
  | none => do
    Run.warn ("Switch '" ++ id ++ "': unsupported operator '" ++ rule.tag ++ "', no branch")
    return none
  | some .between => do
    judge id [← comparisons [(.eq, ← Run.ofExcept (bounds rule))]]
  | some .otherwise => do
    let outcomes ← Run.each rules fun sibling => comparisons sibling.negations
    let watched : List Step :=
      if property = "" then [] else [.observe (Condition.attributeOf property)]
    judge id (outcomes ++ [.ok watched])
  | some operator => do
    judge id [← comparisons [(operator, rule.value)]]

/-- What a draft must meet to leave an edge detection by a rule: one side of the threshold first,
the other side second. -/
def ofEdge (id property : String) (rule : Branch) : Traced Failure (Option (List Step)) :=
  match Edge.ofTag? rule.tag with
  | none => do
    Run.warn ("Edge detection '" ++ id ++ "': unknown rule '" ++ rule.tag ++ "', no branch")
    return none
  | some edge => do
    let before ← Run.ofExcept (Condition.ofComparisons property [(edge.before, rule.value)])
    let after ← Run.ofExcept (Condition.ofComparisons property [(edge.after, rule.value)])
    judge id [requireAll .first before, requireAll .second after]

def ofArea (id : String) (points : Option (List Vertex)) (mode filter : Option String) :
    Traced Failure (Option (List Step)) :=
  match filter.bind Filter.ofTag? with
  | none => do
    Run.warn ("Geofence '" ++ id ++ "': unsupported filter '" ++ filter.getD "None" ++
      "', branch dropped")
    return none
  | some f => do
    let operand := match points with
      | none => Operand.literal .null
      | some vertices => .line (vertices.map .vertex)
    let outcomes ← Run.each f.tests fun (slot, relation) => do
      let outcome ← Run.ofExcept (Condition.ofArea relation operand mode)
      return requireAll slot (outcome.map ([·]))
    judge id outcomes

def ofChange (id : String) (index : Nat) (rule : Change) : Traced Failure (List Step) :=
  if rule.tag = "set" then do
    match rule.value, ← rule.stored with
    | .object _, .object fields => return [.share rule.path ⟨id, index⟩ fields]
    | _, v => return [.store rule.path v]
  else do
    Run.debug ("Change '" ++ id ++ "': ignoring '" ++ rule.tag ++ "' rule on '" ++ rule.path ++ "'")
    return []

end Exit

namespace Node

def exits (n : Node) : List Exit :=
  match n.kind with
  | .source deviceId deviceType => [⟨0, true, pure (some [.listen deviceType deviceId])⟩]
  | .switch property rules =>
    rules.mapIdx fun i rule => ⟨i, true, Exit.ofRule n.id property rules rule⟩
  | .edge property rules => rules.mapIdx fun i rule => ⟨i, true, Exit.ofEdge n.id property rule⟩
  | .geofence points mode filter => [⟨0, false, Exit.ofArea n.id points mode filter⟩]
  | .change rules =>
    [⟨0, false, do
      let steps ← Run.each rules.zipIdx fun (rule, i) => Exit.ofChange n.id i rule
      return some steps.flatten⟩]
  | .template field template => [⟨0, false, pure (some [.store field (.text template)])⟩]
  | .update .. | .post .. | .email .. | .history | .unsupported => []

end Node

/-! ### Unfolding a graph -/

namespace Graph

def remaining (g : Graph) (path : List String) : Nat :=
  (g.nodes.filter fun m => m.id ∉ path).length

theorem remaining_append_lt {g : Graph} {path : List String} {n : Node} (hn : n ∈ g.nodes)
    (h : n.id ∉ path) : g.remaining (path ++ [n.id]) < g.remaining path := by
  have hsub : g.nodes.filter (fun m => m.id ∉ path ++ [n.id]) =
      (g.nodes.filter fun m => m.id ∉ path).filter fun m => m.id ≠ n.id := by
    rw [List.filter_filter]
    congr 1
    funext m
    simp [and_comm]
  rw [remaining, remaining, hsub, List.length_filter_lt_length_iff_exists]
  exact ⟨n, by simp [hn, h], by simp⟩

def unfold (g : Graph) (settings : Settings) (path : List String) (n : Node) (_hn : n ∈ g.nodes) :
    Traced Failure Walk :=
  if _h : n.id ∈ path then Run.fail (.flow (.cycle (path ++ [n.id])))
  else match Action.ofNode? settings n with
    | some action => pure (.sink action)
    | none => do
      if n.kind matches .unsupported then
        Run.debug ("Skipping unsupported node '" ++ n.id ++ "' (" ++ n.type ++ ")")
      let ways ← Run.each n.exits fun exit => do
        match ← exit.steps with
        | none => return none
        | some steps =>
          let targets := n.outlet exit.outlet
          if targets.isEmpty then
            Run.debug ("Node '" ++ n.id ++ "' port " ++ Text.ofNat exit.outlet ++
              " is not wired, branch dropped")
          let next ← Run.each targets fun target =>
            match hm : g.find? target with
            | some m => g.unfold settings (path ++ [n.id]) m (mem_of_find? hm)
            | none => pure (.pass false [] [])
          return some (.pass exit.copied steps next)
      return .pass false [] (ways.filterMap id)
termination_by g.remaining path
decreasing_by exact remaining_append_lt _hn _h

end Graph

end EventFlow
