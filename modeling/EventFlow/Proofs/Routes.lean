import EventFlow.Proofs.Unfolding

/-!
Routes: the ways through a graph, said without a search.

A way is a list of turns, each of which picks a live outlet of the node it leaves and a wire of that
outlet. Ways are ordered by the first turn in which they differ. A route is a way that ends at a
sink. The walk of a node has one leaf for each route, in the order of the routes (`exists_lists`).
-/

namespace EventFlow

/-- The outlet by which a node is left, and the place of the wire at the outlet. -/
abbrev Turn := Nat × Nat

namespace Turn

/-- The order of the turns at a node: by the outlet, then by the wire. -/
def Earlier : Turn → Turn → Prop :=
  Prod.Lex (· < ·) (· < ·)

/-- The order of two ways: that of the first turns in which they differ. -/
def Before : List Turn → List Turn → Prop :=
  List.Lex Earlier

theorem earlier_trichotomy (a b : Turn) : Earlier a b ∨ a = b ∨ Earlier b a := by
  obtain ⟨i, k⟩ := a
  obtain ⟨i', k'⟩ := b
  rcases Nat.lt_trichotomy i i' with hi | rfl | hi
  · exact .inl (.left _ _ hi)
  · rcases Nat.lt_trichotomy k k' with hk | rfl | hk
    · exact .inl (.right _ hk)
    · exact .inr (.inl rfl)
    · exact .inr (.inr (.right _ hk))
  · exact .inr (.inr (.left _ _ hi))

def fan (outlets : List Nat) (width : Nat → Nat) (rest : Nat → Nat → List (List Turn)) :
    List (List Turn) :=
  outlets.flatMap fun i => (List.range (width i)).flatMap fun k => (rest i k).map ((i, k) :: ·)

variable {outlets : List Nat} {width : Nat → Nat} {rest : Nat → Nat → List (List Turn)}

theorem mem_fan {turns : List Turn} :
    turns ∈ fan outlets width rest ↔
      ∃ i ∈ outlets, ∃ k < width i, ∃ later ∈ rest i k, turns = (i, k) :: later := by
  simp [fan, eq_comm]

theorem pairwise_fan (houtlets : outlets.Pairwise (· < ·))
    (hrest : ∀ i ∈ outlets, ∀ k < width i, (rest i k).Pairwise Before) :
    (fan outlets width rest).Pairwise Before := by
  refine List.pairwise_flatMap.2 ⟨fun i hi => ?_, houtlets.imp ?_⟩
  · refine List.pairwise_flatMap.2 ⟨fun k hk => ?_, List.pairwise_lt_range.imp ?_⟩
    · exact List.pairwise_map.2 ((hrest i hi k (List.mem_range.1 hk)).imp List.Lex.cons)
    · intro k k' hk x hx y hy
      obtain ⟨x, _, rfl⟩ := List.mem_map.1 hx
      obtain ⟨y, _, rfl⟩ := List.mem_map.1 hy
      exact .rel (.right _ hk)
  · intro i i' hi x hx y hy
    simp only [List.mem_flatMap, List.mem_map] at hx hy
    obtain ⟨k, _, x, _, rfl⟩ := hx
    obtain ⟨k', _, y, _, rfl⟩ := hy
    exact .rel (.left _ _ hi)

end Turn

namespace Graph

variable {g : Graph} {settings : Settings} {n m : Node}

/-- The node that a turn leads to, if its outlet is live and has such a wire. -/
def next? (g : Graph) (n : Node) (turn : Turn) : Option Node :=
  if n.isLive turn.1 then (n.outlet turn.1)[turn.2]?.bind g.find? else none

def nodesAlong? (g : Graph) : Node → List Turn → Option (List Node)
  | n, [] => some [n]
  | n, turn :: turns => (g.next? n turn).bind fun m => (g.nodesAlong? m turns).map (n :: ·)

def endAlong (g : Graph) : Node → List Turn → Node
  | n, [] => n
  | n, turn :: turns =>
    match g.next? n turn with
    | some m => g.endAlong m turns
    | none => n

/-- What the nodes of a way do to a draft, in the order of the way. -/
def stepsAlong (g : Graph) : Node → List Turn → List Step
  | _, [] => []
  | n, turn :: turns =>
    match g.next? n turn with
    | some m => n.effects turn.1 ++ g.stepsAlong m turns
    | none => []

def IsRoute (g : Graph) (n : Node) (turns : List Turn) : Prop :=
  (g.nodesAlong? n turns).isSome ∧ (g.endAlong n turns).isSink = true

/-- The draft that arrives at the end of a way: every node of the way has changed it, and the last
one has set its action. -/
def draftAlong (g : Graph) (settings : Settings) (n : Node) (turns : List Turn) (d : Draft) :
    Draft :=
  { (g.stepsAlong n turns).foldl Step.apply d with
    action := Action.ofNode? settings (g.endAlong n turns) }

theorem next?_eq_some_iff {turn : Turn} :
    g.next? n turn = some m ↔ n.isLive turn.1 = true ∧
      ∃ target, (n.outlet turn.1)[turn.2]? = some target ∧ g.find? target = some m := by
  rw [next?]
  split
  · next h => simp [h, Option.bind_eq_some_iff]
  · next h => simp [h]

theorem mem_of_next? {turn : Turn} (h : g.next? n turn = some m) : m ∈ g.nodes := by
  obtain ⟨_, _, _, hm⟩ := next?_eq_some_iff.1 h
  exact mem_of_find? hm

theorem isRoute_nil : g.IsRoute n [] ↔ n.isSink = true := by
  simp [IsRoute, nodesAlong?, endAlong]

theorem isRoute_cons {turn : Turn} {turns : List Turn} :
    g.IsRoute n (turn :: turns) ↔ ∃ m, g.next? n turn = some m ∧ g.IsRoute m turns := by
  simp only [IsRoute, nodesAlong?, endAlong]
  cases g.next? n turn with
  | none => simp
  | some m => simp

theorem isSink_iff_ofNode? (settings : Settings) :
    n.isSink = true ↔ ∃ action, Action.ofNode? settings n = some action := by
  simp [Node.isSink, Action.ofNode?, Option.isSome_iff_exists]

theorem isLive_eq_false_of_isSink (h : n.isSink = true) (i : Nat) : n.isLive i = false := by
  obtain ⟨id, type, tab, wires, kind⟩ := n
  cases kind <;> first | rfl | simp [Node.isSink, Task.ofKind?] at h

end Graph

namespace Walk

mutual

/-- The ends of a walk from left to right: the steps on the way there, and the action of the
sink. -/
def leaves : Walk → List (List Step × Option Action)
  | .sink action => [([], some action)]
  | .pass _ steps next => (leavesOf next).map fun leaf => (steps ++ leaf.1, leaf.2)

def leavesOf : List Walk → List (List Step × Option Action)
  | [] => []
  | w :: rest => leaves w ++ leavesOf rest

end

theorem leavesOf_eq_flatMap (ws : List Walk) : leavesOf ws = ws.flatMap leaves := by
  induction ws with
  | nil => rfl
  | cons w rest ih => rw [leavesOf, ih, List.flatMap_cons]

end Walk

namespace Graph

variable {g : Graph} {settings : Settings} {path : List String} {n m : Node}

/-- What a draft meets on a way: the steps of the way, and the action of the node at its end. -/
def leafAlong (g : Graph) (settings : Settings) (n : Node) (turns : List Turn) :
    List Step × Option Action :=
  (g.stepsAlong n turns, Action.ofNode? settings (g.endAlong n turns))

/-- The leaves belong to the routes from a node, from the first to the last. -/
structure Lists (g : Graph) (settings : Settings) (n : Node) (routes : List (List Turn))
    (leaves : List (List Step × Option Action)) : Prop where
  mem_iff : ∀ turns, turns ∈ routes ↔ g.IsRoute n turns
  sorted : routes.Pairwise Turn.Before
  leaves_eq : leaves = routes.map (g.leafAlong settings n)

theorem lists_sink {action : Action} (ha : Action.ofNode? settings n = some action) :
    g.Lists settings n [[]] (Walk.sink action).leaves := by
  have hsink : n.isSink = true := (isSink_iff_ofNode? settings).2 ⟨action, ha⟩
  refine ⟨fun turns => ?_, by simp, by simp [Walk.leaves, leafAlong, stepsAlong, endAlong, ha]⟩
  cases turns with
  | nil => simp [isRoute_nil, hsink]
  | cons turn turns => simp [isRoute_cons, next?, isLive_eq_false_of_isSink hsink]

theorem leafAlong_cons {turn : Turn} {turns : List Turn} (h : g.next? n turn = some m) :
    g.leafAlong settings n (turn :: turns) =
      (n.effects turn.1 ++ (g.leafAlong settings m turns).1, (g.leafAlong settings m turns).2) := by
  simp [leafAlong, stepsAlong, endAlong, h]

/-- The routes from a node are those from the nodes behind its live outlets. -/
theorem lists_pass {next : Nat → List Walk} {later : Nat → Nat → List (List Turn)}
    (ha : Action.ofNode? settings n = none)
    (hwidth : ∀ i, n.isLive i = true → (n.outlet i).length = (next i).length)
    (hlater : ∀ i k (hk : k < (next i).length), n.isLive i = true →
      ∃ m, g.next? n (i, k) = some m ∧
        g.Lists settings m (later i k) ((next i).get ⟨k, hk⟩).leaves) :
    g.Lists settings n (Turn.fan n.liveOutlets (fun i => (next i).length) later)
      (Walk.pass false []
        (n.liveOutlets.map fun i => .pass n.copies (n.effects i) (next i))).leaves := by
  refine ⟨fun turns => ?_, ?_, ?_⟩
  · rw [Turn.mem_fan]
    constructor
    · rintro ⟨i, hi, k, hk, rest, hrest, rfl⟩
      obtain ⟨m, hm, hlists⟩ := hlater i k hk (Node.mem_liveOutlets.1 hi)
      exact isRoute_cons.2 ⟨m, hm, (hlists.mem_iff rest).1 hrest⟩
    · intro hroute
      cases turns with
      | nil =>
          obtain ⟨action, hsome⟩ := (isSink_iff_ofNode? settings).1 (isRoute_nil.1 hroute)
          rw [ha] at hsome
          cases hsome
      | cons turn rest =>
          obtain ⟨i, k⟩ := turn
          obtain ⟨m, hm, hrest⟩ := isRoute_cons.1 hroute
          obtain ⟨hi, target, htarget, _⟩ := next?_eq_some_iff.1 hm
          have hk : k < (next i).length := hwidth i hi ▸ (List.getElem?_eq_some_iff.1 htarget).1
          obtain ⟨m', hm', hlists⟩ := hlater i k hk hi
          obtain rfl : m' = m := Option.some.inj (hm'.symm.trans hm)
          exact ⟨i, Node.mem_liveOutlets.2 hi, k, hk, rest, (hlists.mem_iff rest).2 hrest, rfl⟩
  · refine Turn.pairwise_fan (List.pairwise_lt_range.filter _) fun i hi k hk => ?_
    obtain ⟨_, _, hlists⟩ := hlater i k hk (Node.mem_liveOutlets.1 hi)
    exact hlists.sorted
  · rw [Walk.leaves, Walk.leavesOf_eq_flatMap, List.flatMap_map]
    simp only [List.nil_append, List.map_id']
    rw [Turn.fan, List.map_flatMap]
    refine List.flatMap_congr fun i hi => ?_
    rw [Walk.leaves, Walk.leavesOf_eq_flatMap, List.map_flatMap, List.map_flatMap,
      List.flatMap_def, List.flatMap_def]
    congr 1
    refine List.ext_getElem (by simp) fun k hk _ => ?_
    have hk : k < (next i).length := by simpa using hk
    obtain ⟨m, hm, hlists⟩ := hlater i k hk (Node.mem_liveOutlets.1 hi)
    have hleaves : (next i)[k].leaves = (later i k).map (g.leafAlong settings m) := hlists.leaves_eq
    simp [hleaves, leafAlong_cons hm]

/-- A walk has one leaf for each route from its node. -/
theorem exists_lists {w : Walk} (hn : n ∈ g.nodes)
    (h : (g.unfold settings path n hn).outcome = .ok w) :
    ∃ routes, g.Lists settings n routes w.leaves := by
  refine unfold_induction (motive := fun n w => ∃ routes, g.Lists settings n routes w.leaves)
    (fun n action _ ha => ⟨_, lists_sink ha⟩) (fun n next _ ha hnext => ?_) hn h
  have hbehind (i k : Nat) : ∃ later, ∀ hk : k < (next i).length, n.isLive i = true →
      ∃ m, g.next? n (i, k) = some m ∧ g.Lists settings m later ((next i).get ⟨k, hk⟩).leaves := by
    by_cases h : k < (next i).length ∧ n.isLive i = true
    · obtain ⟨hk, hi⟩ := h
      have hk' : k < (n.outlet i).length := (hnext i hi).length_eq ▸ hk
      obtain ⟨m, _, hm, later, hlists⟩ := (hnext i hi).get hk' hk
      exact ⟨later, fun _ _ =>
        ⟨m, next?_eq_some_iff.2 ⟨hi, _, List.getElem?_eq_getElem hk', hm⟩, hlists⟩⟩
    · exact ⟨[], fun hk hi => absurd ⟨hk, hi⟩ h⟩
  choose later hlater using hbehind
  exact ⟨_, lists_pass ha (fun i hi => (hnext i hi).length_eq) hlater⟩

end Graph

end EventFlow
