import EventFlow.Plan
import EventFlow.Proofs.Live

/-!
What unfolding a graph comes to.

Reports apart, unfolding is a search: it enters the nodes behind every live outlet, one wire after
the other, until one of them fails. A walk that comes out of it is made of the live outlets and
their effects, whatever path led to its node (`unfold_induction`).
-/

namespace EventFlow

namespace Graph

variable {g : Graph} {settings : Settings} {path : List String} {n : Node}

def enter (g : Graph) (settings : Settings) (path : List String) (target : String) :
    Except Failure Walk :=
  match hm : g.find? target with
  | some m => (g.unfold settings path m (mem_of_find? hm)).outcome
  | none => .ok (.pass false [] [])

def leave (g : Graph) (settings : Settings) (path : List String) (n : Node) (exit : Exit) :
    Except Failure (Option Walk) := do
  match ← exit.steps.outcome with
  | none => return none
  | some steps =>
    let next ← (n.outlet exit.outlet).mapM (g.enter settings (path ++ [n.id]))
    return some (.pass exit.copied steps next)

theorem enter_eq {target : String} {m : Node} (h : g.find? target = some m) :
    g.enter settings path target = (g.unfold settings path m (mem_of_find? h)).outcome := by
  rw [enter]
  split
  · next m' hm =>
      obtain rfl : m' = m := Option.some.inj (hm.symm.trans h)
      rfl
  · next hm =>
      rw [h] at hm
      cases hm

theorem enter_eq_of_none {target : String} (h : g.find? target = none) :
    g.enter settings path target = .ok (.pass false [] []) := by
  rw [enter]
  split
  · next m hm =>
      rw [h] at hm
      cases hm
  · rfl

/-- Leaving a node depends on the exit by its steps and by where it leads. -/
theorem leave_congr {g' : Graph} {n' : Node} {exit exit' : Exit} (hid : n'.id = n.id)
    (hcopied : exit'.copied = exit.copied) (hsteps : exit'.steps.outcome = exit.steps.outcome)
    (houtlet : n'.outlet exit'.outlet = n.outlet exit.outlet)
    (henter : ∀ target, g'.enter settings (path ++ [n.id]) target =
      g.enter settings (path ++ [n.id]) target) :
    g'.leave settings path n' exit' = g.leave settings path n exit := by
  rw [leave, leave, hid, hcopied, hsteps, houtlet, Run.mapM_congr fun target _ => henter target]

theorem outcome_unfold_of_mem (hn : n ∈ g.nodes) (h : n.id ∈ path) :
    (g.unfold settings path n hn).outcome = .error (.flow (.cycle (path ++ [n.id]))) := by
  rw [unfold, dif_pos h]
  rfl

theorem outcome_unfold_sink (hn : n ∈ g.nodes) (h : n.id ∉ path) {action : Action}
    (ha : Action.ofNode? settings n = some action) :
    (g.unfold settings path n hn).outcome = .ok (.sink action) := by
  rw [unfold, dif_neg h, ha]
  rfl

theorem outcome_unfold_pass (hn : n ∈ g.nodes) (h : n.id ∉ path)
    (ha : Action.ofNode? settings n = none) :
    (g.unfold settings path n hn).outcome =
      n.exits.mapM (g.leave settings path n) >>= fun ways =>
        .ok (.pass false [] (ways.filterMap id)) := by
  rw [unfold, dif_neg h, ha]
  refine (Run.outcome_report _ _ _).trans ?_
  rw [Run.outcome_bind, Run.outcome_each]
  congr 1
  congr 1
  funext exit
  rw [Run.outcome_bind, leave]
  congr 1
  funext steps
  cases steps with
  | none => rfl
  | some steps =>
      refine (Run.outcome_report _ _ _).trans ?_
      rw [Run.outcome_bind, Run.outcome_each]
      congr 1
      congr 1
      funext target
      split
      · next m hm => exact (enter_eq hm).symm
      · next hm => exact (enter_eq_of_none hm).symm

/-- Extraction fails as unfolding does; what it yields is a matter of the walk. -/
theorem outcome_extract (hn : n ∈ g.nodes) (d : Draft) (shelf : Shelf) :
    (g.extract settings n hn d shelf).outcome =
      (g.unfold settings [] n hn).outcome.map (·.start shelf d) := by
  rw [extract, Run.outcome_bind]
  cases (g.unfold settings [] n hn).outcome with
  | error e => rfl
  | ok w => rfl

/-- What an exit of a node leads to, if unfolding behind it ends well. -/
theorem leave_ok {i : Nat} {exit : Exit} {way : Option Walk} (hexit : n.exits[i]? = some exit)
    (h : g.leave settings path n exit = .ok way) :
    (n.isLive i = false ∧ way = none) ∨
      (n.isLive i = true ∧ ∃ next, way = some (.pass n.copies (n.effects i) next) ∧
        (n.outlet i).mapM (g.enter settings (path ++ [n.id])) = .ok next) := by
  obtain ⟨houtlet, hcopied, hsteps⟩ := Node.exits_deliver hexit
  rw [leave, houtlet, hcopied] at h
  cases ho : exit.steps.outcome with
  | error e =>
      rw [ho] at h
      cases h
  | ok steps =>
      rw [ho] at h
      have hlive := hsteps.of_ok ho
      cases hl : n.isLive i with
      | false =>
          rw [hl] at hlive
          obtain rfl : steps = none := hlive
          cases h
          exact .inl ⟨rfl, rfl⟩
      | true =>
          rw [hl] at hlive
          obtain rfl : steps = some (n.effects i) := hlive
          cases hnext : (n.outlet i).mapM (g.enter settings (path ++ [n.id])) with
          | error e =>
              simp only [hnext] at h
              cases h
          | ok next =>
              simp only [hnext] at h
              cases h
              exact .inr ⟨rfl, next, rfl, rfl⟩

theorem exists_find?_of_mem_outlet {i : Nat} {target : String} (hn : n ∈ g.nodes)
    (h : target ∈ n.outlet i) : ∃ m, g.find? target = some m := by
  rw [Node.outlet, List.getD_eq_getElem?_getD] at h
  cases ho : n.wires[i]? with
  | none => simp [ho] at h
  | some outlet =>
      rw [ho] at h
      exact find?_of_wired hn (List.mem_of_getElem? ho) h

/-- A walk lists the live outlets of its node in order, and behind each what its wires lead to. -/
theorem unfold_ok {w : Walk} (hn : n ∈ g.nodes) (ha : Action.ofNode? settings n = none)
    (h : (g.unfold settings path n hn).outcome = .ok w) :
    n.id ∉ path ∧ ∃ next : Nat → List Walk,
      w = .pass false [] (n.liveOutlets.map fun i => .pass n.copies (n.effects i) (next i)) ∧
      ∀ i, n.isLive i = true →
        (n.outlet i).mapM (g.enter settings (path ++ [n.id])) = .ok (next i) := by
  have hpath : n.id ∉ path := by
    intro hmem
    rw [outcome_unfold_of_mem hn hmem] at h
    cases h
  rw [outcome_unfold_pass hn hpath ha] at h
  cases hways : n.exits.mapM (g.leave settings path n) with
  | error e =>
      rw [hways] at h
      cases h
  | ok ways =>
      rw [hways] at h
      cases h
      have hall := Run.mapM_eq_ok_iff.1 hways
      have hway (i : Nat) : ∃ rest : List Walk, i < n.exits.length →
          ways[i]? = some (if n.isLive i then some (.pass n.copies (n.effects i) rest) else none) ∧
          (n.isLive i = true →
            (n.outlet i).mapM (g.enter settings (path ++ [n.id])) = .ok rest) := by
        by_cases hi : i < n.exits.length
        · have hi' : i < ways.length := hall.length_eq ▸ hi
          have hleave := List.Forall₂.get hall hi hi'
          have hget : ways[i]? = some (ways.get ⟨i, hi'⟩) := by simp
          have hexit : n.exits[i]? = some (n.exits.get ⟨i, hi⟩) := by simp
          obtain ⟨hlive, hnone⟩ | ⟨hlive, rest, hsome, hrest⟩ := leave_ok hexit hleave
          · -- There is no walk behind a dead outlet, so any list will do.
            refine ⟨[], fun _ => ⟨?_, fun h => ?_⟩⟩
            · rw [hget, hnone, hlive]
              rfl
            · rw [hlive] at h
              cases h
          · refine ⟨rest, fun _ => ⟨?_, fun _ => hrest⟩⟩
            rw [hget, hsome, hlive]
            rfl
        · exact ⟨[], fun h => absurd h hi⟩
      choose next hway using hway
      refine ⟨hpath, next, ?_, fun i hi => (hway i (Node.lt_of_isLive hi)).2 hi⟩
      have hways : ways = (List.range n.exits.length).map fun i =>
          if n.isLive i then some (.pass n.copies (n.effects i) (next i)) else none := by
        refine List.ext_getElem (by simp [hall.length_eq]) fun i hi _ => ?_
        have hget := (hway i (hall.length_eq ▸ hi)).1
        rw [List.getElem?_eq_getElem hi] at hget
        simpa using hget
      rw [hways, List.filterMap_map, Node.liveOutlets, ← List.filterMap_eq_filter,
        List.map_filterMap]
      congr 2
      funext i
      cases hl : n.isLive i <;> simp [hl, Option.guard]

/-- What holds of sinks, and of a node whenever it holds behind all its live outlets, holds of all
nodes and the walks that they unfold into. -/
theorem unfold_induction {motive : Node → Walk → Prop}
    (sink : ∀ n action, n ∈ g.nodes → Action.ofNode? settings n = some action →
      motive n (.sink action))
    (pass : ∀ n (next : Nat → List Walk), n ∈ g.nodes → Action.ofNode? settings n = none →
      (∀ i, n.isLive i = true →
        List.Forall₂ (fun target w => ∃ m ∈ g.nodes, g.find? target = some m ∧ motive m w)
          (n.outlet i) (next i)) →
      motive n (.pass false [] (n.liveOutlets.map fun i => .pass n.copies (n.effects i) (next i))))
    {w : Walk} (hn : n ∈ g.nodes) (h : (g.unfold settings path n hn).outcome = .ok w) :
    motive n w := by
  induction hr : g.remaining path using Nat.strongRecOn generalizing path n w with
  | ind r ih =>
      subst hr
      cases ha : Action.ofNode? settings n with
      | some action =>
          by_cases hpath : n.id ∈ path
          · rw [outcome_unfold_of_mem hn hpath] at h
            cases h
          · rw [outcome_unfold_sink hn hpath ha] at h
            cases h
            exact sink n action hn ha
      | none =>
          obtain ⟨hpath, next, rfl, hnext⟩ := unfold_ok hn ha h
          refine pass n next hn ha fun i hi => ?_
          have hall := Run.mapM_eq_ok_iff.1 (hnext i hi)
          refine List.forall₂_iff_get.2 ⟨hall.length_eq, fun k hk hk' => ?_⟩
          have henter := hall.get hk hk'
          obtain ⟨m, hm⟩ := exists_find?_of_mem_outlet hn (List.get_mem (n.outlet i) ⟨k, hk⟩)
          rw [enter_eq hm] at henter
          exact ⟨m, mem_of_find? hm, hm,
            ih _ (remaining_append_lt hn hpath) (mem_of_find? hm) henter rfl⟩

end Graph

end EventFlow
