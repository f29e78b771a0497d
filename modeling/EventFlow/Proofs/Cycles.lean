import EventFlow.Proofs.Legible
import EventFlow.Proofs.Routes
import Mathlib.Data.List.Perm.Subperm

/-!
Cycles: unfolding fails exactly where a way comes back to a node that is on it.

A list of ids closes if its last entry is the first one to occur twice. Where every value of a graph
has a written form, unfolding finds the first way whose ids close, in the order of the ways, and
reports its ids (`found_unfold`).
-/

namespace EventFlow

/-- The last id is on the path before it, and no other id is on the path twice. -/
def Closes (ids : List String) : Prop :=
  ∃ front last, ids = front ++ [last] ∧ front.Nodup ∧ last ∈ front

theorem Closes.not_nodup {ids : List String} (h : Closes ids) : ¬ ids.Nodup := by
  obtain ⟨front, last, rfl, _, hlast⟩ := h
  intro hnodup
  exact (List.nodup_append.1 hnodup).2.2 last hlast last (by simp) rfl

theorem closes_append_singleton {ids : List String} {id : String} (h : ids.Nodup) :
    Closes (ids ++ [id]) ↔ id ∈ ids := by
  constructor
  · rintro ⟨front, last, heq, _, hlast⟩
    obtain ⟨rfl, hids⟩ := List.append_inj' heq rfl
    cases hids
    exact hlast
  · exact fun hid => ⟨ids, id, rfl, h, hid⟩

theorem nodup_append_singleton {ids : List String} {id : String} (h : ids.Nodup) (hid : id ∉ ids) :
    (ids ++ [id]).Nodup := by
  refine List.nodup_append.2 ⟨h, by simp, fun a ha b hb hab => ?_⟩
  obtain rfl := List.mem_singleton.1 hb
  exact hid (hab ▸ ha)

namespace Graph

variable {g : Graph} {settings : Settings} {path : List String} {n m : Node}

def idsAlong? (g : Graph) (n : Node) (turns : List Turn) : Option (List String) :=
  (g.nodesAlong? n turns).map (·.map Node.id)

def ClosesAlong (g : Graph) (path : List String) (n : Node) (turns : List Turn) : Prop :=
  ∃ ids, g.idsAlong? n turns = some ids ∧ Closes (path ++ ids)

theorem closesAlong_nil (h : path.Nodup) : g.ClosesAlong path n [] ↔ n.id ∈ path := by
  simp [ClosesAlong, idsAlong?, nodesAlong?, closes_append_singleton h]

theorem idsAlong?_cons {turn : Turn} {turns : List Turn} {ids : List String} :
    g.idsAlong? n (turn :: turns) = some ids ↔
      ∃ m later, g.next? n turn = some m ∧ g.idsAlong? m turns = some later ∧
        ids = n.id :: later := by
  simp only [idsAlong?, nodesAlong?]
  cases g.next? n turn with
  | none => simp
  | some m =>
      cases hnodes : g.nodesAlong? m turns with
      | none => simp [hnodes]
      | some nodes => simp [hnodes, eq_comm]

theorem closesAlong_cons {turn : Turn} {turns : List Turn} :
    g.ClosesAlong path n (turn :: turns) ↔
      ∃ m, g.next? n turn = some m ∧ g.ClosesAlong (path ++ [n.id]) m turns := by
  constructor
  · rintro ⟨ids, hids, hcloses⟩
    obtain ⟨m, later, hm, hlater, rfl⟩ := idsAlong?_cons.1 hids
    exact ⟨m, hm, later, hlater, by simpa using hcloses⟩
  · rintro ⟨m, hm, later, hlater, hcloses⟩
    exact ⟨n.id :: later, idsAlong?_cons.2 ⟨m, later, hm, hlater, rfl⟩, by simpa using hcloses⟩

/-- A way that repeats an id goes on from one that closes. -/
theorem exists_closesAlong {turns : List Turn} {ids : List String} (hpath : path.Nodup)
    (hids : g.idsAlong? n turns = some ids) (h : ¬ (path ++ ids).Nodup) :
    ∃ turns', g.ClosesAlong path n turns' := by
  induction turns generalizing path n ids with
  | nil =>
      refine ⟨[], (closesAlong_nil hpath).2 ?_⟩
      by_contra hn
      cases hids
      exact h (nodup_append_singleton hpath hn)
  | cons turn turns ih =>
      by_cases hn : n.id ∈ path
      · exact ⟨[], (closesAlong_nil hpath).2 hn⟩
      · obtain ⟨m, later, hm, hlater, rfl⟩ := idsAlong?_cons.1 hids
        obtain ⟨turns', hturns'⟩ := ih (nodup_append_singleton hpath hn) hlater (by simpa using h)
        exact ⟨turn :: turns', closesAlong_cons.2 ⟨m, hm, hturns'⟩⟩

/-- What a search for a cycle may come to: a walk if no way closes, or else the ids on the first of
the ways that close. -/
inductive Found (g : Graph) (path : List String) (n : Node) : Except Failure Walk → Prop where
  | clear (w : Walk) (h : ∀ turns, ¬ g.ClosesAlong path n turns) : Found g path n (.ok w)
  | cycle (turns : List Turn) (ids : List String) (hids : g.idsAlong? n turns = some ids)
      (hcloses : Closes (path ++ ids))
      (hfirst : ∀ others, g.ClosesAlong path n others → others = turns ∨ Turn.Before turns others) :
      Found g path n (.error (.flow (.cycle (path ++ ids))))

/-- Where every value has a written form, leaving a node by an exit fails only behind it. -/
theorem leave_eq {i : Nat} {exit : Exit} (hexit : n.exits[i]? = some exit)
    (hlegible : n.isLegible = true) :
    g.leave settings path n exit =
      if n.isLive i then
        ((n.outlet i).mapM (g.enter settings (path ++ [n.id]))).map fun next =>
          some (.pass n.copies (n.effects i) next)
      else .ok none := by
  obtain ⟨houtlet, hcopied, hsteps⟩ := Node.exits_deliver hexit
  obtain ⟨steps, hsteps, rfl⟩ := hsteps.exists_ok hlegible
  rw [leave, houtlet, hcopied, hsteps]
  cases n.isLive i with
  | false => rfl
  | true =>
      cases (n.outlet i).mapM (g.enter settings (path ++ [n.id])) with
      | error e => rfl
      | ok next => rfl

theorem found_of_mem (hn : n ∈ g.nodes) (hpath : path.Nodup) (h : n.id ∈ path) :
    g.Found path n (g.unfold settings path n hn).outcome := by
  rw [outcome_unfold_of_mem hn h]
  refine .cycle [] [n.id] rfl ((closes_append_singleton hpath).2 h) fun others _ => ?_
  cases others with
  | nil => exact .inl rfl
  | cons turn turns => exact .inr .nil

theorem found_of_isSink {w : Walk} (hpath : path.Nodup) (h : n.id ∉ path)
    (hsink : n.isSink = true) :
    g.Found path n (.ok w) := by
  refine .clear w fun turns hcloses => ?_
  cases turns with
  | nil => exact h ((closesAlong_nil hpath).1 hcloses)
  | cons turn turns =>
      obtain ⟨m, hm, _⟩ := closesAlong_cons.1 hcloses
      rw [next?, isLive_eq_false_of_isSink hsink] at hm
      cases hm

theorem enter_ok_of_leave_ok {i k : Nat} {exit : Exit} {way : Option Walk} {target : String}
    (hexit : n.exits[i]? = some exit) (h : g.leave settings path n exit = .ok way)
    (hi : n.isLive i = true) (htarget : (n.outlet i)[k]? = some target) :
    ∃ w, g.enter settings (path ++ [n.id]) target = .ok w := by
  obtain ⟨hclosed, _⟩ | ⟨_, next, _, hnext⟩ := leave_ok hexit h
  · rw [hi] at hclosed
    cases hclosed
  · have hall := Run.mapM_eq_ok_iff.1 hnext
    obtain ⟨hk, rfl⟩ := List.getElem?_eq_some_iff.1 htarget
    exact ⟨_, hall.get hk (hall.length_eq ▸ hk)⟩

/-- The exits are tried from the first to the last, and so are the wires of each. -/
theorem exists_turn_of_error (hlegible : n.isLegible = true) {e : Failure}
    (h : n.exits.mapM (g.leave settings path n) = .error e) :
    ∃ (turn : Turn) (target : String), n.isLive turn.1 = true ∧
      (n.outlet turn.1)[turn.2]? = some target ∧
      g.enter settings (path ++ [n.id]) target = .error e ∧
      ∀ turn' : Turn, turn'.Earlier turn → n.isLive turn'.1 = true →
        ∀ target', (n.outlet turn'.1)[turn'.2]? = some target' →
          ∃ w, g.enter settings (path ++ [n.id]) target' = .ok w := by
  obtain ⟨i, exit, hexit, hleave, hbefore⟩ := Run.mapM_eq_error_iff.1 h
  rw [leave_eq hexit hlegible] at hleave
  cases hi : n.isLive i with
  | false =>
      rw [hi] at hleave
      cases hleave
  | true =>
      have hnext : (n.outlet i).mapM (g.enter settings (path ++ [n.id])) = .error e := by
        rw [hi, if_pos rfl] at hleave
        cases hnext : (n.outlet i).mapM (g.enter settings (path ++ [n.id])) with
        | error e' =>
            rw [hnext] at hleave
            cases hleave
            rfl
        | ok next =>
            rw [hnext] at hleave
            cases hleave
      obtain ⟨k, target, htarget, henter, hbefore'⟩ := Run.mapM_eq_error_iff.1 hnext
      refine ⟨(i, k), target, hi, htarget, henter, fun turn' hearlier hi' target' htarget' => ?_⟩
      cases hearlier with
      | left k' _ hlt =>
          have hexit' := List.getElem?_eq_getElem (Node.lt_of_isLive hi')
          obtain ⟨way, hway⟩ := hbefore _ hlt _ hexit'
          exact enter_ok_of_leave_ok hexit' hway hi' htarget'
      | right _ hlt => exact hbefore' _ hlt target' htarget'

/-- If every search behind a node finds the first way that closes, so does the search from it. -/
theorem found_pass (hn : n ∈ g.nodes) (hpath : path.Nodup) (hmem : n.id ∉ path)
    (hlegible : n.isLegible = true)
    (henter : ∀ m target, g.find? target = some m →
      g.Found (path ++ [n.id]) m (g.enter settings (path ++ [n.id]) target)) :
    g.Found path n (n.exits.mapM (g.leave settings path n) >>= fun ways =>
      .ok (.pass false [] (ways.filterMap id))) := by
  have hclear (turns : List Turn) {target : String} {m : Node} {w : Walk}
      (hm : g.find? target = some m) (hok : g.enter settings (path ++ [n.id]) target = .ok w) :
      ¬ g.ClosesAlong (path ++ [n.id]) m turns := by
    have hfound := henter m target hm
    rw [hok] at hfound
    cases hfound with
    | clear _ h => exact h turns
  cases hways : n.exits.mapM (g.leave settings path n) with
  | ok ways =>
      refine .clear _ fun turns hcloses => ?_
      cases turns with
      | nil => exact hmem ((closesAlong_nil hpath).1 hcloses)
      | cons turn turns =>
          obtain ⟨m, hm, hcloses⟩ := closesAlong_cons.1 hcloses
          obtain ⟨hi, target, htarget, hfind⟩ := next?_eq_some_iff.1 hm
          have hall := Run.mapM_eq_ok_iff.1 hways
          have hexit := Node.lt_of_isLive hi
          obtain ⟨w, hw⟩ := enter_ok_of_leave_ok (List.getElem?_eq_getElem hexit)
            (hall.get hexit (hall.length_eq ▸ hexit)) hi htarget
          exact hclear turns hfind hw hcloses
  | error e =>
      obtain ⟨turn, target, hi, htarget, herror, hbefore⟩ := exists_turn_of_error hlegible hways
      obtain ⟨m, hm⟩ := exists_find?_of_mem_outlet hn (List.mem_of_getElem? htarget)
      have hnext : g.next? n turn = some m := next?_eq_some_iff.2 ⟨hi, target, htarget, hm⟩
      have hfound := henter m target hm
      rw [herror] at hfound
      cases hfound with
      | cycle turns ids hids hcloses hfirst =>
          have hids' := idsAlong?_cons.2 ⟨m, ids, hnext, hids, rfl⟩
          rw [← List.append_cons] at hcloses ⊢
          refine .cycle (turn :: turns) _ hids' hcloses fun others hothers => ?_
          cases others with
          | nil => exact absurd ((closesAlong_nil hpath).1 hothers) hmem
          | cons turn' turns' =>
              -- Behind an earlier turn nothing closes; behind the same turn, the first is known.
              obtain ⟨m', hm', hothers⟩ := closesAlong_cons.1 hothers
              obtain hearlier | rfl | hlater := Turn.earlier_trichotomy turn' turn
              · obtain ⟨hi', target', htarget', hfind'⟩ := next?_eq_some_iff.1 hm'
                obtain ⟨w, hw⟩ := hbefore turn' hearlier hi' target' htarget'
                exact absurd hothers (hclear turns' hfind' hw)
              · obtain rfl : m' = m := Option.some.inj (hm'.symm.trans hnext)
                exact (hfirst turns' hothers).imp (congrArg (turn' :: ·)) .cons
              · exact .inr (.rel hlater)

/-- A search finds the first way that closes. -/
theorem found_unfold (settings : Settings) (hlegible : ∀ m ∈ g.nodes, m.isLegible = true)
    (hn : n ∈ g.nodes) (hpath : path.Nodup) :
    g.Found path n (g.unfold settings path n hn).outcome := by
  -- By the number of nodes that are not on the path yet.
  induction hr : g.remaining path using Nat.strongRecOn generalizing path n with
  | ind r ih =>
      subst hr
      by_cases hmem : n.id ∈ path
      · exact found_of_mem hn hpath hmem
      cases ha : Action.ofNode? settings n with
      | some action =>
          rw [outcome_unfold_sink hn hmem ha]
          exact found_of_isSink hpath hmem ((isSink_iff_ofNode? settings).2 ⟨action, ha⟩)
      | none =>
          have henter (m : Node) (target : String) (hm : g.find? target = some m) :
              g.Found (path ++ [n.id]) m (g.enter settings (path ++ [n.id]) target) := by
            rw [enter_eq hm]
            exact ih _ (remaining_append_lt hn hmem) (mem_of_find? hm)
              (nodup_append_singleton hpath hmem) rfl
          rw [outcome_unfold_pass hn hmem ha]
          exact found_pass hn hpath hmem (hlegible n hn) henter

theorem head?_idsAlong {turns : List Turn} {ids : List String}
    (h : g.idsAlong? n turns = some ids) :
    ids.head? = some n.id := by
  cases turns with
  | nil =>
      cases h
      rfl
  | cons turn turns =>
      obtain ⟨m, later, _, _, rfl⟩ := idsAlong?_cons.1 h
      rfl

theorem mem_ids_of_idsAlong {turns : List Turn} {ids : List String} (hn : n ∈ g.nodes)
    (h : g.idsAlong? n turns = some ids) : ids ⊆ g.nodes.map Node.id := by
  induction turns generalizing n ids with
  | nil =>
      cases h
      simpa using ⟨n, hn, rfl⟩
  | cons turn turns ih =>
      obtain ⟨m, later, hm, hlater, rfl⟩ := idsAlong?_cons.1 h
      exact List.cons_subset.2 ⟨List.mem_map_of_mem hn, ih (mem_of_next? hm) hlater⟩

/-- A way that repeats no node is no longer than there are nodes. -/
theorem length_le_of_nodup {ids : List String} (hids : ids ⊆ g.nodes.map Node.id)
    (h : ids.Nodup) : ids.length ≤ g.nodes.length := by
  simpa using (List.subperm_of_subset h hids).length_le

/-- Extraction ends, and finds every node that a wire leads to. It fails only where a way of live
wires comes back to a node that is on it, and then reports the first such way. -/
theorem extract_error_iff_way_returns {descriptors : List Value} {g : Graph}
    (hg : (ofDescriptors descriptors).outcome = .ok g)
    (hd : ∀ d ∈ descriptors, d.isWritable = true)
    (hjson : ∀ m ∈ g.nodes, ∀ s ∈ m.kind.jsonTexts, Value.read s ≠ .error .overlong)
    (settings : Settings) {n : Node} (hn : n ∈ g.nodes) (d : Draft) (shelf : Shelf) :
    (∀ m ∈ g.nodes, ∀ i, ∀ target ∈ m.outlet i, ∃ m', g.find? target = some m') ∧
    (∀ turns ids, g.idsAlong? n turns = some ids → ids.Nodup → ids.length ≤ g.nodes.length) ∧
    ((∃ path, (g.extract settings n hn d shelf).outcome = .error (.flow (.cycle path))) ↔
      ∃ turns ids, g.idsAlong? n turns = some ids ∧ ¬ ids.Nodup) ∧
    ∀ e, (g.extract settings n hn d shelf).outcome = .error e →
      ∃ path turns, e = .flow (.cycle path) ∧ g.idsAlong? n turns = some path ∧
        path.head? = some n.id ∧ Closes path ∧
        ∀ others, g.ClosesAlong [] n others → others = turns ∨ Turn.Before turns others := by
  have hlegible := forall_isLegible hg hd hjson
  have hfound := found_unfold settings hlegible hn List.nodup_nil
  rw [outcome_extract]
  generalize (g.unfold settings [] n hn).outcome = outcome at hfound ⊢
  refine ⟨fun m hm i target => exists_find?_of_mem_outlet hm,
    fun turns ids hids => length_le_of_nodup (mem_ids_of_idsAlong hn hids), ?_, ?_⟩
  · constructor
    · rintro ⟨path, hpath⟩
      cases hfound with
      | clear w _ => cases hpath
      | cycle turns ids hids hcloses _ => exact ⟨turns, ids, hids, hcloses.not_nodup⟩
    · rintro ⟨turns, ids, hids, hreturns⟩
      obtain ⟨turns', hcloses⟩ := exists_closesAlong List.nodup_nil hids hreturns
      cases hfound with
      | clear w hclear => exact absurd hcloses (hclear turns')
      | cycle turns ids hids hcloses _ => exact ⟨_, rfl⟩
  · intro e he
    cases hfound with
    | clear w _ => cases he
    | cycle turns ids hids hcloses hfirst =>
        cases he
        exact ⟨ids, turns, rfl, hids, head?_idsAlong hids, hcloses, hfirst⟩

/-- A switch whose first branch is dropped and leads back to the switch, and whose second branch
leads back to the source. -/
def returningFlow : List Value :=
  [.object [("id", .text "s"), ("type", .text "device out"), ("wires", .list [.list [.text "w"]])],
   .object [("id", .text "w"), ("type", .text "switch"), ("property", .text "payload.x"),
     ("rules", .list [.object [("t", .text "eq")], .object [("t", .text "gt"), ("v", .text "1")]]),
     ("wires", .list [.list [.text "w"], .list [.text "h", .text "s"]])],
   .object [("id", .text "h"), ("type", .text "history")]]

def returning : Graph where
  nodes := [⟨"s", "device out", "", [["w"]], .source "" ""⟩,
    ⟨"w", "switch", "", [["w"], ["h", "s"]], .switch "payload.x" [⟨"eq", .null, none, .null, none⟩,
      ⟨"gt", .text "1", none, .null, none⟩]⟩,
    ⟨"h", "history", "", [], .history⟩]
  distinct := by decide
  wired := by decide

theorem exists_cycle_of_returning :
    (ofDescriptors returningFlow).outcome = .ok returning ∧
    (∀ d ∈ returningFlow, d.isWritable = true) ∧
    (∀ m ∈ returning.nodes, ∀ s ∈ m.kind.jsonTexts, Value.read s ≠ .error .overlong) ∧
    ∃ (n : Node) (hn : n ∈ returning.nodes) (path : List String), n.id = "s" ∧
      (returning.extract {} n hn {} []).outcome = .error (.flow (.cycle path)) := by
  have hg : (ofDescriptors returningFlow).outcome = .ok returning := rfl
  have hd : ∀ d ∈ returningFlow, d.isWritable = true := by decide
  have hjson : ∀ m ∈ returning.nodes, ∀ s ∈ m.kind.jsonTexts, Value.read s ≠ .error .overlong := by
    simp [returning, Kind.jsonTexts]
  obtain ⟨path, hpath⟩ :=
    (extract_error_iff_way_returns hg hd hjson {} (List.mem_cons_self ..) {} []).2.2.1.2
      ⟨[(0, 0), (1, 1)], ["s", "w", "s"], rfl, by decide⟩
  exact ⟨hg, hd, hjson, _, _, path, rfl, hpath⟩

end Graph

end EventFlow
