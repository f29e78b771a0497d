import EventFlow.Proofs.Arrival

/-!
What the drafts of a plan have gathered.

The drafts of a plan belong to the routes from its sources, one to one and in the same order: but
for its name and its memory, a draft is what its route makes of a new draft
(`drafts_along_routes`). So what holds of a new draft and is kept by every live outlet of every node
holds of all drafts of a plan (`gathered`).
-/

namespace EventFlow

namespace Graph

/-- What the live outlets of all nodes keep is kept along every way. -/
theorem foldl_stepsAlong {P : Draft → Prop} {g : Graph}
    (heffects : ∀ n ∈ g.nodes, ∀ (i : Nat) (d : Draft), n.isLive i = true → P d →
      P ((n.effects i).foldl Step.apply d))
    {n : Node} (hn : n ∈ g.nodes) (turns : List Turn) {d : Draft} (h : P d) :
    P ((g.stepsAlong n turns).foldl Step.apply d) := by
  induction turns generalizing n d with
  | nil => exact h
  | cons turn turns ih =>
      rw [stepsAlong]
      cases hm : g.next? n turn with
      | none => exact h
      | some m =>
          rw [List.foldl_append]
          exact ih (mem_of_next? hm) (heffects n hn turn.1 d (next?_eq_some_iff.1 hm).1 h)

/-- The ways are the routes from all sources: one source after the other, and the routes of each
from the first to the last. -/
def ListsRoutes (g : Graph) (ways : List (Node × List Turn)) : Prop :=
  ∃ routes : Node → List (List Turn),
    (∀ n ∈ g.sources, (∀ turns, turns ∈ routes n ↔ g.IsRoute n turns) ∧
      (routes n).Pairwise Turn.Before) ∧
    ways = g.sources.flatMap fun n => (routes n).map (n, ·)

theorem ListsRoutes.isRoute {g : Graph} {ways : List (Node × List Turn)} (h : g.ListsRoutes ways)
    {way : Node × List Turn} (hway : way ∈ ways) :
    way.1 ∈ g.nodes ∧ g.IsRoute way.1 way.2 := by
  obtain ⟨routes, hroutes, rfl⟩ := h
  obtain ⟨n, hn, hway⟩ := List.mem_flatMap.1 hway
  obtain ⟨turns, hturns, rfl⟩ := List.mem_map.1 hway
  exact ⟨(List.mem_filter.1 hn).1, ((hroutes n hn).1 turns).1 hturns⟩

/-- The leaves of the walks from all sources are those of the routes. -/
theorem exists_listsRoutes {g : Graph} {settings : Settings} {walks : List Walk}
    (h : (Plan.unfoldSources g settings).outcome = .ok walks) :
    ∃ ways, g.ListsRoutes ways ∧
      Walk.leavesOf walks = ways.map fun way => g.leafAlong settings way.1 way.2 := by
  rw [Plan.unfoldSources, Run.outcome_each] at h
  have hwalks := Run.mapM_eq_ok_iff.1 h
  have hroutes (n : Node) : ∃ routes, ∀ (hn : n ∈ g.sources) (w : Walk),
      (g.unfold settings [] n (List.mem_filter.1 hn).1).outcome = .ok w →
        g.Lists settings n routes w.leaves := by
    by_cases hwalk : ∃ (hn : n ∈ g.sources) (w : Walk),
        (g.unfold settings [] n (List.mem_filter.1 hn).1).outcome = .ok w
    · obtain ⟨hn, w, hw⟩ := hwalk
      obtain ⟨routes, hlists⟩ := exists_lists _ hw
      refine ⟨routes, fun _ w' hw' => ?_⟩
      obtain rfl : w = w' := Except.ok.inj (hw.symm.trans hw')
      exact hlists
    · exact ⟨[], fun hn w hw => absurd ⟨hn, w, hw⟩ hwalk⟩
  choose routes hroutes using hroutes
  refine ⟨_, ⟨routes, fun n hn => ?_, rfl⟩, ?_⟩
  · obtain ⟨k, hk⟩ := List.get_of_mem (List.mem_attach g.sources ⟨n, hn⟩)
    have hw := hwalks.get k.2 (hwalks.length_eq ▸ k.2)
    rw [hk] at hw
    have hlists := hroutes n hn _ hw
    exact ⟨hlists.mem_iff, hlists.sorted⟩
  · have hleaves : List.Forall₂ (· = ·) (walks.map Walk.leaves)
        (g.sources.attach.map fun n => (routes n.1).map (g.leafAlong settings n.1)) := by
      rw [List.forall₂_map_left_iff, List.forall₂_map_right_iff]
      exact (hwalks.imp fun n w hw => (hroutes n.1 n.2 w hw).leaves_eq).flip
    rw [List.forall₂_eq_eq_eq,
      List.attach_map_val (f := fun n => (routes n).map (g.leafAlong settings n))] at hleaves
    rw [Walk.leavesOf_eq_flatMap, List.flatMap_def, hleaves, ← List.flatMap_def, List.map_flatMap]
    simp only [List.map_map, Function.comp_def]

end Graph

namespace Plan

variable {settings : Settings} {flow flowId : Value} {service : Option String} {plan : Plan}

/-- The drafts of a plan belong to the routes from the sources of its flow, in the order of the
routes. A draft differs from what its route makes of a new draft in its name, which tells its place,
and maybe in its memory. -/
theorem drafts_along_routes (h : (ofFlow settings flow flowId service).outcome = .ok plan) :
    ∃ (descriptors : List Value) (g : Graph) (ways : List (Node × List Turn)),
      flow.entries? = some descriptors ∧ (Graph.ofDescriptors descriptors).outcome = .ok g ∧
      g.ListsRoutes ways ∧ plan.drafts.length = ways.length ∧
      ∀ (k : Nat) (d : Draft), plan.drafts[k]? = some d → ∃ id way memory,
        flowId = .text id ∧ ways[k]? = some way ∧
          d = { g.draftAlong settings way.1 way.2 {} with
            name := ruleName id (k + 1), memory := memory } := by
  obtain ⟨-, descriptors, g, walks, drafts, -, hentries, hgraph, hwalks, hnamed, rfl⟩ :=
    ofFlow_eq_ok_iff.1 h
  obtain ⟨hlength, hnumbers⟩ := nameDrafts_numbers hnamed
  obtain ⟨ways, hways, hleaves⟩ := Graph.exists_listsRoutes hwalks
  have hcarried := forget_harvestAll [] walks
  rw [hleaves, List.forall₂_map_right_iff] at hcarried
  refine ⟨descriptors, g, ways, hentries, hgraph, hways, ?_, fun k d hd => ?_⟩
  · rw [hlength, draftsOf, List.length_map, hcarried.length_eq]
  · obtain ⟨id, e, hid, he, rfl⟩ := hnumbers k d hd
    rw [draftsOf, List.getElem?_map, Option.map_eq_some_iff] at he
    obtain ⟨c, hc, rfl⟩ := he
    obtain ⟨hk, hplace⟩ := List.getElem?_eq_some_iff.1 hc
    have hk' : k < ways.length := hcarried.length_eq ▸ hk
    have hforget := hcarried.get hk hk'
    rw [List.get_eq_getElem, hplace] at hforget
    refine ⟨id, ways[k], (c.settle (harvestAll [] walks).1).memory, hid,
      List.getElem?_eq_getElem hk', ?_⟩
    exact congrArg (fun e : Draft => { e with
      name := ruleName id (k + 1), memory := (c.settle (harvestAll [] walks).1).memory }) hforget

/-- What holds of a new draft and is kept by the live outlets of all nodes of a flow holds of the
drafts of its plan, if it is no matter of name, memory and action. -/
theorem gathered_in {P : Draft → Prop} (hnew : P {})
    (heffects : ∀ descriptors g, flow.entries? = some descriptors →
      (Graph.ofDescriptors descriptors).outcome = .ok g → ∀ n ∈ g.nodes, ∀ (i : Nat) (d : Draft),
        n.isLive i = true → P d → P ((n.effects i).foldl Step.apply d))
    (hlabels : ∀ (d : Draft) name memory action, P d →
      P { d with name := name, memory := memory, action := action })
    (h : (ofFlow settings flow flowId service).outcome = .ok plan) :
    ∀ d ∈ plan.drafts, P d := by
  intro d hd
  obtain ⟨descriptors, g, ways, hentries, hgraph, hways, -, hdrafts⟩ := drafts_along_routes h
  obtain ⟨k, hk⟩ := List.getElem?_of_mem hd
  obtain ⟨id, way, memory, -, hway, rfl⟩ := hdrafts k d hk
  have hn := (hways.isRoute (List.mem_of_getElem? hway)).1
  have hsteps := Graph.foldl_stepsAlong (heffects descriptors g hentries hgraph) hn way.2 hnew
  exact hlabels ((g.stepsAlong way.1 way.2).foldl Step.apply {}) _ memory _ hsteps

theorem gathered {P : Draft → Prop} (hnew : P {})
    (heffects : ∀ (n : Node) (i : Nat) (d : Draft), n.isLive i = true → P d →
      P ((n.effects i).foldl Step.apply d))
    (hlabels : ∀ (d : Draft) name memory action, P d →
      P { d with name := name, memory := memory, action := action })
    (h : (ofFlow settings flow flowId service).outcome = .ok plan) :
    ∀ d ∈ plan.drafts, P d :=
  gathered_in hnew (fun _ _ _ _ n _ => heffects n) hlabels h

end Plan

end EventFlow
