import EventFlow.Proofs.Planning
import Mathlib.Data.List.Nodup
import Mathlib.Data.List.Perm.Basic

/-!
A plan does not depend on how the editor lists and draws a flow.

A descriptor is read under the names of its type alone, and no walk asks for the tab of a node. So
descriptors that differ elsewhere give nodes that differ at most in their tabs, and the same
descriptors in another order give the same nodes in another order. As the ids are distinct, a wire
leads to the same node in every order. What is left of the order of the descriptors is that of the
sources, by which the drafts are counted.
-/

namespace EventFlow

/-! ### Drawing a descriptor again -/

namespace Check

/-- The names under which a descriptor of a type is read, apart from that of the tab. -/
def names (tag : Value) : List String :=
  ["id", "type", "wires"] ++
    match tag with
    | .text "device out" => ["_device_id", "device_id", "_device_type", "device_type"]
    | .text "switch" | .text "edgedetection" => ["property", "rules"]
    | .text "geofence" => ["points", "mode", "filter"]
    | .text "change" => ["rules"]
    | .text "template" => ["field", "template"]
    | .text "device in" => ["_device_id", "device_id", "_device_type", "device_type", "attrs"]
    | .text "http request out" => ["url", "method", "body"]
    | .text "e-mail" => ["to", "from", "sender", "subject", "server", "body"]
    | _ => []

variable {tag : Value} {fields fields' : Fields Value}

def Agree (tag : Value) (fields fields' : Fields Value) : Prop :=
  ∀ name ∈ names tag, Fields.get? fields name = Fields.get? fields' name

theorem required_congr {α : Type} {name : String} {check : Check α}
    (h : Fields.get? fields name = Fields.get? fields' name) (path : List Key) :
    required path fields name check = required path fields' name check := by
  rw [required, required, h]

theorem optional_congr {α : Type} {name : String} {default : α} {check : Check α}
    (h : Fields.get? fields name = Fields.get? fields' name) (path : List Key) :
    optional path fields name default check = optional path fields' name default check := by
  rw [optional, optional, h]

theorem kind_eq_of_agree (h : Agree tag fields fields') : kind tag fields = kind tag fields' := by
  revert h
  rw [kind.eq_def, kind.eq_def]
  simp only
  -- The type decides which fields are read, and `names` lists them for it.
  split <;> intro h <;>
    simp only [Agree, names, List.forall_mem_append, List.forall_mem_cons] at h <;>
    simp [optional, either, h]

def IsTab (v : Option Value) : Prop :=
  v = none ∨ ∃ s, v = some (.text s)

/-- The fields have the same tab, or both can be on one. -/
def Tabbed (fields fields' : Fields Value) : Prop :=
  Fields.get? fields "z" = Fields.get? fields' "z" ∨
    IsTab (Fields.get? fields "z") ∧ IsTab (Fields.get? fields' "z")

theorem exists_ok_of_isTab (h : IsTab (Fields.get? fields "z")) :
    ∃ tab, optional [] fields "z" "" text = .ok tab := by
  rw [optional]
  obtain hz | ⟨s, hz⟩ := h
  · exact ⟨"", by rw [hz]⟩
  · exact ⟨s, by rw [hz]; rfl⟩

end Check

namespace Node

def untabbed (n : Node) : Node :=
  { n with tab := "" }

theorem untabbed_eq_iff {n n' : Node} : n.untabbed = n'.untabbed ↔
    n.id = n'.id ∧ n.type = n'.type ∧ n.wires = n'.wires ∧ n.kind = n'.kind := by
  simp [untabbed]

theorem map_untabbed {id type : Checked String} {tab tab' : Checked String}
    {wires : Checked (List (List String))} {kind : Checked Kind}
    (h : tab = tab' ∨ ∃ s s', tab = .ok s ∧ tab' = .ok s') :
    (Node.mk <$> id <*> type <*> tab <*> wires <*> kind).map untabbed =
      (Node.mk <$> id <*> type <*> tab' <*> wires <*> kind).map untabbed := by
  obtain rfl | ⟨s, s', rfl, rfl⟩ := h
  · rfl
  · cases id <;> cases type <;> cases wires <;> cases kind <;> rfl

end Node

namespace Check

variable {tag : Value} {fields fields' : Fields Value}

/-- Fields that agree give the same node, the tab apart, or the same faults. -/
theorem map_untabbed_node (h : Agree tag fields fields') (hz : Tabbed fields fields') :
    (node tag fields).map Node.untabbed = (node tag fields').map Node.untabbed := by
  have hid : Fields.get? fields "id" = Fields.get? fields' "id" := h "id" (by simp [names])
  have htype : Fields.get? fields "type" = Fields.get? fields' "type" := h "type" (by simp [names])
  have hwires : Fields.get? fields "wires" = Fields.get? fields' "wires" :=
    h "wires" (by simp [names])
  rw [node, node, kind_eq_of_agree h, required_congr hid, required_congr htype,
    optional_congr hwires]
  refine Node.map_untabbed ?_
  obtain heq | ⟨htab, htab'⟩ := hz
  · exact .inl (optional_congr heq [])
  · obtain ⟨s, hs⟩ := exists_ok_of_isTab htab
    obtain ⟨s', hs'⟩ := exists_ok_of_isTab htab'
    exact .inr ⟨s, s', hs, hs'⟩

theorem all_node (tag : Value) (fields : Fields Value) :
    (node tag fields).All fun n => kind tag fields = .ok n.kind := by
  have hkind : (kind tag fields).All fun k => kind tag fields = .ok k := by
    cases kind tag fields with
    | ok k => rfl
    | faulty faults => trivial
  refine (((((Checked.all_true _).map ?_).apply (Checked.all_true _)).apply
    (Checked.all_true _)).apply (Checked.all_true _)).apply hkind
  intro id _ type _ tab _ wires _ k hk
  exact hk

def isSourceTag : Value → Bool
  | .text tag => tag == "device out"
  | _ => false

open Checked (all_true) in
/-- The type alone decides whether a node is a source. -/
theorem all_kind_isSource (tag : Value) (fields : Fields Value) : (kind tag fields).All fun k =>
    (Node.mk "" "" "" [] k).isSource = isSourceTag tag := by
  rw [kind.eq_def]
  simp only
  split
  · exact ((all_true _).map fun _ _ _ _ => rfl).apply (all_true _)
  · exact ((all_true _).map fun _ _ _ _ => rfl).apply (all_true _)
  · exact ((all_true _).map fun _ _ _ _ => rfl).apply (all_true _)
  · exact (((all_true _).map fun _ _ _ _ _ _ => rfl).apply (all_true _)).apply (all_true _)
  · exact (all_true _).map fun _ _ => rfl
  · exact ((all_true _).map fun _ _ _ _ => rfl).apply (all_true _)
  · exact (((all_true _).map fun _ _ _ _ _ _ => rfl).apply (all_true _)).apply (all_true _)
  · exact (((all_true _).map fun _ _ _ _ _ _ => rfl).apply (all_true _)).apply (all_true _)
  · exact (((((all_true _).map fun _ _ _ _ _ _ _ _ _ _ => rfl).apply (all_true _)).apply
      (all_true _)).apply (all_true _)).apply (all_true _)
  · exact rfl
  · next hsource _ _ _ _ _ _ _ _ _ =>
      cases tag with
      | text tag =>
          have htag : tag ≠ "device out" := fun h => hsource (h ▸ rfl)
          exact (beq_eq_false_iff_ne.2 htag).symm
      | _ => exact rfl

end Check

namespace Node

variable {d d' : Value} {n n' : Node}

/-- The first descriptor can be redrawn as the second: they differ at most under names that are not
read, and in tabs. -/
inductive Redrawn : Value → Value → Prop where
  | same (d : Value) : Redrawn d d
  | object (fields fields' : Fields Value)
      (agree : Check.Agree ((Fields.get? fields "type").getD (.text "")) fields fields')
      (tabbed : Check.Tabbed fields fields') : Redrawn (.object fields) (.object fields')

theorem Redrawn.symm (h : Redrawn d d') : Redrawn d' d := by
  cases h with
  | same => exact .same d
  | object fields fields' agree tabbed =>
      have htype := agree "type" (by simp [Check.names])
      rw [htype] at agree
      refine .object fields' fields (fun name hname => (agree name hname).symm) ?_
      exact tabbed.imp Eq.symm And.symm

/-- A descriptor that is redrawn describes the same node, the tab apart. -/
theorem exists_of_redrawn (h : Redrawn d d') (hn : ofDescriptor d = .ok n) :
    ∃ n', ofDescriptor d' = .ok n' ∧ n'.untabbed = n.untabbed := by
  cases h with
  | same => exact ⟨n, hn, rfl⟩
  | object fields fields' agree tabbed =>
      obtain ⟨_, heq, htruthy, hnode⟩ := ofDescriptor_eq_ok_iff.1 hn
      cases heq
      have hmap := Check.map_untabbed_node agree tabbed
      rw [agree "id" (by simp [Check.names])] at htruthy
      rw [hnode, agree "type" (by simp [Check.names])] at hmap
      cases hnode' : Check.node ((Fields.get? fields' "type").getD (.text "")) fields' with
      | faulty faults =>
          rw [hnode'] at hmap
          cases hmap
      | ok n' =>
          rw [hnode'] at hmap
          refine ⟨n', ofDescriptor_eq_ok_iff.2 ⟨fields', rfl, htruthy, hnode'⟩, ?_⟩
          exact (Checked.ok.inj hmap).symm

def describesSource : Value → Bool
  | .object fields => (Fields.get? fields "type").any Check.isSourceTag
  | _ => false

theorem isSource_eq (h : ofDescriptor d = .ok n) : n.isSource = describesSource d := by
  obtain ⟨fields, rfl, -, hnode⟩ := ofDescriptor_eq_ok_iff.1 h
  have hkind := Check.all_node ((Fields.get? fields "type").getD (.text "")) fields
  have hsource := Check.all_kind_isSource ((Fields.get? fields "type").getD (.text "")) fields
  rw [hnode] at hkind
  rw [hkind] at hsource
  refine hsource.trans ?_
  rw [describesSource]
  cases Fields.get? fields "type" <;> rfl

end Node

/-! ### Graphs of the same nodes -/

namespace Graph

variable {g g' : Graph} {settings : Settings} {descriptors : List Value}

def Describe (descriptors : List Value) (nodes : List Node) : Prop :=
  List.Forall₂ (fun d n => Node.ofDescriptor d = .ok n) descriptors nodes

theorem collect_eq_ok_iff {seen nodes : Distinct} : collect seen descriptors = .ok nodes ↔
    ∃ later, Describe descriptors later ∧ nodes.1 = seen.1 ++ later := by
  induction descriptors generalizing seen with
  | nil =>
      constructor
      · intro h
        cases h
        exact ⟨[], .nil, by simp⟩
      · rintro ⟨later, hlater, hnodes⟩
        cases hlater
        exact congrArg _ (Subtype.ext (by simpa using hnodes.symm))
  | cons d rest ih =>
      rw [collect]
      constructor
      · intro h
        split at h
        · cases h
        · next n hn =>
            split at h
            · cases h
            · obtain ⟨later, hlater, hnodes⟩ := ih.1 h
              exact ⟨n :: later, .cons hn hlater, by simpa [Distinct.add] using hnodes⟩
      · rintro ⟨later, hlater, hnodes⟩
        cases hlater with
        | @cons _ n _ later hn hlater =>
            -- That the id is new follows from the ids being distinct in the end.
            have hfresh : n.id ∉ seen.1.map Node.id := by
              have hdistinct := nodes.2
              rw [hnodes, List.map_append, List.nodup_append] at hdistinct
              exact fun hmem => hdistinct.2.2 _ hmem n.id (by simp) rfl
            rw [hn]
            simp only [hfresh, not_false_iff, dif_neg]
            exact ih.2 ⟨later, hlater, by simpa [Distinct.add] using hnodes⟩

theorem dangling?_nodes (g : Graph) : dangling? g.nodes = none := by
  refine List.findSome?_eq_none_iff.2 fun n hn => ?_
  refine Option.map_eq_none_iff.2 (List.find?_eq_none.2 fun target htarget => ?_)
  obtain ⟨outlet, houtlet, ht⟩ := List.mem_flatten.1 htarget
  simpa using g.wired n hn outlet houtlet target ht

theorem ofNodes_eq_ok_iff {nodes : Distinct} : ofNodes nodes = .ok g ↔ g.nodes = nodes.1 := by
  constructor
  · intro h
    rw [ofNodes] at h
    split at h
    · cases h
    · cases h
      rfl
  · intro h
    have hwired := g.dangling?_nodes
    rw [h] at hwired
    rw [ofNodes]
    split
    · next hdangling =>
        rw [hwired] at hdangling
        cases hdangling
    · obtain ⟨nodes', distinct, wired⟩ := g
      cases h
      rfl

/-- The graph of some descriptors is the one that has their nodes. -/
theorem ofDescriptors_eq_ok_iff :
    (ofDescriptors descriptors).outcome = .ok g ↔ Describe descriptors g.nodes := by
  rw [outcome_ofDescriptors]
  constructor
  · intro h
    cases hcollect : collect ⟨[], by simp⟩ descriptors with
    | error e =>
        rw [hcollect] at h
        cases h
    | ok nodes =>
        rw [hcollect] at h
        obtain ⟨later, hlater, hnodes⟩ := collect_eq_ok_iff.1 hcollect
        rw [ofNodes_eq_ok_iff.1 h, hnodes]
        exact hlater
  · intro h
    have hcollect : collect ⟨[], by simp⟩ descriptors = .ok ⟨g.nodes, g.distinct⟩ :=
      collect_eq_ok_iff.2 ⟨g.nodes, h, rfl⟩
    rw [hcollect]
    exact ofNodes_eq_ok_iff.2 rfl

/-- The nodes are the same up to their order and their tabs, and the sources are in the same
order. -/
structure Similar (nodes nodes' : List Node) : Prop where
  perm : (nodes.map Node.untabbed).Perm (nodes'.map Node.untabbed)
  sources : (nodes.filter Node.isSource).map Node.untabbed =
    (nodes'.filter Node.isSource).map Node.untabbed

namespace Similar

variable {nodes nodes' : List Node}

theorem symm (h : Similar nodes nodes') : Similar nodes' nodes :=
  ⟨h.perm.symm, h.sources.symm⟩

theorem exists_mem {n : Node} (h : Similar nodes nodes') (hn : n ∈ nodes) :
    ∃ n' ∈ nodes', n'.untabbed = n.untabbed :=
  List.mem_map.1 (h.perm.mem_iff.1 (List.mem_map_of_mem hn))

theorem ids (h : Similar nodes nodes') : (nodes.map Node.id).Perm (nodes'.map Node.id) := by
  have hids := h.perm.map Node.id
  rw [List.map_map, List.map_map] at hids
  exact hids

/-- Nodes of which the same can be said make up a graph if the others do. -/
theorem exists_graph (h : Similar g.nodes nodes') : ∃ g' : Graph, g'.nodes = nodes' := by
  refine ⟨⟨nodes', h.ids.nodup_iff.1 g.distinct, ?_⟩, rfl⟩
  intro n' hn' outlet houtlet target htarget
  obtain ⟨n, hn, hnn'⟩ := h.symm.exists_mem hn'
  obtain ⟨-, -, hwires, -⟩ := Node.untabbed_eq_iff.1 hnn'
  exact h.ids.mem_iff.1 (g.wired n hn outlet (hwires ▸ houtlet) target htarget)

end Similar

theorem find?_of_mem {n : Node} (h : n ∈ g.nodes) : g.find? n.id = some n := by
  obtain ⟨m, hm⟩ : ∃ m, g.find? n.id = some m :=
    Option.isSome_iff_exists.1 (List.find?_isSome.2 ⟨n, h, by simp⟩)
  rw [hm, List.inj_on_of_nodup_map g.distinct (mem_of_find? hm) h (id_of_find? hm)]

/-- A wire leads to the same node in either graph. -/
theorem Similar.exists_find? {target : String} {m : Node} (h : Similar g.nodes g'.nodes)
    (hm : g.find? target = some m) :
    ∃ m', g'.find? target = some m' ∧ m'.untabbed = m.untabbed := by
  obtain ⟨m', hm', heq⟩ := h.exists_mem (mem_of_find? hm)
  obtain ⟨hid, -⟩ := Node.untabbed_eq_iff.1 heq
  rw [id_of_find? hm] at hid
  exact ⟨m', hid ▸ find?_of_mem hm', heq⟩

/-- Entering at an id comes to the same in either graph. -/
theorem Similar.enter_eq (h : Similar g.nodes g'.nodes) (path : List String) (target : String) :
    g.enter settings path target = g'.enter settings path target := by
  -- The way so far has the same ids in both graphs, so it is enough to count in the first.
  induction hr : g.remaining path using Nat.strongRecOn generalizing path target with
  | ind r ih =>
      subst hr
      cases hm : g.find? target with
      | none =>
          have hm' : g'.find? target = none := by
            by_contra hsome
            obtain ⟨m', hm'⟩ := Option.ne_none_iff_exists'.1 hsome
            obtain ⟨m, hm'', -⟩ := h.symm.exists_find? hm'
            rw [hm] at hm''
            cases hm''
          rw [enter_eq_of_none hm, enter_eq_of_none hm']
      | some m =>
          obtain ⟨m', hm', heq⟩ := h.exists_find? hm
          obtain ⟨hid, htype, hwires, hkind⟩ := Node.untabbed_eq_iff.1 heq
          rw [Graph.enter_eq hm, Graph.enter_eq hm']
          by_cases hpath : m.id ∈ path
          · rw [outcome_unfold_of_mem _ hpath, outcome_unfold_of_mem _ (hid ▸ hpath), hid]
          · have haction : Action.ofNode? settings m' = Action.ofNode? settings m := by
              rw [Action.ofNode?, Action.ofNode?, hkind]
            cases ha : Action.ofNode? settings m with
            | some action =>
                rw [outcome_unfold_sink _ hpath ha,
                  outcome_unfold_sink _ (hid ▸ hpath) (haction.trans ha)]
            | none =>
                have hexits : m'.exits = m.exits := by
                  rw [Node.exits, Node.exits, hid, hkind]
                rw [outcome_unfold_pass _ hpath ha,
                  outcome_unfold_pass _ (hid ▸ hpath) (haction.trans ha), hexits]
                have houtlet (i : Nat) : m'.outlet i = m.outlet i := by
                  rw [Node.outlet, Node.outlet, hwires]
                have hleave : ∀ exit ∈ m.exits,
                    g'.leave settings path m' exit = g.leave settings path m exit :=
                  fun exit _ => leave_congr hid rfl rfl (houtlet exit.outlet) fun next =>
                    (ih _ (remaining_append_lt (mem_of_find? hm) hpath) _ next rfl).symm
                rw [Run.mapM_congr hleave]

end Graph

/-! ### Flows that are listed in another order -/

/-- The second list has the descriptors of the first in an order that keeps that of the sources,
each as it was or redrawn. -/
def Relisted (descriptors descriptors' : List Value) : Prop :=
  ∃ reordered, descriptors.Perm reordered ∧
    descriptors.filter Node.describesSource = reordered.filter Node.describesSource ∧
    List.Forall₂ Node.Redrawn reordered descriptors'

namespace Graph

variable {descriptors descriptors' : List Value} {nodes nodes' : List Node}

theorem Describe.unique (h : Describe descriptors nodes) (h' : Describe descriptors nodes') :
    nodes = nodes' :=
  Except.ok.inj ((Run.mapM_eq_ok_iff.2 h).symm.trans (Run.mapM_eq_ok_iff.2 h'))

/-- The sources among the nodes are those of the descriptors of sources. -/
theorem Describe.sources (h : Describe descriptors nodes) :
    Describe (descriptors.filter Node.describesSource) (nodes.filter Node.isSource) := by
  induction h with
  | nil => exact .nil
  | @cons d n rest others hn _ ih =>
      rw [List.filter_cons, List.filter_cons, Node.isSource_eq hn]
      split
      · exact .cons hn ih
      · exact ih

theorem Describe.reordered {reordered : List Value} (h : Describe descriptors nodes)
    (hperm : descriptors.Perm reordered) :
    ∃ nodes', Describe reordered nodes' ∧ nodes.Perm nodes' := by
  obtain ⟨nodes', hnodes', hperm'⟩ := List.perm_comp_forall₂ hperm.symm h
  exact ⟨nodes', hnodes', hperm'.symm⟩

theorem Describe.redrawn (h : Describe descriptors nodes)
    (hredrawn : List.Forall₂ Node.Redrawn descriptors descriptors') :
    ∃ nodes', Describe descriptors' nodes' ∧
      nodes'.map Node.untabbed = nodes.map Node.untabbed := by
  induction h generalizing descriptors' with
  | nil =>
      cases hredrawn
      exact ⟨[], .nil, rfl⟩
  | @cons d n rest others hn _ ih =>
      cases hredrawn with
      | @cons _ d' _ rest' hd hrest =>
          obtain ⟨n', hn', heq⟩ := Node.exists_of_redrawn hd hn
          obtain ⟨others', hothers', heqs⟩ := ih hrest
          exact ⟨n' :: others', .cons hn' hothers', by rw [List.map_cons, List.map_cons, heq, heqs]⟩

theorem map_untabbed_sources (nodes : List Node) :
    (nodes.filter Node.isSource).map Node.untabbed =
      (nodes.map Node.untabbed).filter Node.isSource := by
  rw [List.filter_map]
  rfl

theorem Describe.relisted (h : Describe descriptors nodes)
    (hrelisted : Relisted descriptors descriptors') :
    ∃ nodes', Describe descriptors' nodes' ∧ Similar nodes nodes' := by
  obtain ⟨reordered, hperm, hsources, hredrawn⟩ := hrelisted
  obtain ⟨between, hbetween, hperm'⟩ := h.reordered hperm
  obtain ⟨nodes', hnodes', heq⟩ := hbetween.redrawn hredrawn
  have hfilter : between.filter Node.isSource = nodes.filter Node.isSource :=
    hbetween.sources.unique (hsources ▸ h.sources)
  refine ⟨nodes', hnodes', ?_, ?_⟩
  · rw [heq]
    exact hperm'.map _
  · rw [← hfilter, map_untabbed_sources, map_untabbed_sources, heq]

theorem exists_describe_of_relisted (hrelisted : Relisted descriptors descriptors')
    (h : Describe descriptors' nodes') : ∃ nodes, Describe descriptors nodes := by
  obtain ⟨reordered, hperm, -, hredrawn⟩ := hrelisted
  have hback : List.Forall₂ Node.Redrawn descriptors' reordered :=
    (hredrawn.imp fun _ _ hd => hd.symm).flip
  obtain ⟨between, hbetween, -⟩ := h.redrawn hback
  obtain ⟨nodes, hnodes, -⟩ := hbetween.reordered hperm.symm
  exact ⟨nodes, hnodes⟩

end Graph

namespace Plan

/-- The walks of a graph are those that its sources, in their order, are entered for. -/
theorem outcome_unfoldSources_eq_mapM (g : Graph) (settings : Settings) :
    (unfoldSources g settings).outcome = (g.sources.map Node.id).mapM (g.enter settings []) := by
  have henter : ∀ n ∈ g.sources.attach,
      (g.unfold settings [] n.1 (List.mem_filter.1 n.2).1).outcome =
        (g.enter settings [] ∘ Node.id) n.1 :=
    fun n _ => (Graph.enter_eq (Graph.find?_of_mem (List.mem_filter.1 n.2).1)).symm
  rw [outcome_unfoldSources, Run.mapM_congr henter, List.mapM_map]
  conv_rhs => rw [← List.attach_map_subtype_val g.sources, List.mapM_map]
  rfl

theorem unfoldSources_eq_of_similar {g g' : Graph} (settings : Settings)
    (h : Graph.Similar g.nodes g'.nodes) :
    (unfoldSources g settings).outcome = (unfoldSources g' settings).outcome := by
  have hids : g.sources.map Node.id = g'.sources.map Node.id := by
    have hsources := congrArg (List.map Node.id) h.sources
    rw [List.map_map, List.map_map] at hsources
    exact hsources
  rw [outcome_unfoldSources_eq_mapM, outcome_unfoldSources_eq_mapM, hids]
  exact Run.mapM_congr fun target _ => h.enter_eq [] target

/-- Descriptors that are listed in another order and redrawn give a graph if the first ones do, and
then the same plan or the same failure, as long as the order of the sources is kept. -/
theorem ofFlow_eq_of_relisted (settings : Settings) (flowId : Value) (service : Option String)
    {descriptors descriptors' : List Value} (h : Relisted descriptors descriptors') :
    ((∃ g, (Graph.ofDescriptors descriptors).outcome = .ok g) ↔
      ∃ g, (Graph.ofDescriptors descriptors').outcome = .ok g) ∧
    ((∃ g, (Graph.ofDescriptors descriptors).outcome = .ok g) →
      (ofFlow settings (.list descriptors) flowId service).outcome =
        (ofFlow settings (.list descriptors') flowId service).outcome) := by
  have hforward (g : Graph) (hg : (Graph.ofDescriptors descriptors).outcome = .ok g) :
      ∃ g', (Graph.ofDescriptors descriptors').outcome = .ok g' ∧
        Graph.Similar g.nodes g'.nodes := by
    obtain ⟨nodes', hnodes', hsimilar⟩ := (Graph.ofDescriptors_eq_ok_iff.1 hg).relisted h
    obtain ⟨g', rfl⟩ := hsimilar.exists_graph
    exact ⟨g', Graph.ofDescriptors_eq_ok_iff.2 hnodes', hsimilar⟩
  refine ⟨⟨?_, ?_⟩, ?_⟩
  · rintro ⟨g, hg⟩
    obtain ⟨g', hg', -⟩ := hforward g hg
    exact ⟨g', hg'⟩
  · rintro ⟨g', hg'⟩
    have hdescribe := Graph.ofDescriptors_eq_ok_iff.1 hg'
    -- The order of the sources is given for one direction, so the nodes are taken back and forth.
    obtain ⟨nodes, hnodes⟩ := Graph.exists_describe_of_relisted h hdescribe
    obtain ⟨nodes', hnodes', hsimilar⟩ := hnodes.relisted h
    obtain rfl := hnodes'.unique hdescribe
    obtain ⟨g, rfl⟩ := hsimilar.symm.exists_graph
    exact ⟨g, Graph.ofDescriptors_eq_ok_iff.2 hnodes⟩
  · rintro ⟨g, hg⟩
    obtain ⟨g', hg', hsimilar⟩ := hforward g hg
    have hwalks := unfoldSources_eq_of_similar settings hsimilar
    rw [outcome_ofFlow rfl, outcome_ofFlow rfl, hg, hg']
    cases flowId.display? with
    | error e => rfl
    | ok shown =>
        change (unfoldSources g settings).outcome >>= _ = (unfoldSources g' settings).outcome >>= _
        rw [hwalks]

def twoSources : List Value :=
  [.object [("id", .text "a"), ("type", .text "device out"), ("wires", .list [.list [.text "p"]])],
    .object [("id", .text "b"), ("type", .text "device out"), ("z", .text "first tab"),
      ("wires", .list [.list [.text "h"]])],
    .object [("id", .text "p"), ("type", .text "http request out"), ("url", .text "u")],
    .object [("id", .text "h"), ("type", .text "history")]]

def movedSources : List Value :=
  [.object [("id", .text "p"), ("url", .text "u"), ("type", .text "http request out")],
    .object [("id", .text "h"), ("type", .text "history"), ("x", .int 120), ("url", .null)],
    .object [("z", .text "second tab"), ("id", .text "a"), ("type", .text "device out"),
      ("wires", .list [.list [.text "p"]])],
    .object [("id", .text "b"), ("type", .text "device out"), ("z", .text "second tab"),
      ("wires", .list [.list [.text "h"]])]]

theorem relisted_movedSources : Relisted twoSources movedSources := by
  refine ⟨twoSources.drop 2 ++ twoSources.take 2, ?_, rfl, ?_⟩
  · exact (List.perm_append_comm : (twoSources.take 2 ++ twoSources.drop 2).Perm _)
  · refine .cons (.object _ _ ?_ (.inl rfl)) (.cons (.object _ _ ?_ (.inl rfl))
      (.cons (.object _ _ ?_ (.inr ⟨.inl rfl, .inr ⟨_, rfl⟩⟩))
        (.cons (.object _ _ ?_ (.inr ⟨.inr ⟨_, rfl⟩, .inr ⟨_, rfl⟩⟩)) .nil)))
    all_goals simp [Check.Agree, Check.names, Fields.get?]

theorem ofFlow_movedSources :
    Relisted twoSources movedSources ∧
      (∃ g, (Graph.ofDescriptors twoSources).outcome = .ok g) ∧
      (ofFlow {} (.list twoSources) (.text "f") none).outcome =
        (ofFlow {} (.list movedSources) (.text "f") none).outcome := by
  have hgraph : ∃ g, (Graph.ofDescriptors twoSources).outcome = .ok g := ⟨_, rfl⟩
  exact ⟨relisted_movedSources, hgraph,
    (ofFlow_eq_of_relisted {} (.text "f") none relisted_movedSources).2 hgraph⟩

end Plan

end EventFlow
