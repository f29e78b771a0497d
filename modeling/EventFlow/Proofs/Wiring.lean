import EventFlow.Proofs.Listing

/-!
Which descriptors make up a graph.

The descriptors are read one after the other, up to the first that is rejected because it cannot be
read or its id is taken (`collect_eq_error_iff`). Only when all have nodes are the wires looked at,
those of every node and every outlet; then the first that ends nowhere is reported
(`dangling?_eq_some_iff`). A descriptor may be wired to one that comes later, so neither pass can do
the work of the other.
-/

namespace EventFlow

namespace Graph

variable {descriptors : List Value} {nodes : List Node} {i : Nat} {e : Failure}

/-! ### Descriptors that are rejected -/

theorem Describe.exists_node {d : Value} (h : Describe descriptors nodes)
    (hd : descriptors[i]? = some d) : ∃ n, nodes[i]? = some n ∧ Node.ofDescriptor d = .ok n := by
  induction h generalizing i with
  | nil => simp at hd
  | @cons _ n _ _ hn _ ih =>
      cases i with
      | zero =>
          cases hd
          exact ⟨n, rfl, hn⟩
      | succ i => exact ih hd

/-- The descriptor at a place cannot be read, or a descriptor before it has the same id. -/
inductive Rejected (descriptors : List Value) (i : Nat) : Failure → Prop where
  | unread {d : Value} {e : Failure} (here : descriptors[i]? = some d)
      (read : Node.ofDescriptor d = .error e) : Rejected descriptors i e
  | taken {d d' : Value} {n n' : Node} {j : Nat} (here : descriptors[i]? = some d)
      (read : Node.ofDescriptor d = .ok n) (before : j < i) (there : descriptors[j]? = some d')
      (read' : Node.ofDescriptor d' = .ok n') (same : n'.id = n.id) :
      Rejected descriptors i (.flow (.duplicateId n.id))

def FirstRejected (descriptors : List Value) (i : Nat) (e : Failure) : Prop :=
  Rejected descriptors i e ∧ ∀ j < i, ∀ e', ¬ Rejected descriptors j e'

theorem Rejected.of_take {k : Nat} (h : Rejected (descriptors.take k) i e) :
    i < k ∧ Rejected descriptors i e := by
  have hkept {j : Nat} {d : Value} (hd : (descriptors.take k)[j]? = some d) :
      j < k ∧ descriptors[j]? = some d := by
    rw [List.getElem?_take] at hd
    split at hd
    · next hj => exact ⟨hj, hd⟩
    · cases hd
  cases h with
  | unread here read => exact ⟨(hkept here).1, .unread (hkept here).2 read⟩
  | taken here read before there read' same =>
      exact ⟨(hkept here).1, .taken (hkept here).2 read before (hkept there).2 read' same⟩

/-- Nothing is rejected if and only if there are nodes for all descriptors and their ids are
distinct. -/
theorem forall_not_rejected_iff : (∀ i e, ¬ Rejected descriptors i e) ↔
    ∃ nodes, Describe descriptors nodes ∧ (nodes.map Node.id).Nodup := by
  constructor
  · intro hnone
    cases hread : descriptors.mapM Node.ofDescriptor with
    | error e =>
        obtain ⟨i, d, hd, hread, -⟩ := Run.mapM_eq_error_iff.1 hread
        exact absurd (.unread hd hread) (hnone i e)
    | ok nodes =>
        have hnodes : Describe descriptors nodes := Run.mapM_eq_ok_iff.1 hread
        refine ⟨nodes, hnodes, List.nodup_iff_getElem?_ne_getElem?.2 fun j i hji hi heq => ?_⟩
        rw [List.length_map, ← hnodes.length_eq] at hi
        obtain ⟨n, hn, hread⟩ := hnodes.exists_node (List.getElem?_eq_getElem hi)
        obtain ⟨n', hn', hread'⟩ :=
          hnodes.exists_node (List.getElem?_eq_getElem (hji.trans hi))
        rw [List.getElem?_map, List.getElem?_map, hn, hn'] at heq
        exact hnone i _ (.taken (List.getElem?_eq_getElem hi) hread hji
          (List.getElem?_eq_getElem (hji.trans hi)) hread' (Option.some.inj heq))
  · rintro ⟨nodes, hnodes, hdistinct⟩ i e hrejected
    cases hrejected with
    | unread here read =>
        obtain ⟨n, -, hn⟩ := hnodes.exists_node here
        rw [read] at hn
        cases hn
    | @taken d d' n n' j here read before there read' same =>
        obtain ⟨m, hm, hread⟩ := hnodes.exists_node here
        obtain ⟨m', hm', hread'⟩ := hnodes.exists_node there
        obtain rfl : n = m := Except.ok.inj (read.symm.trans hread)
        obtain rfl : n' = m' := Except.ok.inj (read'.symm.trans hread')
        have hi : i < (nodes.map Node.id).length := by
          rw [List.length_map]
          exact (List.getElem?_eq_some_iff.1 hm).1
        refine List.nodup_iff_getElem?_ne_getElem?.1 hdistinct j i before hi ?_
        rw [List.getElem?_map, List.getElem?_map, hm, hm']
        exact congrArg some same

/-- If something is rejected, something is rejected first. -/
theorem exists_firstRejected (h : Rejected descriptors i e) :
    ∃ i e, FirstRejected descriptors i e := by
  induction i using Nat.strongRecOn generalizing e with
  | ind i ih =>
      by_cases hfirst : ∀ j < i, ∀ e', ¬ Rejected descriptors j e'
      · exact ⟨i, e, h, hfirst⟩
      · simp only [not_forall, not_not] at hfirst
        obtain ⟨j, hj, e', he'⟩ := hfirst
        exact ih j hj he'

/-- Descriptors that have nodes with new ids are passed over, and their nodes are kept. -/
theorem collect_append {seen : Distinct} {before rest : List Value} {later : List Node}
    (h : Describe before later) (hdistinct : ((seen.1 ++ later).map Node.id).Nodup) :
    collect seen (before ++ rest) = collect ⟨seen.1 ++ later, hdistinct⟩ rest := by
  induction h generalizing seen with
  | nil => simp
  | @cons d n before later hn _ ih =>
      have hnew : n.id ∉ seen.1.map Node.id := by
        rw [List.map_append, List.nodup_append] at hdistinct
        exact fun hmem => hdistinct.2.2 _ hmem n.id (by simp) rfl
      have happend : seen.1 ++ n :: later = (seen.add n hnew).1 ++ later := by
        simp [Distinct.add]
      rw [List.cons_append, collect, hn]
      simp only [hnew, not_false_iff, dif_neg]
      rw [ih (happend ▸ hdistinct)]
      congr 2
      exact happend.symm

theorem collect_of_firstRejected (h : FirstRejected descriptors i e) :
    collect ⟨[], by simp⟩ descriptors = .error e := by
  obtain ⟨hrejected, hfirst⟩ := h
  obtain ⟨nodes, hnodes, hdistinct⟩ :=
    forall_not_rejected_iff.1 fun j e' (hj : Rejected (descriptors.take i) j e') =>
      hfirst j hj.of_take.1 e' hj.of_take.2
  have hsplit {d : Value} (hd : descriptors[i]? = some d) :
      descriptors = descriptors.take i ++ d :: descriptors.drop (i + 1) := by
    obtain ⟨hi, rfl⟩ := List.getElem?_eq_some_iff.1 hd
    rw [← List.drop_eq_getElem_cons hi, List.take_append_drop]
  cases hrejected with
  | unread here read =>
      rw [hsplit here, collect_append hnodes (by simpa using hdistinct), collect, read]
  | @taken d d' n n' j here read before there read' same =>
      rw [hsplit here, collect_append hnodes (by simpa using hdistinct), collect, read]
      rw [← List.getElem?_take_of_lt before] at there
      obtain ⟨m, hm, hread⟩ := hnodes.exists_node there
      obtain rfl : n' = m := Except.ok.inj (read'.symm.trans hread)
      have htaken : n.id ∈ ([] ++ nodes).map Node.id :=
        same ▸ List.mem_map_of_mem (List.mem_of_getElem? hm)
      simp only [htaken, dif_pos]

/-- Reading fails with what is wrong with the first descriptor that is rejected. -/
theorem collect_eq_error_iff :
    collect ⟨[], by simp⟩ descriptors = .error e ↔ ∃ i, FirstRejected descriptors i e := by
  constructor
  · intro h
    have hsome : ¬ ∀ i e, ¬ Rejected descriptors i e := by
      intro hnone
      obtain ⟨nodes, hnodes, hdistinct⟩ := forall_not_rejected_iff.1 hnone
      have hok : collect ⟨[], by simp⟩ descriptors = .ok ⟨nodes, hdistinct⟩ :=
        collect_eq_ok_iff.2 ⟨nodes, hnodes, rfl⟩
      rw [hok] at h
      cases h
    simp only [not_forall, not_not] at hsome
    obtain ⟨_, _, hrejected⟩ := hsome
    obtain ⟨i, e', hfirst⟩ := exists_firstRejected hrejected
    rw [collect_of_firstRejected hfirst] at h
    cases h
    exact ⟨i, hfirst⟩
  · rintro ⟨i, hfirst⟩
    exact collect_of_firstRejected hfirst

/-! ### Wires that end nowhere -/

/-- Where a wire starts: at which of the nodes, at which outlet of it, and at which place there. -/
structure Wire where
  node : Nat
  outlet : Nat
  place : Nat

namespace Wire

/-- Wires are ordered by node, then by outlet, then by place. -/
def Before (w w' : Wire) : Prop :=
  w.node < w'.node ∨ w.node = w'.node ∧
    (w.outlet < w'.outlet ∨ w.outlet = w'.outlet ∧ w.place < w'.place)

theorem before_trichotomy (w w' : Wire) : w.Before w' ∨ w = w' ∨ w'.Before w := by
  obtain ⟨a, b, c⟩ := w
  obtain ⟨a', b', c'⟩ := w'
  simp only [Before, mk.injEq]
  omega

/-- The wire leaves the node `source` and ends at the id `target`. -/
structure Runs (nodes : List Node) (w : Wire) (source : Node) (target : String) : Prop where
  leaves : nodes[w.node]? = some source
  ends : (source.wires[w.outlet]?).bind (·[w.place]?) = some target

structure FirstLoose (nodes : List Node) (w : Wire) (source : Node) (target : String) : Prop where
  runs : w.Runs nodes source target
  loose : target ∉ nodes.map Node.id
  first : ∀ (w' : Wire) source' target', w'.Before w → w'.Runs nodes source' target' →
    target' ∈ nodes.map Node.id

variable {w w' : Wire} {source source' : Node} {target target' : String}

theorem Runs.mem_flatten (h : w.Runs nodes source target) : target ∈ source.wires.flatten := by
  obtain ⟨outlet, houtlet, htarget⟩ := Option.bind_eq_some_iff.1 h.ends
  exact List.mem_flatten.2 ⟨outlet, List.mem_of_getElem? houtlet, List.mem_of_getElem? htarget⟩

theorem Runs.unique (h : w.Runs nodes source target) (h' : w.Runs nodes source' target') :
    source = source' ∧ target = target' := by
  obtain rfl := Option.some.inj (h.leaves.symm.trans h'.leaves)
  exact ⟨rfl, Option.some.inj (h.ends.symm.trans h'.ends)⟩

theorem FirstLoose.unique (h : w.FirstLoose nodes source target)
    (h' : w'.FirstLoose nodes source' target') : source = source' ∧ target = target' := by
  obtain hbefore | rfl | hbefore := before_trichotomy w w'
  · exact absurd (h'.first w source target hbefore h.runs) h.loose
  · exact h.runs.unique h'.runs
  · exact absurd (h.first w' source' target' hbefore h'.runs) h'.loose

end Wire

theorem exists_firstLoose {source target : String} (h : dangling? nodes = some (source, target)) :
    ∃ (w : Wire) (n : Node), n.id = source ∧ w.FirstLoose nodes n target := by
  obtain ⟨before, n, after, hnodes, hn, hbefore⟩ := List.findSome?_eq_some_iff.1 h
  obtain ⟨target, htarget, hpair⟩ := Option.map_eq_some_iff.1 hn
  cases hpair
  obtain ⟨hloose, outlets, places, rest, others, hwires, houtlets, hplaces⟩ :=
    List.find?_flatten_eq_some_iff.1 htarget
  refine ⟨⟨before.length, outlets.length, places.length⟩, n, rfl,
    ⟨by simp [hnodes], by simp [hwires]⟩, by simpa using hloose, ?_⟩
  rintro ⟨a, b, c⟩ source' target' hfirst hruns
  obtain ha | ⟨rfl, hfirst⟩ := hfirst
  · -- The wires of a node before are all among those that were passed over.
    have hmem : source' ∈ before := by
      have hsource := hruns.leaves
      rw [hnodes, List.getElem?_append_left ha] at hsource
      exact List.mem_of_getElem? hsource
    have hnone := List.find?_eq_none.1 (Option.map_eq_none_iff.1 (hbefore source' hmem))
    simpa using hnone target' hruns.mem_flatten
  · obtain rfl : n = source' := by simpa [hnodes] using hruns.leaves
    have hends := hruns.ends
    obtain hb | ⟨rfl, hc⟩ := hfirst
    · simp only [hwires, List.getElem?_append_left hb] at hends
      obtain ⟨outlet, houtlet, hplace⟩ := Option.bind_eq_some_iff.1 hends
      simpa using houtlets outlet (List.mem_of_getElem? houtlet) target'
        (List.mem_of_getElem? hplace)
    · simp only [hwires, List.getElem?_append_right le_rfl, Nat.sub_self, List.getElem?_cons_zero,
        Option.bind_some, List.getElem?_append_left hc] at hends
      simpa using hplaces target' (List.mem_of_getElem? hends)

/-- The wire that is reported is the first that ends nowhere. -/
theorem dangling?_eq_some_iff {source target : String} :
    dangling? nodes = some (source, target) ↔
      ∃ (w : Wire) (n : Node), n.id = source ∧ w.FirstLoose nodes n target := by
  refine ⟨exists_firstLoose, ?_⟩
  rintro ⟨w, n, rfl, hfirst⟩
  cases hdangling : dangling? nodes with
  | none =>
      obtain ⟨outlet, houtlet, htarget⟩ := List.mem_flatten.1 hfirst.runs.mem_flatten
      exact absurd (wired_of_dangling?_eq_none hdangling n
        (List.mem_of_getElem? hfirst.runs.leaves) outlet houtlet target htarget) hfirst.loose
  | some reported =>
      obtain ⟨w', n', hid, hfirst'⟩ := exists_firstLoose hdangling
      obtain ⟨rfl, htarget⟩ := hfirst.unique hfirst'
      rw [hid, htarget]

theorem ofNodes_eq_error_iff {nodes : Distinct} : ofNodes nodes = .error e ↔
    ∃ (w : Wire) (n : Node) (target : String), w.FirstLoose nodes.1 n target ∧
      e = .flow (.danglingWire n.id target) := by
  rw [ofNodes]
  split
  · next source target hdangling =>
      obtain ⟨w, n, rfl, hfirst⟩ := dangling?_eq_some_iff.1 hdangling
      constructor
      · intro h
        cases h
        exact ⟨w, n, target, hfirst, rfl⟩
      · rintro ⟨w', n', target', hfirst', rfl⟩
        obtain ⟨rfl, rfl⟩ := hfirst.unique hfirst'
        rfl
  · next hnone =>
      constructor
      · intro h
        cases h
      · rintro ⟨w, n, target, hfirst, -⟩
        rw [dangling?_eq_some_iff.2 ⟨w, n, rfl, hfirst⟩] at hnone
        cases hnone

/-! ### The graph of some descriptors -/

theorem find?_eq_some_iff {g : Graph} {id : String} {n : Node} :
    g.find? id = some n ↔ n ∈ g.nodes ∧ n.id = id := by
  constructor
  · intro h
    exact ⟨mem_of_find? h, id_of_find? h⟩
  · rintro ⟨hn, rfl⟩
    exact find?_of_mem hn

theorem exists_ofDescriptors_iff : (∃ g, (ofDescriptors descriptors).outcome = .ok g) ↔
    ∃ nodes, Describe descriptors nodes ∧ (nodes.map Node.id).Nodup ∧
      ∀ n ∈ nodes, ∀ outlet ∈ n.wires, ∀ target ∈ outlet, target ∈ nodes.map Node.id := by
  constructor
  · rintro ⟨g, hg⟩
    exact ⟨g.nodes, ofDescriptors_eq_ok_iff.1 hg, g.distinct, g.wired⟩
  · rintro ⟨nodes, hnodes, hdistinct, hwired⟩
    exact ⟨⟨nodes, hdistinct, hwired⟩, ofDescriptors_eq_ok_iff.2 hnodes⟩

theorem ofDescriptors_eq_error_iff : (ofDescriptors descriptors).outcome = .error e ↔
    (∃ i, FirstRejected descriptors i e) ∨
      (∀ i e', ¬ Rejected descriptors i e') ∧
        ∃ (nodes : List Node) (w : Wire) (n : Node) (target : String),
          Describe descriptors nodes ∧ w.FirstLoose nodes n target ∧
            e = .flow (.danglingWire n.id target) := by
  rw [outcome_ofDescriptors]
  cases hcollect : collect ⟨[], by simp⟩ descriptors with
  | error e' =>
      obtain ⟨i, hfirst⟩ := collect_eq_error_iff.1 hcollect
      constructor
      · intro h
        cases h
        exact .inl ⟨i, hfirst⟩
      · rintro (hrejected | ⟨hnone, -⟩)
        · rw [collect_eq_error_iff.2 hrejected] at hcollect
          cases hcollect
          rfl
        · exact absurd hfirst.1 (hnone i e')
  | ok nodes =>
      obtain ⟨later, hlater, hnodes⟩ := collect_eq_ok_iff.1 hcollect
      rw [List.nil_append] at hnodes
      rw [← hnodes] at hlater
      have hnone : ∀ i e', ¬ Rejected descriptors i e' :=
        forall_not_rejected_iff.2 ⟨nodes.1, hlater, nodes.2⟩
      change ofNodes nodes = .error e ↔ _
      rw [ofNodes_eq_error_iff]
      constructor
      · rintro ⟨w, n, target, hfirst, rfl⟩
        exact .inr ⟨hnone, nodes.1, w, n, target, hlater, hfirst, rfl⟩
      · rintro (⟨i, hrejected⟩ | ⟨-, nodes', w, n, target, hnodes', hfirst, rfl⟩)
        · exact absurd hrejected.1 (hnone i e)
        · obtain rfl := hnodes'.unique hlater
          exact ⟨w, n, target, hfirst, rfl⟩

/-- Descriptors make up a graph if and only if each of them is read, no two have the same id, and
every wire, of whatever node and outlet, ends at one of the nodes. The graph has the nodes in the
order of their descriptors, finds each under its id, and has the sources in the same order.

Otherwise the failure is that of the first descriptor that is not read or has an id that is taken
and, only if there is none, that of the first wire, by node, outlet and place, that ends nowhere. -/
theorem ofDescriptors_accepts_wired (descriptors : List Value) :
    ((∃ g, (ofDescriptors descriptors).outcome = .ok g) ↔
      ∃ nodes, Describe descriptors nodes ∧ (nodes.map Node.id).Nodup ∧
        ∀ n ∈ nodes, ∀ outlet ∈ n.wires, ∀ target ∈ outlet, target ∈ nodes.map Node.id) ∧
    (∀ g, (ofDescriptors descriptors).outcome = .ok g →
      Describe descriptors g.nodes ∧
      (∀ id n, g.find? id = some n ↔ n ∈ g.nodes ∧ n.id = id) ∧
      Describe (descriptors.filter Node.describesSource) g.sources) ∧
    ∀ e, (ofDescriptors descriptors).outcome = .error e ↔
      (∃ i, FirstRejected descriptors i e) ∨
        (∀ i e', ¬ Rejected descriptors i e') ∧
          ∃ (nodes : List Node) (w : Wire) (n : Node) (target : String),
            Describe descriptors nodes ∧ w.FirstLoose nodes n target ∧
              e = .flow (.danglingWire n.id target) := by
  refine ⟨exists_ofDescriptors_iff, fun g hg => ?_, fun e => ofDescriptors_eq_error_iff⟩
  have hdescribe : Describe descriptors g.nodes := ofDescriptors_eq_ok_iff.1 hg
  exact ⟨hdescribe, fun id n => find?_eq_some_iff, hdescribe.sources⟩

-- A wire of the first node ends nowhere, but the third descriptor is rejected before that counts.
example : (ofDescriptors [
    .object [("id", .text "a"), ("type", .text "gauge"), ("wires", .list [.list [.text "z"]])],
    .object [("id", .text "b"), ("type", .text "history")],
    .object [("id", .text "b"), ("type", .text "history")]]).outcome =
      .error (.flow (.duplicateId "b")) := rfl

end Graph

end EventFlow
