import EventFlow.Proofs.Harvests
import Mathlib.Data.List.Nodup

/-!
Extraction: the drafts that a start node gives are the routes from it.

There is one draft for each route, in the order of the routes. What shared objects do to their
memories depends on the stretches of the graph, which are said here by its nodes alone: the drafts
of two ways to a node store the same object, and if it is overtaken one of them writes into an
object that the other holds.
-/

namespace EventFlow

open EventFlow.Tree Step

namespace Step

/-- What the first step that stores an object stores, and the steps after it. -/
def after? (key : LiteralKey) : List Step → Option (String × Fields Value × List Step)
  | [] => none
  | .share path key' fields :: steps =>
    if key' = key then some (path, fields, steps) else after? key steps
  | _ :: steps => after? key steps

theorem after?_append {key : LiteralKey} {before : List Step} (h : key ∉ before.filterMap key?)
    (steps : List Step) : after? key (before ++ steps) = after? key steps := by
  induction before with
  | nil => rfl
  | cons step before ih =>
      cases step with
      | share path key' fields =>
          have h : key ∉ key' :: before.filterMap key? := h
          rw [List.mem_cons, not_or] at h
          rw [List.cons_append, after?, if_neg (Ne.symm h.1), ih h.2]
      | _ => exact ih h

end Step

namespace Graph

variable {g : Graph} {n m : Node}

def Reaches (g : Graph) (n m : Node) : Prop :=
  ∃ turns, (g.nodesAlong? n turns).isSome ∧ g.endAlong n turns = m

theorem Reaches.refl (g : Graph) (n : Node) : g.Reaches n n :=
  ⟨[], rfl, rfl⟩

theorem Reaches.turn {turn : Turn} {k : Node} (h : g.next? n turn = some m) (hk : g.Reaches m k) :
    g.Reaches n k := by
  obtain ⟨turns, hturns, hend⟩ := hk
  refine ⟨turn :: turns, ?_, ?_⟩
  · simpa [nodesAlong?, h] using hturns
  · simpa [endAlong, h] using hend

theorem mem_of_reaches (hn : n ∈ g.nodes) (h : g.Reaches n m) : m ∈ g.nodes := by
  obtain ⟨turns, hturns, rfl⟩ := h
  induction turns generalizing n with
  | nil => exact hn
  | cons turn turns ih =>
      rw [nodesAlong?] at hturns
      rw [endAlong]
      cases hm : g.next? n turn with
      | none =>
          rw [hm] at hturns
          cases hturns
      | some m =>
          rw [hm] at hturns
          exact ih (mem_of_next? hm) (by simpa using hturns)

/-- The steps that a draft takes from a node before it is copied. -/
inductive Stretch (g : Graph) : Node → List Step → Prop where
  | stop {n : Node} (h : n.copies = true ∨ n.isLive 0 = false) : Stretch g n []
  | fork {n : Node} (hcopies : n.copies = false) (hlive : n.isLive 0 = true)
      (htargets : (n.outlet 0).length ≠ 1) : Stretch g n (n.effects 0)
  | next {n m : Node} {target : String} {steps : List Step} (hcopies : n.copies = false)
      (hlive : n.isLive 0 = true) (htargets : n.outlet 0 = [target])
      (hm : g.find? target = some m) (hsteps : Stretch g m steps) :
      Stretch g n (n.effects 0 ++ steps)

theorem Stretch.unique {steps steps' : List Step} (h : g.Stretch n steps)
    (h' : g.Stretch n steps') : steps = steps' := by
  induction h generalizing steps' with
  | stop h =>
      cases h' with
      | stop => rfl
      | fork hcopies hlive _ => simp [hcopies, hlive] at h
      | next hcopies hlive _ _ _ => simp [hcopies, hlive] at h
  | fork hcopies hlive htargets =>
      cases h' with
      | stop h => simp [hcopies, hlive] at h
      | fork => rfl
      | next _ _ htargets' _ _ => simp [htargets'] at htargets
  | next hcopies hlive htargets hm _ ih =>
      cases h' with
      | stop h => simp [hcopies, hlive] at h
      | fork _ _ htargets' => simp [htargets] at htargets'
      | next _ _ htargets' hm' hsteps' =>
          rw [htargets] at htargets'
          cases htargets'
          rw [hm] at hm'
          cases hm'
          rw [ih hsteps']

def Leads (g : Graph) (n : Node) (turns : List Turn) (id : String) : Prop :=
  (g.nodesAlong? n turns).isSome ∧ (g.endAlong n turns).id = id

theorem Leads.turn {turn : Turn} {turns : List Turn} {id : String} (h : g.next? n turn = some m)
    (hm : g.Leads m turns id) : g.Leads n (turn :: turns) id := by
  obtain ⟨hturns, hend⟩ := hm
  refine ⟨?_, ?_⟩
  · simpa [nodesAlong?, h] using hturns
  · simpa [endAlong, h] using hend

def OneWay (g : Graph) (n : Node) (id : String) : Prop :=
  ∀ turns turns', g.Leads n turns id → g.Leads n turns' id → turns = turns'

theorem OneWay.turn {turn : Turn} {id : String} (h : g.OneWay n id) (hm : g.next? n turn = some m) :
    g.OneWay m id :=
  fun _ _ hturns hturns' => (List.cons.inj (h _ _ (hturns.turn hm) (hturns'.turn hm))).2

/-- Only objects with `P` are overtaken on the stretches behind a node. -/
def Guards (g : Graph) (P : LiteralKey → Prop) (n : Node) : Prop :=
  ∀ m steps key, g.Reaches n m → g.Stretch m steps → Overtaken key steps → P key

/-- No object is overtaken behind a node but one that is stored on a single way. -/
def Steady (g : Graph) (n : Node) : Prop :=
  g.Guards (fun key => g.OneWay n key.node) n

/-- The layout says of every object what the stretch from its own node makes of it. -/
def HasLayout (g : Graph) (L : Layout) : Prop :=
  ∀ n ∈ g.nodes, ∀ steps, g.Stretch n steps → ∀ key path fields rest, key.node = n.id →
    after? key steps = some (path, fields, rest) →
      L.place key = Text.segments path ∧
        L.final key = run (beneath (Text.segments path) (writes rest))
          (.object (some key) (ofFields fields))

theorem exists_hasLayout (g : Graph) : ∃ L, g.HasLayout L := by
  have hkey (key : LiteralKey) : ∃ (place : List String) (final : Tree), ∀ n ∈ g.nodes,
      ∀ steps, g.Stretch n steps → ∀ path fields rest, key.node = n.id →
        after? key steps = some (path, fields, rest) →
          place = Text.segments path ∧
            final = run (beneath (Text.segments path) (writes rest))
              (.object (some key) (ofFields fields)) := by
    -- The key names its node, and there is one stretch from a node.
    by_cases h : ∃ n ∈ g.nodes, ∃ steps, g.Stretch n steps ∧ key.node = n.id ∧
        (after? key steps).isSome
    · obtain ⟨n, hn, steps, hsteps, hnode, hafter⟩ := h
      obtain ⟨⟨path, fields, rest⟩, hafter⟩ := Option.isSome_iff_exists.1 hafter
      refine ⟨Text.segments path, run (beneath (Text.segments path) (writes rest))
        (.object (some key) (ofFields fields)), ?_⟩
      intro n' hn' steps' hsteps' path' fields' rest' hnode' hafter'
      obtain rfl : n = n' :=
        List.inj_on_of_nodup_map g.distinct hn hn' (hnode.symm.trans hnode')
      rw [← hsteps.unique hsteps', hafter] at hafter'
      cases hafter'
      exact ⟨rfl, rfl⟩
    · refine ⟨[], .value .null rfl, ?_⟩
      intro n hn steps hsteps path fields rest hnode hafter
      exact absurd ⟨n, hn, steps, hsteps, hnode, by rw [hafter]; rfl⟩ h
  choose place final hlayout using hkey
  exact ⟨⟨place, final⟩, fun n hn steps hsteps key path fields rest =>
    hlayout key n hn steps hsteps path fields rest⟩

end Graph

/-! ### The objects of a node -/

theorem Change.filterMap_key?_steps (rule : Change) (node : String) (index : Nat) :
    List.Sublist ((rule.steps node index).filterMap key?) [⟨node, index⟩] := by
  rw [Change.steps]
  split
  · split
    · exact List.Sublist.refl _
    · exact List.nil_sublist _
  · exact List.nil_sublist _

theorem Branch.write?_steps {property : String} {rules : List Branch} {rule : Branch} :
    ∀ step ∈ rule.steps property rules, step.write? = none := by
  intro step hstep
  obtain ⟨_, _, rfl⟩ | rfl := Branch.mem_steps hstep
  · rfl
  · rfl

theorem Branch.write?_crossing {property : String} {rule : Branch} :
    ∀ step ∈ rule.crossing property, step.write? = none := by
  intro step hstep
  rw [Branch.crossing] at hstep
  split at hstep
  · cases hstep
  · simp only [List.mem_cons, List.not_mem_nil, or_false] at hstep
    obtain rfl | rfl := hstep <;> rfl

theorem Area.write?_steps {points : Option (List Vertex)} {filter : Option String} :
    ∀ step ∈ Area.steps points filter, step.write? = none := by
  intro step hstep
  rw [Area.steps] at hstep
  split at hstep
  · obtain ⟨_, _, rfl⟩ := List.mem_map.1 hstep
    rfl
  · cases hstep

theorem Step.filterMap_key?_of_write? {steps : List Step} (h : ∀ step ∈ steps, step.write? = none) :
    steps.filterMap key? = [] := by
  refine List.filterMap_eq_nil_iff.2 fun step hstep => ?_
  have hwrite := h step hstep
  cases step with
  | share path key fields => cases hwrite
  | _ => rfl

namespace Node

/-- Nodes that copy the drafts they pass on write nothing to them. -/
theorem write?_effects {n : Node} {i : Nat} (h : n.copies = true) :
    ∀ step ∈ n.effects i, step.write? = none := by
  obtain ⟨id, type, tab, wires, kind⟩ := n
  intro step hstep
  cases kind with
  | source deviceId deviceType =>
      rw [List.mem_singleton.1 hstep]
      rfl
  | switch property rules =>
      cases hrule : rules[i]? with
      | none => simp [effects, hrule] at hstep
      | some rule => exact Branch.write?_steps step (by simpa [effects, hrule] using hstep)
  | edge property rules =>
      cases hrule : rules[i]? with
      | none => simp [effects, hrule] at hstep
      | some rule => exact Branch.write?_crossing step (by simpa [effects, hrule] using hstep)
  | _ => cases h

/-- The objects that a node stores are its own, and it stores none of them twice. -/
theorem filterMap_key?_effects (n : Node) (i : Nat) :
    ((n.effects i).filterMap key?).Nodup ∧
      ∀ key ∈ (n.effects i).filterMap key?, key.node = n.id := by
  have hnothing (h : (n.effects i).filterMap key? = []) :
      ((n.effects i).filterMap key?).Nodup ∧
        ∀ key ∈ (n.effects i).filterMap key?, key.node = n.id := by
    rw [h]
    exact ⟨List.nodup_nil, fun key hkey => by cases hkey⟩
  cases hcopies : n.copies with
  | true => exact hnothing (filterMap_key?_of_write? (write?_effects hcopies))
  | false =>
      obtain ⟨id, type, tab, wires, kind⟩ := n
      cases kind with
      | change rules =>
          have hsub (entries : List (Change × Nat)) :
              List.Sublist ((entries.flatMap fun entry => entry.1.steps id entry.2).filterMap key?)
                (entries.map fun entry => ⟨id, entry.2⟩) := by
            induction entries with
            | nil => exact List.Sublist.refl _
            | cons entry entries ih =>
                rw [List.flatMap_cons, List.filterMap_append]
                exact (entry.1.filterMap_key?_steps id entry.2).append ih
          have hnodup : (rules.zipIdx.map fun entry => (⟨id, entry.2⟩ : LiteralKey)).Nodup := by
            have hindices : (rules.zipIdx.map Prod.snd).Nodup := by
              rw [List.zipIdx_map_snd]
              exact List.nodup_range'
            have hinjective : Function.Injective fun k : Nat => (⟨id, k⟩ : LiteralKey) :=
              fun k k' h => by cases h; rfl
            have hmapped := hindices.map hinjective
            rw [List.map_map] at hmapped
            exact hmapped
          refine ⟨(hsub rules.zipIdx).nodup hnodup, fun key hkey => ?_⟩
          obtain ⟨_, _, rfl⟩ := List.mem_map.1 ((hsub rules.zipIdx).subset hkey)
          rfl
      | geofence points mode filter => exact hnothing (filterMap_key?_of_write? Area.write?_steps)
      | source _ _ => cases hcopies
      | switch _ _ => cases hcopies
      | edge _ _ => cases hcopies
      | _ => exact hnothing rfl

end Node

namespace Graph

variable {g : Graph} {n m : Node} {L : Layout}

/-- A layout that fits what comes after a node fits the effects of the node as well. -/
theorem fits_effects {i : Nat} {rest : List Step}
    (hlayout : ∀ key path fields later, key.node = n.id →
      after? key (n.effects i ++ rest) = some (path, fields, later) →
        L.place key = Text.segments path ∧
          L.final key = run (beneath (Text.segments path) (writes later))
            (.object (some key) (ofFields fields)))
    (hrest : L.Fits rest) : L.Fits (n.effects i ++ rest) := by
  obtain ⟨hnodup, hnode⟩ := n.filterMap_key?_effects i
  -- The steps are taken from the end of the effects, so what comes before one of them is known.
  have hsuffix (before later : List Step) (hsplit : n.effects i = before ++ later) :
      L.Fits (later ++ rest) := by
    induction later generalizing before with
    | nil => exact hrest
    | cons step later ih =>
        have hlater := ih (before ++ [step]) (by simpa using hsplit)
        cases step with
        | share path key fields =>
            rw [hsplit, List.filterMap_append] at hnodup
            have hkey : key ∉ before.filterMap key? := fun hmem =>
              (List.nodup_append.1 hnodup).2.2 key hmem key (.head _) rfl
            refine ⟨hlayout key path fields (later ++ rest) ?_ ?_, hlater⟩
            · exact hnode key (hsplit ▸ by simp [key?])
            · rw [hsplit, List.append_assoc, after?_append hkey]
              simp [after?]
        | _ => exact hlater
  exact hsuffix [] _ rfl

/-- The layout of a graph fits all its stretches. -/
theorem HasLayout.fits (hlayout : g.HasLayout L) {steps : List Step} (hn : n ∈ g.nodes)
    (h : g.Stretch n steps) : L.Fits steps := by
  induction h with
  | stop _ => trivial
  | @fork n hcopies hlive htargets =>
      have hfork := hlayout n hn _ (.fork hcopies hlive htargets)
      rw [← List.append_nil (n.effects 0)] at hfork ⊢
      exact fits_effects hfork trivial
  | next hcopies hlive htargets hm hsteps ih =>
      exact fits_effects (hlayout _ hn _ (.next hcopies hlive htargets hm hsteps))
        (ih (mem_of_find? hm))

theorem liveOutlets_of_copies (hcopies : n.copies = false) {i : Nat} (h : n.isLive i = true) :
    i = 0 ∧ n.liveOutlets = [0] := by
  obtain ⟨id, type, tab, wires, kind⟩ := n
  cases kind with
  | change rules =>
      obtain rfl : i = 0 := by simpa [Node.isLive] using h
      exact ⟨rfl, rfl⟩
  | template field template =>
      obtain rfl : i = 0 := by simpa [Node.isLive] using h
      exact ⟨rfl, rfl⟩
  | geofence points mode filter =>
      obtain rfl : i = 0 := (by simpa [Node.isLive] using h : i = 0 ∧ _).1
      exact ⟨rfl, by simp [Node.liveOutlets, Node.exits, List.range_succ, h]⟩
  | source _ _ => cases hcopies
  | switch _ _ => cases hcopies
  | edge _ _ => cases hcopies
  | _ => cases h

/-- The stretch from a node that does not copy, if the walks behind its outlet have the stretches of
their nodes. -/
theorem stretch_exit {ws : List Walk} (hcopies : n.copies = false) (hlive : n.isLive 0 = true)
    (hws : List.Forall₂ (fun target w => ∃ m, g.find? target = some m ∧ g.Stretch m w.stretch)
      (n.outlet 0) ws) :
    g.Stretch n (n.effects 0 ++ Walk.stretchOf ws) := by
  have hfork (hone : ws.length ≠ 1) : g.Stretch n (n.effects 0 ++ []) := by
    rw [List.append_nil]
    exact .fork hcopies hlive (hws.length_eq ▸ hone)
  match ws with
  | [] => exact hfork (by simp)
  | [w] =>
      obtain ⟨target, rest, ⟨m, hm, hstretch⟩, hrest, houtlet⟩ := List.forall₂_cons_right_iff.1 hws
      obtain rfl := List.forall₂_nil_right_iff.1 hrest
      exact .next hcopies hlive houtlet hm hstretch
  | _ :: _ :: _ => exact hfork (by simp)

/-- The stretch of a walk is that of its node. -/
theorem stretch_pass {next : Nat → List Walk}
    (hnext : ∀ i, n.isLive i = true → List.Forall₂ (fun target w =>
      ∃ m, g.find? target = some m ∧ g.Stretch m w.stretch) (n.outlet i) (next i)) :
    g.Stretch n (Walk.pass false []
      (n.liveOutlets.map fun i => .pass n.copies (n.effects i) (next i))).stretch := by
  rw [Walk.stretch, List.nil_append]
  cases hcopies : n.copies with
  | true =>
      have hnothing (outlets : List Nat) : Walk.stretchOf
          (outlets.map fun i => .pass true (n.effects i) (next i)) = [] := by
        match outlets with
        | [] => rfl
        | [_] => rfl
        | _ :: _ :: _ => rfl
      rw [hnothing]
      exact .stop (.inl hcopies)
  | false =>
      cases hlive : n.isLive 0 with
      | true =>
          rw [(liveOutlets_of_copies hcopies hlive).2]
          exact stretch_exit hcopies hlive (hnext 0 hlive)
      | false =>
          have hnone : n.liveOutlets = [] := by
            refine List.eq_nil_iff_forall_not_mem.2 fun i hi => ?_
            have hi := Node.mem_liveOutlets.1 hi
            obtain ⟨rfl, _⟩ := liveOutlets_of_copies hcopies hi
            rw [hlive] at hi
            cases hi
          rw [hnone]
          exact .stop (.inr hlive)

theorem overtaken_of_append {before steps : List Step} {key : LiteralKey}
    (hbefore : ∀ step ∈ before, step.write? = none) (h : Overtaken key (before ++ steps)) :
    Overtaken key steps := by
  obtain ⟨outer, fields, step, write, inner, key', fields', hsub, hwrite, hrest⟩ := h
  refine ⟨outer, fields, step, write, inner, key', fields', ?_, hwrite, hrest⟩
  have hfilter := hsub.filter (·.write?.isSome)
  have hnone : before.filter (·.write?.isSome) = [] :=
    List.filter_eq_nil_iff.2 fun step hstep => by simp [hbefore step hstep]
  rw [List.filter_append, hnone, List.nil_append] at hfilter
  have hall : [.share outer key fields, step, .share inner key' fields'].filter (·.write?.isSome) =
      [.share outer key fields, step, .share inner key' fields'] := by
    rw [List.filter_cons_of_pos rfl, List.filter_cons_of_pos (by rw [hwrite]; rfl),
      List.filter_cons_of_pos rfl]
    rfl
  rw [hall] at hfilter
  exact hfilter.trans List.filter_sublist

theorem fits_append {before steps : List Step} (hbefore : ∀ step ∈ before, step.write? = none)
    (h : L.Fits steps) : L.Fits (before ++ steps) := by
  induction before with
  | nil => exact h
  | cons step before ih =>
      have hrest := ih fun s hs => hbefore s (.tail _ hs)
      have hstep := hbefore step (.head _)
      cases step with
      | share path key fields => cases hstep
      | _ => exact hrest

/-- What a node passes on to its targets before it copies it. -/
theorem stretchOf_induction {P : List Step → Prop} {targets : List String} {ws : List Walk}
    (hws : List.Forall₂ (fun _ w => P w.stretch) targets ws) (hnil : P []) :
    P (Walk.stretchOf ws) := by
  match ws with
  | [] => exact hnil
  | [_] =>
      obtain ⟨_, _, hw, _, _⟩ := List.forall₂_cons_right_iff.1 hws
      exact hw
  | _ :: _ :: _ => exact hnil

theorem steadyAll_iff {P : LiteralKey → Prop} {ws : List Walk} :
    Walk.SteadyAll L P ws ↔ ∀ w ∈ ws, w.Steady L P := by
  induction ws with
  | nil => simp [Walk.SteadyAll]
  | cons w rest ih => rw [Walk.SteadyAll, ih, List.forall_mem_cons]

theorem not_overtaken_nil {key : LiteralKey} : ¬ Overtaken key [] := by
  rintro ⟨_, _, _, _, _, _, _, hsub, _⟩
  cases hsub

theorem Guards.turn {P : LiteralKey → Prop} {turn : Turn} (h : g.Guards P n)
    (hm : g.next? n turn = some m) : g.Guards P m :=
  fun k steps key hk => h k steps key (.turn hm hk)

/-- A walk is steady if its graph is. -/
theorem steady_unfold {P : LiteralKey → Prop} {settings : Settings} {path : List String} {w : Walk}
    (hlayout : g.HasLayout L) (hn : n ∈ g.nodes) (h : (g.unfold settings path n hn).outcome = .ok w)
    (hguards : g.Guards P n) : w.Steady L P := by
  refine (unfold_induction
    (motive := fun n w => g.Guards P n → w.Steady L P ∧ g.Stretch n w.stretch) ?_ ?_ hn h hguards).1
  · intro n action _ ha _
    have hsink : n.isSink = true := (isSink_iff_ofNode? settings).2 ⟨action, ha⟩
    exact ⟨trivial, .stop (.inr (isLive_eq_false_of_isSink hsink 0))⟩
  · intro n next hn _ hnext hguards
    have hbehind (i : Nat) (hi : n.isLive i = true) : List.Forall₂ (fun target w =>
        ∃ m ∈ g.nodes, g.find? target = some m ∧ g.Guards P m ∧ w.Steady L P ∧
          g.Stretch m w.stretch) (n.outlet i) (next i) := by
      refine List.forall₂_iff_get.2 ⟨(hnext i hi).length_eq, fun k hk hk' => ?_⟩
      obtain ⟨m, hm, hfind, hsteady⟩ := (hnext i hi).get hk hk'
      have hturn : g.next? n (i, k) = some m :=
        next?_eq_some_iff.2 ⟨hi, _, List.getElem?_eq_getElem hk, hfind⟩
      exact ⟨m, hm, hfind, hguards.turn hturn, hsteady (hguards.turn hturn)⟩
    have hstretch := stretch_pass fun i hi => (hbehind i hi).imp
      fun target w ⟨m, _, hm, _, _, hw⟩ => ⟨m, hm, hw⟩
    have hovertaken (key : LiteralKey) := hguards n _ key (.refl g n) hstretch
    refine ⟨⟨⟨hlayout.fits hn hstretch, hovertaken⟩, ?_⟩, hstretch⟩
    refine steadyAll_iff.2 fun w hw => ?_
    obtain ⟨i, hi, rfl⟩ := List.mem_map.1 hw
    have hi := Node.mem_liveOutlets.1 hi
    refine ⟨?_, steadyAll_iff.2 fun w hw => ?_⟩
    · -- A node that copies writes nothing, so the stretch behind it is that of the next node.
      cases hcopies : n.copies with
      | false =>
          obtain ⟨rfl, _⟩ := liveOutlets_of_copies hcopies hi
          have hexit := stretch_exit hcopies hi ((hbehind 0 hi).imp
            fun target w ⟨m, _, hm, _, _, hw⟩ => ⟨m, hm, hw⟩)
          exact ⟨hlayout.fits hn hexit, fun key => hguards n _ key (.refl g n) hexit⟩
      | true =>
          have hnothing := Node.write?_effects (i := i) hcopies
          refine ⟨fits_append hnothing ?_, fun key hkey => ?_⟩
          · exact stretchOf_induction ((hbehind i hi).imp
              fun target w ⟨m, hm, _, _, _, hw⟩ => hlayout.fits hm hw) trivial
          · have hovertaken := overtaken_of_append hnothing hkey
            exact stretchOf_induction (P := fun steps => Overtaken key steps → P key)
              ((hbehind i hi).imp fun target w ⟨m, _, _, hm, _, hw⟩ => hm m _ key (.refl g m) hw)
              (fun h => absurd h not_overtaken_nil) hovertaken
    · obtain ⟨k, hk⟩ := List.mem_iff_get.1 hw
      have hlength := (hbehind i hi).length_eq
      obtain ⟨_, _, _, _, hsteady, _⟩ := (hbehind i hi).get (by omega : k.1 < _) k.2
      exact hk ▸ hsteady

/-! ### How often an object is stored -/

theorem count_flatMap_le_one {α : Type} {f : α → List LiteralKey} {key : LiteralKey} {xs : List α}
    (heach : ∀ x ∈ xs, (f x).count key ≤ 1)
    (hone : xs.Pairwise fun x y => key ∈ f x → key ∉ f y) : (xs.flatMap f).count key ≤ 1 := by
  induction xs with
  | nil => simp
  | cons x xs ih =>
      obtain ⟨hx, hxs⟩ := List.pairwise_cons.1 hone
      obtain ⟨hfirst, hrest⟩ := List.forall_mem_cons.1 heach
      rw [List.flatMap_cons, List.count_append]
      by_cases hmem : key ∈ f x
      · have hnone : (xs.flatMap f).count key = 0 := by
          refine List.count_eq_zero.2 fun hkey => ?_
          obtain ⟨y, hy, hkey⟩ := List.mem_flatMap.1 hkey
          exact hx y hy hmem hkey
        omega
      · have hnone : (f x).count key = 0 := List.count_eq_zero.2 hmem
        have hle := ih hrest hxs
        omega

/-- The objects that a node stores, and those stored behind its outlet. -/
theorem keys_pass (n : Node) (next : Nat → List Walk) :
    (Walk.pass false [] (n.liveOutlets.map fun i => .pass n.copies (n.effects i) (next i))).keys =
      n.liveOutlets.flatMap fun i =>
        (n.effects i).filterMap key? ++ (next i).flatMap Walk.keys := by
  rw [Walk.keys, Walk.keysOf_eq_flatMap, List.flatMap_map]
  simp only [Walk.keys, Walk.keysOf_eq_flatMap]
  rfl

theorem count_keys_pass {next : Nat → List Walk} {key : LiteralKey}
    (hleads : ∀ i, n.isLive i = true → ∀ k (hk : k < (next i).length),
      key ∈ ((next i).get ⟨k, hk⟩).keys → ∃ turns, g.Leads n ((i, k) :: turns) key.node)
    (hcount : ∀ i, n.isLive i = true → ∀ w ∈ next i, w.keys.count key ≤ 1)
    (hone : g.OneWay n key.node) :
    (n.liveOutlets.flatMap fun i =>
      (n.effects i).filterMap key? ++ (next i).flatMap Walk.keys).count key ≤ 1 := by
  -- A way that ends at the node itself and one that goes on are two ways.
  have hbehind (i : Nat) (hi : n.isLive i = true) (hmem : key ∈ (next i).flatMap Walk.keys) :
      ∃ k turns, g.Leads n ((i, k) :: turns) key.node := by
    obtain ⟨w, hw, hkey⟩ := List.mem_flatMap.1 hmem
    obtain ⟨k, rfl⟩ := List.get_of_mem hw
    exact ⟨k, hleads i hi k k.2 hkey⟩
  refine count_flatMap_le_one (fun i hi => ?_) ?_
  · have hi := Node.mem_liveOutlets.1 hi
    obtain ⟨hnodup, hnode⟩ := n.filterMap_key?_effects i
    rw [List.count_append]
    by_cases hmem : key ∈ (n.effects i).filterMap key?
    · have hnone : ((next i).flatMap Walk.keys).count key = 0 := by
        refine List.count_eq_zero.2 fun hkey => ?_
        obtain ⟨k, turns, hturns⟩ := hbehind i hi hkey
        have hhere : g.Leads n [] key.node := ⟨rfl, (hnode key hmem).symm⟩
        cases hone _ _ hhere hturns
      have hle := List.nodup_iff_count_le_one.1 hnodup key
      omega
    · have hnone : ((n.effects i).filterMap key?).count key = 0 := List.count_eq_zero.2 hmem
      have hle : ((next i).flatMap Walk.keys).count key ≤ 1 := by
        refine count_flatMap_le_one (hcount i hi) (List.pairwise_iff_getElem.2 ?_)
        intro k k' hk hk' hlt hkey hkey'
        obtain ⟨turns, hturns⟩ := hleads i hi k hk hkey
        obtain ⟨turns', hturns'⟩ := hleads i hi k' hk' hkey'
        have heq := hone _ _ hturns hturns'
        simp only [List.cons.injEq, Prod.mk.injEq] at heq
        omega
      omega
  · have hsorted : n.liveOutlets.Pairwise (· < ·) := List.pairwise_lt_range.filter _
    refine hsorted.imp_of_mem fun {i i'} hi hi' hlt hkey hkey' => ?_
    have hi := Node.mem_liveOutlets.1 hi
    have hi' := Node.mem_liveOutlets.1 hi'
    cases hcopies : n.copies with
    | false =>
        obtain ⟨rfl, _⟩ := liveOutlets_of_copies hcopies hi
        obtain ⟨rfl, _⟩ := liveOutlets_of_copies hcopies hi'
        exact absurd hlt (Nat.lt_irrefl 0)
    | true =>
        have hnothing (i : Nat) : (n.effects i).filterMap key? = [] :=
          filterMap_key?_of_write? (Node.write?_effects hcopies)
        rw [hnothing, List.nil_append] at hkey hkey'
        obtain ⟨k, turns, hturns⟩ := hbehind i hi hkey
        obtain ⟨k', turns', hturns'⟩ := hbehind i' hi' hkey'
        have heq := hone _ _ hturns hturns'
        simp only [List.cons.injEq, Prod.mk.injEq] at heq
        omega

/-- A walk stores the objects of the nodes that it comes to, and stores an object once if there is
one way to its node. -/
theorem keys_unfold {settings : Settings} {path : List String} {w : Walk} (hn : n ∈ g.nodes)
    (h : (g.unfold settings path n hn).outcome = .ok w) (key : LiteralKey) :
    (key ∈ w.keys → ∃ turns, g.Leads n turns key.node) ∧
      (g.OneWay n key.node → w.keys.count key ≤ 1) := by
  refine unfold_induction (motive := fun n w => (key ∈ w.keys → ∃ turns, g.Leads n turns key.node) ∧
    (g.OneWay n key.node → w.keys.count key ≤ 1)) ?_ ?_ hn h
  · intro n action _ _
    exact ⟨fun hkey => absurd hkey List.not_mem_nil, fun _ => Nat.zero_le 1⟩
  · intro n next hn _ hnext
    have hturn (i : Nat) (hi : n.isLive i = true) (k : Nat) (hk : k < (next i).length) :
        ∃ m, g.next? n (i, k) = some m ∧
          (key ∈ ((next i).get ⟨k, hk⟩).keys → ∃ turns, g.Leads m turns key.node) ∧
          (g.OneWay m key.node → ((next i).get ⟨k, hk⟩).keys.count key ≤ 1) := by
      have hk' : k < (n.outlet i).length := (hnext i hi).length_eq ▸ hk
      obtain ⟨m, _, hfind, hm⟩ := (hnext i hi).get hk' hk
      exact ⟨m, next?_eq_some_iff.2 ⟨hi, _, List.getElem?_eq_getElem hk', hfind⟩, hm⟩
    have hleads (i : Nat) (hi : n.isLive i = true) (k : Nat) (hk : k < (next i).length)
        (hkey : key ∈ ((next i).get ⟨k, hk⟩).keys) :
        ∃ turns, g.Leads n ((i, k) :: turns) key.node := by
      obtain ⟨m, hm, hbehind, -⟩ := hturn i hi k hk
      obtain ⟨turns, hturns⟩ := hbehind hkey
      exact ⟨turns, hturns.turn hm⟩
    rw [keys_pass]
    refine ⟨fun hkey => ?_, fun hone => count_keys_pass hleads (fun i hi w hw => ?_) hone⟩
    · obtain ⟨i, hi, hkey⟩ := List.mem_flatMap.1 hkey
      obtain hkey | hkey := List.mem_append.1 hkey
      · exact ⟨[], rfl, ((n.filterMap_key?_effects i).2 key hkey).symm⟩
      · obtain ⟨w, hw, hkey⟩ := List.mem_flatMap.1 hkey
        obtain ⟨k, rfl⟩ := List.get_of_mem hw
        obtain ⟨turns, hturns⟩ := hleads i (Node.mem_liveOutlets.1 hi) k k.2 hkey
        exact ⟨_, hturns⟩
    · obtain ⟨k, rfl⟩ := List.get_of_mem hw
      obtain ⟨m, hm, -, hcount⟩ := hturn i hi k k.2
      exact hcount (hone.turn hm)

/-- Extraction gives one draft for each route of live wires to a sink, in the order of the routes.
But for its memory, each of them is what the route makes of the first draft; and its memory is so
too, unless an object is overtaken to which two ways lead. -/
theorem extract_lists_routes (g : Graph) (settings : Settings) {n : Node} (hn : n ∈ g.nodes)
    (d : Draft) {shelf : Shelf} {drafts : List Carried}
    (h : (g.extract settings n hn d []).outcome = .ok (shelf, drafts)) :
    ∃ routes : List (List Turn), (∀ turns, turns ∈ routes ↔ g.IsRoute n turns) ∧
      routes.Pairwise Turn.Before ∧
      List.Forall₂ (fun c turns =>
        (c.settle shelf).forget = (g.draftAlong settings n turns d).forget ∧
          (g.Steady n → c.settle shelf = g.draftAlong settings n turns d)) drafts routes := by
  rw [outcome_extract] at h
  cases hw : (g.unfold settings [] n hn).outcome with
  | error e =>
      rw [hw] at h
      cases h
  | ok w =>
      rw [hw] at h
      have hstart : w.harvest [] (Carried.ofDraft d) = (shelf, drafts) := Except.ok.inj h
      obtain ⟨routes, hroutes⟩ := exists_lists hn hw
      refine ⟨routes, hroutes.mem_iff, hroutes.sorted, ?_⟩
      have hforget := Walk.forget_harvest [] (c := .ofDraft d) (d := d) w rfl
      rw [hstart, hroutes.leaves_eq, List.forall₂_map_right_iff] at hforget
      have hsettle (hsteady : g.Steady n) : List.Forall₂ (fun c turns =>
          c.settle shelf = g.draftAlong settings n turns d) drafts routes := by
        obtain ⟨L, hlayout⟩ := exists_hasLayout g
        have hrest : L.AtRest [] := fun key hkey => by cases hkey
        have hpassed : ∀ key, Shelf.has [] key = true → key ∈ ([] : List LiteralKey) :=
          fun key hkey => by cases hkey
        have hyields := Walk.yields_harvest w (steady_unfold hlayout hn hw hsteady) hpassed
          (fun key hkey => (keys_unfold hn hw key).2 hkey)
          (Layout.bears_of_scope (c := .ofDraft d) (d := d) hrest rfl rfl _)
        rw [hstart, hroutes.leaves_eq] at hyields
        exact (List.forall₂_map_right_iff.1 hyields.arrived).imp
          fun c turns harrived => harrived.settle hyields.atRest
      refine List.forall₂_iff_get.2 ⟨hforget.length_eq, fun k hk hk' => ?_⟩
      exact ⟨hforget.get hk hk', fun hsteady => (hsettle hsteady).get hk hk'⟩

def wiredTwice (rules : List Change) : Graph where
  nodes := [⟨"s", "device out", "", [["c", "c"]], .source "" ""⟩,
    ⟨"c", "change", "", [["h"]], .change rules⟩, ⟨"h", "history", "", [], .history⟩]
  distinct := by simp
  wired := by simp

def twofold : Node :=
  ⟨"s", "device out", "", [["c", "c"]], .source "" ""⟩

def nestedRules : List Change :=
  [⟨"set", "a", .object [], "str"⟩, ⟨"set", "a.b", .object [], "str"⟩,
    ⟨"set", "a.b.x", .text "1", "str"⟩]

theorem steady_nestedRules : (wiredTwice nestedRules).Steady twofold := by
  intro m steps key hm hsteps hovertaken
  have hmem : m ∈ (wiredTwice nestedRules).nodes := mem_of_reaches (List.mem_cons_self ..) hm
  simp only [wiredTwice, List.mem_cons, List.not_mem_nil, or_false] at hmem
  obtain rfl | rfl | rfl := hmem
  · rw [hsteps.unique (.stop (.inl rfl))] at hovertaken
    exact absurd hovertaken not_overtaken_nil
  · rw [hsteps.unique (.next rfl rfl rfl rfl (.stop (.inr rfl)))] at hovertaken
    obtain ⟨_, _, _, _, _, _, _, hsub, _⟩ := hovertaken
    have heq := hsub.eq_of_length rfl
    cases heq
  · rw [hsteps.unique (.stop (.inr rfl))] at hovertaken
    exact absurd hovertaken not_overtaken_nil

/-- Two drafts that share an object in an object come out as their routes say. -/
theorem extract_nestedRules :
    ∃ (hn : twofold ∈ (wiredTwice nestedRules).nodes) (shelf : Shelf) (drafts : List Carried),
      ((wiredTwice nestedRules).extract {} twofold hn {} []).outcome = .ok (shelf, drafts) ∧
      (wiredTwice nestedRules).Steady twofold ∧
      drafts.map (fun c => (c.settle shelf).memory) =
        [[("a", .object [("b", .object [("x", .text "1")])])],
          [("a", .object [("b", .object [("x", .text "1")])])]] ∧
      ∃ routes : List (List Turn),
        (∀ turns, turns ∈ routes ↔ (wiredTwice nestedRules).IsRoute twofold turns) ∧
        routes.Pairwise Turn.Before ∧
        List.Forall₂ (fun c turns =>
          c.settle shelf = (wiredTwice nestedRules).draftAlong {} twofold turns {})
          drafts routes := by
  have hn : twofold ∈ (wiredTwice nestedRules).nodes := List.mem_cons_self ..
  have hmemories : (((wiredTwice nestedRules).extract {} twofold hn {} []).outcome.map fun result =>
      result.2.map fun c => (c.settle result.1).memory) =
        .ok [[("a", .object [("b", .object [("x", .text "1")])])],
          [("a", .object [("b", .object [("x", .text "1")])])]] := by
    with_unfolding_all rfl
  cases h : ((wiredTwice nestedRules).extract {} twofold hn {} []).outcome with
  | error e =>
      rw [h] at hmemories
      cases hmemories
  | ok result =>
      rw [h] at hmemories
      obtain ⟨routes, hmem, hsorted, hdrafts⟩ := extract_lists_routes _ _ hn _ h
      exact ⟨hn, result.1, result.2, h, steady_nestedRules, Except.ok.inj hmemories, routes, hmem,
        hsorted, hdrafts.imp fun _ _ hc => hc.2 steady_nestedRules⟩

/-- Rules that write below an object before they store another one on the way. -/
def overtakingRules : List Change :=
  [⟨"set", "a", .object [], "str"⟩, ⟨"set", "a.b.x", .text "1", "str"⟩,
    ⟨"set", "a.b", .object [], "str"⟩]

/-- The second draft writes into the object that the first one holds, which both then keep. -/
theorem memories_extract_overtakingRules :
    (((wiredTwice overtakingRules).extract {} twofold (List.mem_cons_self ..) {} []).outcome.map
      fun result => result.2.map fun c => (c.settle result.1).memory) =
        .ok [[("a", .object [("b", .object [("x", .text "1")])])],
          [("a", .object [("b", .object [("x", .text "1")])])]] ∧
    [[(0, 0), (0, 0)], [(0, 1), (0, 0)]].map (fun turns =>
      ((wiredTwice overtakingRules).draftAlong {} twofold turns {}).memory) =
        [[("a", .object [("b", .object [])])], [("a", .object [("b", .object [])])]] :=
  ⟨by with_unfolding_all rfl, rfl⟩

end Graph

end EventFlow
