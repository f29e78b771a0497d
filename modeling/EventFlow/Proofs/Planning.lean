import EventFlow.Proofs.Legible
import EventFlow.Proofs.Spelling
import EventFlow.Proofs.Unfolding

/-!
What keeps a flow from being planned.

Making a plan reads the descriptors, joins the nodes into a graph, unfolds the sources and names the
drafts (`outcome_ofFlow`). Each of these steps is orderly: it fails by a fault in the structure of
the flow, or by a whole number beyond the digit limit. Whatever else the nodes hold is planned
around. Of the two the long number is not a matter of structure, and it does not have to stand in
the flow as a number: the text of a change rule that is read as JSON is enough
(`ofFlow_longNumberFlow`).
-/

namespace EventFlow

/-- The faults that a descriptor, a wire or a way through the graph can have. The others come from
the use of a draft. -/
def FlowError.isStructural : FlowError → Bool
  | .missingId _ | .invalidNode .. | .duplicateId _ | .danglingWire .. | .cycle _ => true
  | .notSink .. | .emptyIdentifier _ | .unpairedIdentifier _ | .pairedIdentifier .. => false

/-- How work on a flow may be given up: by a fault in its structure, or by a number that is too long
to be read or written, of which there is none if `legible` holds. -/
def Failure.Aborts (legible : Prop) : Failure → Prop
  | .flow fault => fault.isStructural = true
  | .overlong => ¬ legible
  | _ => False

/-! ### Computations that fail in no other way -/

section Orderly

variable {α β : Type} {legible : Prop}

def Orderly (legible : Prop) (x : Except Failure α) : Prop :=
  ∀ e, x = .error e → e.Aborts legible

theorem Delivers.orderly {x : Except Failure α} {p : α → Prop} (h : Delivers legible x p) :
    Orderly legible x := by
  intro e he
  obtain ⟨a, ha, _⟩ | ⟨hlong, hn⟩ := h
  · rw [ha] at he
    cases he
  · rw [hlong] at he
    cases he
    exact hn

namespace Orderly

theorem ok (a : α) : Orderly legible (.ok a) := nofun

theorem structural {fault : FlowError} (h : fault.isStructural = true) :
    Orderly legible (.error (.flow fault) : Except Failure α) := by
  intro e he
  cases he
  exact h

theorem mono {legible' : Prop} {x : Except Failure α} (h : Orderly legible x)
    (hl : legible' → legible) : Orderly legible' x := by
  intro e he
  have haborts := h e he
  cases e with
  | flow fault => exact haborts
  | overlong => exact fun h' => haborts (hl h')
  | _ => exact haborts

theorem bind {x : Except Failure α} {f : α → Except Failure β} (hx : Orderly legible x)
    (hf : ∀ a, x = .ok a → Orderly legible (f a)) : Orderly legible (x >>= f) := by
  cases x with
  | error e => exact fun e' he => hx e' (by cases he; rfl)
  | ok a => exact hf a rfl

theorem mapM {f : α → Except Failure β} {xs : List α} (h : ∀ x ∈ xs, Orderly legible (f x)) :
    Orderly legible (xs.mapM f) := by
  intro e he
  obtain ⟨i, x, hx, hfx, _⟩ := Run.mapM_eq_error_iff.1 he
  exact h x (List.mem_of_getElem? hx) e hfx

end Orderly

end Orderly

/-! ### Descriptors and graphs -/

theorem Value.orderly_quoted (v : Value) : Orderly (v.isWritable = true) v.quoted? := by
  rw [quoted?]
  split
  · exact .ok _
  · next h =>
      intro e he
      cases he
      exact h

theorem Value.isWritable_getD {fields : Fields Value} {default : Value} (name : String)
    (h : fieldsWritable fields = true) (hdefault : default.isWritable = true) :
    ((Fields.get? fields name).getD default).isWritable = true := by
  cases hv : Fields.get? fields name with
  | none => exact hdefault
  | some v => exact isWritable_of_get? h hv

theorem Node.orderly_ofDescriptor (d : Value) :
    Orderly (d.isWritable = true) (ofDescriptor d) := by
  have hmissing : Orderly (d.isWritable = true)
      (d.quoted? >>= fun shown => (.error (.flow (.missingId shown)) : Except Failure Node)) :=
    d.orderly_quoted.bind fun _ _ => .structural rfl
  cases d with
  | object fields =>
      rw [ofDescriptor]
      simp only
      split
      · split
        · exact .ok _
        · -- A report on the faults shows the id and the type, whatever values they are.
          refine ((Value.delivers_display _).orderly.mono
            fun h => Value.isWritable_getD "id" h rfl).bind fun _ _ => ?_
          refine ((Value.delivers_display _).orderly.mono
            fun h => Value.isWritable_getD "type" h rfl).bind fun _ _ => ?_
          exact .structural rfl
      · exact hmissing
  | _ => exact hmissing

namespace Graph

variable {g : Graph} {settings : Settings} {path : List String} {n : Node}

theorem orderly_collect (seen : Distinct) (descriptors : List Value) :
    Orderly (∀ d ∈ descriptors, d.isWritable = true) (collect seen descriptors) := by
  induction descriptors generalizing seen with
  | nil => exact .ok seen
  | cons d rest ih =>
      rw [collect]
      split
      · next e he =>
          intro e' he'
          cases he'
          exact ((Node.orderly_ofDescriptor d).mono fun h => h d (.head rest)) e he
      · split
        · exact .structural rfl
        · exact (ih _).mono fun h d' hd' => h d' (.tail d hd')

theorem orderly_ofNodes {legible : Prop} (nodes : Distinct) : Orderly legible (ofNodes nodes) := by
  rw [ofNodes]
  split
  · exact .structural rfl
  · exact .ok _

theorem outcome_ofDescriptors (descriptors : List Value) :
    (ofDescriptors descriptors).outcome = collect ⟨[], by simp⟩ descriptors >>= ofNodes := by
  rw [ofDescriptors, Run.outcome_bind, Run.outcome_ofExcept]
  rfl

theorem orderly_ofDescriptors (descriptors : List Value) :
    Orderly (∀ d ∈ descriptors, d.isWritable = true) (ofDescriptors descriptors).outcome := by
  rw [outcome_ofDescriptors]
  exact (orderly_collect _ descriptors).bind fun nodes _ => orderly_ofNodes nodes

/-! ### Walks and plans -/

theorem orderly_leave {i : Nat} {exit : Exit} {legible : Prop} (hexit : n.exits[i]? = some exit)
    (hl : legible → n.isLegible = true)
    (henter : ∀ target ∈ n.outlet i, Orderly legible (g.enter settings (path ++ [n.id]) target)) :
    Orderly legible (g.leave settings path n exit) := by
  obtain ⟨houtlet, _, hsteps⟩ := Node.exits_deliver hexit
  rw [leave, houtlet]
  refine (hsteps.orderly.mono hl).bind fun steps _ => ?_
  cases steps with
  | none => exact .ok none
  | some steps => exact (Orderly.mapM henter).bind fun next _ => .ok _

theorem orderly_unfold (hn : n ∈ g.nodes) :
    Orderly (∀ m ∈ g.nodes, m.isLegible = true) (g.unfold settings path n hn).outcome := by
  -- A way that goes on has fewer nodes left to come to; one that comes back is a cycle.
  induction hr : g.remaining path using Nat.strongRecOn generalizing path n with
  | ind r ih =>
      subst hr
      by_cases hpath : n.id ∈ path
      · rw [outcome_unfold_of_mem hn hpath]
        exact .structural rfl
      · cases ha : Action.ofNode? settings n with
        | some action =>
            rw [outcome_unfold_sink hn hpath ha]
            exact .ok _
        | none =>
            rw [outcome_unfold_pass hn hpath ha]
            refine (Orderly.mapM fun exit hexit => ?_).bind fun ways _ => .ok _
            obtain ⟨i, hi⟩ := List.getElem?_of_mem hexit
            refine orderly_leave hi (fun h => h n hn) fun target htarget => ?_
            obtain ⟨m, hm⟩ := exists_find?_of_mem_outlet hn htarget
            rw [enter_eq hm]
            exact ih _ (remaining_append_lt hn hpath) (mem_of_find? hm) rfl

end Graph

namespace Plan

variable {settings : Settings} {flow flowId : Value} {service : Option String}

theorem outcome_unfoldSources (g : Graph) : (unfoldSources g settings).outcome =
    g.sources.attach.mapM fun n =>
      (g.unfold settings [] n.1 (List.mem_filter.1 n.2).1).outcome := by
  rw [unfoldSources, Run.outcome_each]

/-- Making a plan, reports apart. -/
theorem outcome_ofFlow {descriptors : List Value} (h : flow.entries? = some descriptors) :
    (ofFlow settings flow flowId service).outcome =
      flowId.display? >>= fun _ => (Graph.ofDescriptors descriptors).outcome >>= fun graph =>
        (unfoldSources graph settings).outcome >>= fun walks =>
          nameDrafts flowId (draftsOf walks) >>= fun drafts =>
            .ok ⟨flowId, service, drafts, Request.ofDrafts drafts⟩ := by
  rw [ofFlow, Run.outcome_bind, Run.outcome_ofExcept, h]
  simp only [Run.outcome_bind, Run.outcome_info, Run.outcome_ofExcept, Run.outcome_pure]
  rfl

theorem orderly_unfoldSources (g : Graph) :
    Orderly (∀ n ∈ g.nodes, n.isLegible = true) (unfoldSources g settings).outcome := by
  rw [outcome_unfoldSources]
  exact .mapM fun n _ => Graph.orderly_unfold _

end Plan

namespace Value

/-- A descriptor holds a whole number beyond the digit limit, or describes a change node with a rule
that reads one from a text. -/
def HoldsLongNumber (d : Value) : Prop :=
  d.isWritable = false ∨
    ∃ n, Node.ofDescriptor d = .ok n ∧ ∃ s ∈ n.kind.jsonTexts, Value.read s = .error .overlong

end Value

theorem Value.isWritable_of_not_holdsLongNumber {d : Value} (h : ¬ d.HoldsLongNumber) :
    d.isWritable = true := by
  by_contra hlong
  exact h (.inl (by simpa using hlong))

theorem Graph.isLegible_of_not_holdsLongNumber {g : Graph} {descriptors : List Value}
    (h : (ofDescriptors descriptors).outcome = .ok g)
    (hshort : ∀ d ∈ descriptors, ¬ d.HoldsLongNumber) : ∀ n ∈ g.nodes, n.isLegible = true := by
  refine forall_mem_of_ofDescriptors h fun d hd n hn => ?_
  have hwritable := Value.isWritable_of_not_holdsLongNumber (hshort d hd)
  refine Node.isLegible_of_isWritable (Node.isWritable_of_ofDescriptor hwritable hn) ?_
  exact fun s hs hread => hshort d hd (.inr ⟨n, hn, s, hs, hread⟩)

namespace Plan

theorem orderly_ofFlow (settings : Settings) (descriptors : List Value) (flowId : String)
    (service : Option String) : Orderly (∀ d ∈ descriptors, ¬ d.HoldsLongNumber)
      (ofFlow settings (.list descriptors) (.text flowId) service).outcome := by
  rw [outcome_ofFlow rfl]
  refine (Orderly.ok flowId).bind fun _ _ => ?_
  refine ((Graph.orderly_ofDescriptors descriptors).mono fun h d hd =>
    Value.isWritable_of_not_holdsLongNumber (h d hd)).bind fun graph hgraph => ?_
  refine ((orderly_unfoldSources graph).mono
    (Graph.isLegible_of_not_holdsLongNumber hgraph)).bind fun walks _ => ?_
  exact (Orderly.ok _).bind fun drafts _ => .ok _

/-- A flow of objects has a plan, or fails by a fault in its structure, or else one of its
descriptors holds or spells a whole number beyond the digit limit. -/
theorem ofFlow_ok_or_structural (settings : Settings) (descriptors : List (Fields Value))
    (flowId : String) (service : Option String) :
    let outcome :=
      (ofFlow settings (.list (descriptors.map .object)) (.text flowId) service).outcome
    (∃ plan, outcome = .ok plan) ∨
      (∃ fault, outcome = .error (.flow fault) ∧ fault.isStructural = true) ∨
      (outcome = .error .overlong ∧ ∃ d ∈ descriptors, (Value.object d).HoldsLongNumber) := by
  intro outcome
  have horderly := orderly_ofFlow settings (descriptors.map .object) flowId service
  cases h : outcome with
  | ok plan => exact .inl ⟨plan, rfl⟩
  | error e =>
      have haborts := horderly e h
      cases e with
      | flow fault => exact .inr (.inl ⟨fault, rfl, haborts⟩)
      | overlong =>
          refine .inr (.inr ⟨rfl, ?_⟩)
          by_contra hnone
          refine haborts fun d hd hlong => hnone ?_
          obtain ⟨fields, hfields, rfl⟩ := List.mem_map.1 hd
          exact ⟨fields, hfields, hlong⟩
      | _ => exact haborts.elim

end Plan

/-! ### A long number that stops a flow -/

/-- A row of digits beyond the limit is not read. -/
theorem Value.read_row {ds : List Char} (h : Token.IsRow ds) (hzero : ds.head? ≠ some '0')
    (hlong : Numeral.digitLimit < ds.length) :
    Value.read (String.ofList ds) = .error .overlong := by
  have hsound : Token.Spelled.IsSound ⟨ds, none, none⟩ := ⟨h, .inr hzero, by simp, by simp⟩
  have hwrite : Token.Spelled.write ⟨ds, none, none⟩ ++ [] = ds := by
    simp [Token.Spelled.write, Token.Spelled.writeFraction, Token.Spelled.writeExponent]
  have htoken : Token.Parts.token Numeral.digitLimit false ⟨ds, none, none⟩ = .overlong :=
    if_pos hlong
  have hone : Token.scanOne Numeral.digitLimit ds = some (.overlong, []) := by
    have hspelled : Token.scanOne Numeral.digitLimit (Token.Spelled.write _ ++ []) = _ :=
      Token.scanOne_spelled false hsound (by simp [Token.Spelled.Ends])
    rw [← htoken]
    exact (congrArg _ hwrite.symm).trans hspelled
  rw [Value.read, readWithin, String.toList_ofList, Token.scan_of_scanOne hone]
  rfl

namespace Plan

def readingFlow (s : String) : List (Fields Value) :=
  [[("id", .text "source"), ("type", .text "device out"),
      ("wires", .list [.list [.text "change"]])],
    [("id", .text "change"), ("type", .text "change"),
      ("rules", .list [.object [("p", .text "x"), ("to", .text s), ("tot", .text "json")]]),
      ("wires", .list [.list [.text "history"]])],
    [("id", .text "history"), ("type", .text "history")]]

theorem isWritable_of_mem_readingFlow {s : String} :
    ∀ d ∈ readingFlow s, (Value.object d).isWritable = true := by
  simp [readingFlow, Value.isWritable, Value.fieldsWritable, Value.itemsWritable]

def readingGraph (s : String) : Graph where
  nodes := [⟨"source", "device out", "", [["change"]], .source "" ""⟩,
    ⟨"change", "change", "", [["history"]], .change [⟨"set", "x", .text s, "json"⟩]⟩,
    ⟨"history", "history", "", [], .history⟩]
  distinct := by simp
  wired := by simp

/-- A text that is too long to be read as JSON stops the walk at the node that reads it. -/
theorem enter_readingGraph {s : String} (h : Value.read s = .error .overlong) :
    (readingGraph s).enter {} ["source"] "change" = .error .overlong := by
  have hstored : (Change.stored ⟨"set", "x", .text s, "json"⟩).outcome = .error .overlong := by
    simp only [Change.stored, h]
    rfl
  have hsteps : (Exit.ofChange "change" 0 ⟨"set", "x", .text s, "json"⟩).outcome =
      .error .overlong := by
    rw [Exit.ofChange, if_pos rfl, Run.outcome_bind, hstored]
    rfl
  rw [Graph.enter_eq rfl, Graph.outcome_unfold_pass _ (by simp) rfl]
  refine Run.bind_of_eq_error (Run.mapM_cons_of_eq_error ?_ []) _
  rw [Graph.leave, Run.outcome_bind, Run.outcome_each]
  exact Run.bind_of_eq_error (Run.bind_of_eq_error (Run.mapM_cons_of_eq_error hsteps []) _) _

theorem ofFlow_readingFlow {s : String} (h : Value.read s = .error .overlong) :
    (ofFlow {} (.list ((readingFlow s).map .object)) (.text "f") none).outcome =
      .error .overlong := by
  have hgraph : (Graph.ofDescriptors ((readingFlow s).map .object)).outcome =
    .ok (readingGraph s) := rfl
  have hwalks : (unfoldSources (readingGraph s) {}).outcome = .error .overlong := by
    rw [outcome_unfoldSources]
    refine Run.mapM_cons_of_eq_error ?_ []
    rw [Graph.outcome_unfold_pass _ (by simp) rfl]
    -- The source has one exit, whose steps are made, and one wire there.
    refine Run.bind_of_eq_error (Run.mapM_cons_of_eq_error ?_ []) _
    refine Run.bind_of_eq_error (x := List.mapM _ _) ?_ _
    exact Run.mapM_cons_of_eq_error (enter_readingGraph h) []
  rw [outcome_ofFlow rfl, hgraph]
  exact Run.bind_of_eq_error hwalks _

theorem read_ones {k : Nat} (h : Numeral.digitLimit < k) :
    Value.read (String.ofList (List.replicate k '1')) = .error .overlong := by
  obtain ⟨j, rfl⟩ : ∃ j, k = j + 1 := Nat.exists_eq_add_one.2 (Nat.zero_lt_of_lt h)
  refine Value.read_row ⟨by simp, fun c hc => ?_⟩ (by simp [List.replicate_succ]) (by simpa using h)
  rw [List.eq_of_mem_replicate hc]
  rfl

/-- The text of a change rule that writes a number beyond the digit limit is neither kept as text
nor reported as a fault of the flow, though every value of the flow is within the limit. -/
theorem ofFlow_longNumberFlow :
    let flow := readingFlow (String.ofList (List.replicate 4301 '1'))
    (∀ d ∈ flow, (Value.object d).isWritable = true) ∧
      (ofFlow {} (.list (flow.map .object)) (.text "f") none).outcome = .error .overlong :=
  ⟨isWritable_of_mem_readingFlow, ofFlow_readingFlow (read_ones (Nat.lt_succ_self 4300))⟩

end Plan

end EventFlow
