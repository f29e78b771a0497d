import EventFlow.Walk.Harvest

/-!
The plan for a flow: its named drafts and the subscriptions they need.
-/

namespace EventFlow

def ruleName (flowId : String) (sequence : Int) : String :=
  "rule_" ++ Text.replaceChar '.' '_' flowId ++ "_" ++ String.ofList (Text.intDigits sequence)

structure Plan where
  /-- The id as it was given. -/
  flowId : Value
  /-- The tenant, handed through. -/
  service : Option String
  drafts : List Draft
  requests : List Request

namespace Plan

/-- Names the drafts of a flow, counting from one. Only a text can be made into a name. -/
def nameDrafts (flowId : Value) (drafts : List Draft) : Except Failure (List Draft) :=
  match flowId, drafts with
  | .text id, drafts =>
    .ok (drafts.mapIdx fun i d => { d with name := ruleName id (i + 1) })
  | _, [] => .ok []
  | _, _ :: _ => .error .namelessFlow

def unfoldSources (g : Graph) (settings : Settings) : Traced Failure (List Walk) :=
  Run.each g.sources.attach fun ⟨n, hn⟩ =>
    g.unfold settings [] n (List.mem_filter.1 hn).1

def harvestAll : Shelf → List Walk → Shelf × List Carried
  | shelf, [] => (shelf, [])
  | shelf, w :: rest =>
    let first := w.start shelf {}
    let others := harvestAll first.1 rest
    (others.1, first.2 ++ others.2)

/-- The drafts of all walks as they are when the last walk is over. -/
def draftsOf (walks : List Walk) : List Draft :=
  let result := harvestAll [] walks
  result.2.map (·.settle result.1)

/-- The plan for a flow. The entries of `flow` are its node descriptors. -/
def ofFlow (settings : Settings) (flow flowId : Value) (service : Option String) :
    Traced Failure Plan := do
  let shownId ← Run.ofExcept flowId.display?
  match flow.entries? with
  | none => Run.fail .notIterable
  | some descriptors =>
    Run.info ("Translating flow " ++ shownId ++ " (" ++ Text.ofNat descriptors.length ++ " nodes)")
    let graph ← Graph.ofDescriptors descriptors
    let walks ← unfoldSources graph settings
    let drafts ← Run.ofExcept (nameDrafts flowId (draftsOf walks))
    let requests := Request.ofDrafts drafts
    Run.info ("Flow " ++ shownId ++ ": " ++ Text.ofNat drafts.length ++ " drafts, " ++
      Text.ofNat requests.length ++ " subscriptions")
    return ⟨flowId, service, drafts, requests⟩

end Plan

def Graph.extract (g : Graph) (settings : Settings) (n : Node) (hn : n ∈ g.nodes) (d : Draft)
    (shelf : Shelf) : Traced Failure (Shelf × List Carried) := do
  return (← g.unfold settings [] n hn).start shelf d

end EventFlow
