import EventFlow.Proofs.Accounts
import EventFlow.Proofs.Writing

/-!
When a deployment returns.

The only thing in a deployment that fails for good is the writing of a rule, and the rule of a
legible draft is written (`Rule.write_ends`). So a deployment of legible drafts returns, whatever
the replies, and names every id that was granted.
-/

namespace EventFlow

/-- The requests of a draft whose rule could not be written were all granted. -/
theorem Receipt.Breaks.granted {receipt : Receipt} {d : Draft} {i : Nat} {failure : Failure}
    (h : receipt.Breaks d i failure) : ∀ q ∈ Request.ofDraft d i, ∃ reply,
      Post.subscription q reply ∈ receipt.posts ∧ reply.granted?.isSome = true := by
  intro q hq
  rw [← h.requests] at hq
  obtain ⟨⟨q, reply⟩, hanswer, rfl⟩ := List.mem_map.1 hq
  obtain ⟨ids, hids, -⟩ := h.written
  have hgranted : reply.granted? ∈ d.pattern.slots.map fun slot => some (ids slot) :=
    hids ▸ List.mem_map_of_mem hanswer
  obtain ⟨slot, -, hslot⟩ := List.mem_map.1 hgranted
  refine ⟨reply, List.mem_append_left _ (List.mem_map_of_mem hanswer), ?_⟩
  rw [← hslot]
  rfl

/-- What a rule needs does not depend on the ids of its draft. -/
theorem Receipt.Breaks.illegible {receipt : Receipt} {d : Draft} {i : Nat} {failure : Failure}
    (h : receipt.Breaks d i failure) : d.isLegible = false ∧ failure.IsUnread := by
  obtain ⟨ids, -, hwrite⟩ := h.written
  obtain ⟨rule?, hok, -⟩ | ⟨hillegible, f, hf, hunread⟩ := Rule.write_ends (d.fill ids)
  · rw [hwrite] at hok
    cases hok
  · rw [hwrite] at hf
    cases hf
    exact ⟨hillegible, hunread⟩

namespace Plan

/-- Whatever the replies, a deployment returns and names every id that was granted, unless there is
a draft whose requests were all granted and that is not legible: then the deployment may fail where
the rule of the draft is written, and the ids are lost. -/
theorem deploy_returns_unless_illegible {settings : Settings} {flow flowId : Value}
    {service : Option String} {plan : Plan}
    (hplan : (ofFlow settings flow flowId service).outcome = .ok plan) (target : Settings)
    (replies : Nat → Reply) (owns isOpen : Bool) (headers : Headers) :
    ∃ (posts : List Post) (ended : Ended (Session (List Message)) Failure Deployment),
      Dispatcher.deploy ⟨target, .scripted replies, owns⟩ plan.flowId plan.requests headers
        ⟨[], isOpen, plan.drafts⟩ = ended ∧
      ended.state.peer = posts.map (Post.message target headers) ∧
      (List.range ended.state.peer.length).map replies = posts.map Post.reply ∧
      ((∃ result, ended.outcome = .ok result ∧ result.flowId = plan.flowId ∧
          result.subscriptionIds = posts.filterMap Post.id?) ∨
        ∃ i d, plan.drafts[i]? = some d ∧ d.isLegible = false ∧
          (∀ q ∈ Request.ofDraft d i, ∃ reply,
            Post.subscription q reply ∈ posts ∧ reply.granted?.isSome = true) ∧
          (ended.outcome = .error .malformed ∨ ended.outcome = .error .overlong)) := by
  obtain ⟨before, after, receipts, left, hsplit, -, hend⟩ :=
    conducts_deploy hplan ⟨target, .scripted replies, owns⟩ headers [] isOpen
  obtain ⟨-, hend⟩ | ⟨d, hd, receipt, failure, hbreaks, hend⟩ := hend
  · obtain ⟨hpeer, hreplies⟩ := hend.scripted
    refine ⟨_, _, rfl, hpeer, hreplies, .inl ⟨_, hend.outcome, ?_⟩⟩
    rw [Deployment.foldl_record]
    exact ⟨rfl, rfl⟩
  · obtain ⟨hpeer, hreplies⟩ := hend.scripted
    obtain ⟨hillegible, hunread⟩ := hbreaks.illegible
    refine ⟨_, _, rfl, hpeer, hreplies, .inr ⟨before.length, d, ?_, hillegible, ?_, ?_⟩⟩
    · rwa [hsplit, List.getElem?_append_right le_rfl, Nat.sub_self, ← List.head?_eq_getElem?]
    · intro q hq
      obtain ⟨reply, hmem, hgranted⟩ := hbreaks.granted q hq
      exact ⟨reply, List.mem_append_right _ hmem, hgranted⟩
    · rw [hend.outcome]
      exact hunread.imp (congrArg _) (congrArg _)

theorem deploy_returns_risingFlow :
    (ofFlow {} risingFlow (.text "f") none).outcome = .ok rising ∧
    (∀ d ∈ rising.drafts, d.isLegible = true) ∧
    ∃ (posts : List Post) (ended : Ended (Session (List Message)) Failure Deployment),
      Dispatcher.deploy ⟨{}, .scripted risingReplies, true⟩ rising.flowId rising.requests []
        ⟨[], false, rising.drafts⟩ = ended ∧
      ended.outcome = .ok risingDeployment ∧
      risingDeployment.subscriptionIds = posts.filterMap Post.id? := by
  have hlegible : ∀ d ∈ rising.drafts, d.isLegible = true := by
    decide
  obtain ⟨posts, ended, hended, -, -, hreturns⟩ :=
    deploy_returns_unless_illegible ofFlow_risingFlow {} risingReplies true false []
  have hresult : ended.outcome = .ok risingDeployment := by
    rw [← hended]
    with_unfolding_all rfl
  refine ⟨ofFlow_risingFlow, hlegible, posts, ended, hended, hresult, ?_⟩
  obtain ⟨result, hok, -, hids⟩ | ⟨i, d, hd, hillegible, -⟩ := hreturns
  · rw [hresult] at hok
    cases hok
    exact hids
  · rw [hlegible d (List.mem_of_getElem? hd)] at hillegible
    cases hillegible

/-- A list of which one text opens a placeholder. It is closed where the objects are. -/
def unclosedList : Value :=
  .list [.text "\x7b\x7b", .object [("a", .object [])]]

def unclosedFlow : Value :=
  .list [
    .object [("id", .text "s"), ("type", .text "device out"), ("wires", .list [.list [.text "c"]])],
    .object [("id", .text "c"), ("type", .text "change"),
      ("rules", .list [.object [("p", .text "payload"), ("to", unclosedList)]]),
      ("wires", .list [.list [.text "p"]])],
    .object [("id", .text "p"), ("type", .text "http request out"), ("url", .text "u")]]

def unclosedGraph : Graph where
  nodes := [⟨"s", "device out", "", [["c"]], .source "" ""⟩,
    ⟨"c", "change", "", [["p"]], .change [⟨"set", "payload", unclosedList, "str"⟩]⟩,
    ⟨"p", "http request out", "", [], .post "u" "POST" "payload"⟩]
  distinct := by decide
  wired := by decide

def unclosedWalk : Walk :=
  .pass false [] [.pass true [.listen "" ""] [.pass false [] [.pass false
    [.store "payload" unclosedList]
    [.sink ⟨"http://perseo-fe:9090/noticesv2", .post "u" "POST" "payload"⟩]]]]

def unclosedDraft : Draft where
  memory := [("payload", unclosedList)]
  action := some ⟨"http://perseo-fe:9090/noticesv2", .post "u" "POST" "payload"⟩
  name := "rule_f_1"

def unclosed : Plan where
  flowId := .text "f"
  service := none
  drafts := [unclosedDraft]
  requests := Request.ofDrafts [unclosedDraft]

theorem ofFlow_unclosedFlow : (ofFlow {} unclosedFlow (.text "f") none).outcome = .ok unclosed :=
  ofFlow_eq_ok_iff.2 ⟨_, _, unclosedGraph, [unclosedWalk], [unclosedDraft], rfl, rfl, rfl,
    by with_unfolding_all rfl, by with_unfolding_all rfl, rfl⟩

/-- The only request of the plan is granted, but the deployment does not return. -/
theorem deploy_unclosedFlow :
    (ofFlow {} unclosedFlow (.text "f") none).outcome = .ok unclosed ∧
    unclosedDraft.isLegible = false ∧
    ∃ replies : Nat → Reply, (replies 0).granted? = some "sub1" ∧
      (Dispatcher.deploy ⟨{}, .scripted replies, true⟩ unclosed.flowId unclosed.requests []
        ⟨[], false, unclosed.drafts⟩).outcome = .error .malformed :=
  ⟨ofFlow_unclosedFlow, by with_unfolding_all rfl,
    fun _ => .answered 201 [("Location", "/v2/subscriptions/sub1")] "", rfl,
    by with_unfolding_all rfl⟩

end Plan

end EventFlow
