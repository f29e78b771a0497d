import EventFlow.Proofs.Exchange

/-!
The accounts of a deployment.

What a deployment posts goes draft by draft: first the requests of the draft, then its rule, if
every request was granted and there is a rule to be written with the ids (`Receipt.Settles`). Unless
a rule cannot be written, there is a receipt for every draft (`conducts_ofDrafts`), and the result
names every post once: by its id, by its rule or by its error.
-/

namespace EventFlow

/-- What went over the line for one draft: the replies to its requests, and the rule that was
sent. -/
structure Receipt where
  answers : List (Request × Reply)
  sent : Option (Rule × Reply)

namespace Receipt

def posts (receipt : Receipt) : List Post :=
  (receipt.answers.map fun answer => .subscription answer.1 answer.2) ++
    receipt.sent.toList.map fun sent => .rule sent.1 sent.2

/-- Whether all requests were granted, and with which ids. -/
def Grants (receipt : Receipt) (d : Draft) (ids : Slot → String) : Prop :=
  receipt.answers.map (fun answer => answer.2.granted?) =
    d.pattern.slots.map (fun slot => some (ids slot))

/-- Every request of the draft was made once. A rule was sent exactly if all of them were granted
and there is a rule to be written with their ids; it tests these ids, in the order of the slots. -/
structure Settles (receipt : Receipt) (d : Draft) (i : Nat) : Prop where
  requests : receipt.answers.map Prod.fst = Request.ofDraft d i
  sent : ∀ rule, receipt.sent.map Prod.fst = some rule ↔
    ∃ ids, receipt.Grants d ids ∧ (Rule.write (d.fill ids)).outcome = .ok (some rule)
  text : ∀ rule, receipt.sent.map Prod.fst = some rule →
    ∃ ids, receipt.Grants d ids ∧ rule.name = d.name ∧
      rule.text =
        "select *, " ++ Text.joinWith ", " (("\"" ++ d.name ++ "\" as ruleName") ::
          (Rule.write (d.fill ids)).state.projected.map fun v =>
            (if d.isPaired then "ev2" else "ev") ++ "." ++ v ++ "? as " ++ v) ++
        " from pattern [" ++
        ("every ev = " ++ Text.joinWith " -> ev2 = "
          ((d.pattern.slots.map ids).map fun id =>
            "iotEvent(cast(subscriptionId?, String) = \"" ++ id ++ "\")")) ++ "]"

/-- Every request of the draft was made and granted, but its rule could not be written. -/
structure Breaks (receipt : Receipt) (d : Draft) (i : Nat) (failure : Failure) : Prop where
  requests : receipt.answers.map Prod.fst = Request.ofDraft d i
  sent : receipt.sent = none
  written : ∃ ids, receipt.Grants d ids ∧ (Rule.write (d.fill ids)).outcome = .error failure

end Receipt

theorem Pattern.fill_congr {p : Pattern} {ids ids' : Slot → String}
    (h : ∀ slot ∈ p.slots, ids slot = ids' slot) : p.fill ids = p.fill ids' := by
  cases p with
  | paired fs ss fid sid => rw [fill, fill, h .first (.head _), h .second (.tail _ (.head _))]
  | _ => rw [fill, fill, h .fixed (.head _)]

theorem Request.map_slot_ofDraft (d : Draft) (index : Nat) :
    (ofDraft d index).map slot = d.pattern.slots := by
  have hplaces := congrArg (List.map Prod.snd) (map_place_ofDraft d index)
  rwa [List.map_map, List.map_map, List.map_id''] at hplaces
  exact fun _ => rfl

namespace Receipt

variable {receipt : Receipt} {d : Draft} {i : Nat} {ids : Slot → String}

/-- A draft gets the same ids from the same replies. -/
theorem Grants.fill_eq {ids' : Slot → String} (h : receipt.Grants d ids)
    (h' : receipt.Grants d ids') : d.fill ids = d.fill ids' := by
  have hsame := List.map_inj_left.1 (h.symm.trans h')
  rw [Draft.fill, Draft.fill,
    Pattern.fill_congr fun slot hslot => Option.some.inj (hsame slot hslot)]

theorem Grants.ne_empty (h : receipt.Grants d ids) : ∀ slot ∈ d.pattern.slots, ids slot ≠ "" := by
  intro slot hslot
  have hmem : some (ids slot) ∈ receipt.answers.map (fun answer => answer.2.granted?) := by
    rw [h]
    exact List.mem_map_of_mem hslot
  obtain ⟨answer, -, hgranted⟩ := List.mem_map.1 hmem
  exact Reply.ne_empty_of_granted? hgranted

end Receipt

/-- What a rule is written from: the draft that is left differs in what it projects. -/
theorem Rule.text_of_write {d : Draft} {rule : Rule}
    (h : (Rule.write d).outcome = .ok (some rule)) :
    rule.name = d.name ∧
      rule.text = patternText { d with projected := (Rule.write d).state.projected } := by
  obtain ⟨names, action, hwrite⟩ := Rule.write_eq d
  obtain ⟨hstate, houtcome⟩ := hwrite d.projected
  rw [houtcome] at h
  rw [hstate]
  cases action with
  | error e => cases h
  | ok action =>
      cases action with
      | none => cases h
      | some a =>
          cases h
          exact ⟨rfl, rfl⟩

/-- The text of a rule follows from the rest. -/
theorem Receipt.Settles.of_sent {receipt : Receipt} {d : Draft} {i : Nat}
    (requests : receipt.answers.map Prod.fst = Request.ofDraft d i)
    (sent : ∀ rule, receipt.sent.map Prod.fst = some rule ↔
      ∃ ids, receipt.Grants d ids ∧ (Rule.write (d.fill ids)).outcome = .ok (some rule)) :
    receipt.Settles d i := by
  refine ⟨requests, sent, fun rule hrule => ?_⟩
  obtain ⟨ids, hids, hwrite⟩ := (sent rule).1 hrule
  obtain ⟨hname, htext⟩ := Rule.text_of_write hwrite
  refine ⟨ids, hids, hname, ?_⟩
  have hpaired : (d.fill ids).isPaired = d.isPaired := Pattern.isPaired_fill ids d.pattern
  rw [htext, Rule.patternText_eq, ← Pattern.map_idOf_fill ids d.pattern, ← hpaired]
  rfl

namespace Dispatcher

variable {κ : Type} {x : Dispatcher κ} {headers : Headers} {names : List String}
  {deployment : Deployment} {s : Session κ}

variable (x headers deployment) in
/-- The requests of a draft end with a receipt, unless all are granted and the rule cannot be
written. -/
theorem conducts_ofDraft {d : Draft} (hnew : d.IsNew) {i : Nat} (hd : s.drafts[i]? = some d)
    (hname : names.getD i "" = d.name) :
    ∃ (receipt : Receipt) (e : Draft) (failure? : Option Failure),
      x.Conducts headers names deployment s.line
        (x.deployRequests headers deployment (Request.ofDraft d i) s) receipt.posts
        (s.drafts.set i e) failure? ∧
      failure?.elim (receipt.Settles d i) (receipt.Breaks d i) := by
  have hslots := Request.map_slot_ofDraft d i
  have hplace (q : Request) (hq : q ∈ Request.ofDraft d i) :
      q.draft = i ∧ q.slot ∈ d.pattern.slots := by
    have hmem : q.place ∈ d.pattern.slots.map (i, ·) :=
      Request.map_place_ofDraft d i ▸ List.mem_map_of_mem hq
    obtain ⟨slot, hslot, heq⟩ := List.mem_map.1 hmem
    cases heq
    exact ⟨rfl, hslot⟩
  have hsome : Request.ofDraft d i ≠ [] := by
    intro hnil
    rw [hnil, List.map_nil, Pattern.slots] at hslots
    split at hslots <;> cases hslots
  obtain ⟨answers, hanswers, hasks⟩ := asks_deployRequests x headers deployment hsome hd hplace
    (hslots ▸ d.pattern.nodup_slots)
    (fun q _ => hnew.ids q.slot) hname
  have hgrants : (answers.map fun answer => (answer.1.slot, answer.2.granted?)).map Prod.fst =
      d.pattern.slots := by
    rw [← hslots, ← hanswers, List.map_map, List.map_map]
    rfl
  have hposts : Receipt.posts ⟨answers, none⟩ =
      answers.map fun answer => .subscription answer.1 answer.2 := List.append_nil _
  obtain ⟨ids, hids, hfill⟩ | ⟨⟨grant, hgrant, hnone⟩, hwaits⟩ := Draft.learn_cases hnew hgrants
  · have hids : Receipt.Grants ⟨answers, none⟩ d ids := by
      rwa [List.map_map] at hids
    rw [hfill] at hasks
    obtain ⟨reply, hasks⟩ := hasks
    rw [(Gate.release_of_ready (Gate.stage_fill hnew hids.ne_empty)).1] at hasks
    cases hwrite : (Rule.write (d.fill ids)).outcome with
    | error failure =>
        rw [hwrite] at hasks
        exact ⟨⟨answers, none⟩, _, some failure, hasks, hanswers, rfl, ids, hids, hwrite⟩
    | ok rule? =>
        rw [hwrite] at hasks
        refine ⟨⟨answers, rule?.map (·, reply)⟩, (Gate.release (d.fill ids)).state, none, ?_,
          .of_sent hanswers fun rule => ?_⟩
        · rw [Receipt.posts, Option.toList_map, List.map_map]
          exact hasks
        · have hsent : (rule?.map (·, reply)).map Prod.fst = rule? := by cases rule? <;> rfl
          rw [hsent]
          constructor
          · rintro rfl
            exact ⟨ids, hids, hwrite⟩
          · rintro ⟨ids', hids', hwrite'⟩
            have hfilled : d.fill ids' = d.fill ids := hids'.fill_eq hids
            rw [hfilled, hwrite] at hwrite'
            exact Except.ok.inj hwrite'
  · rw [asks_of_not_ready hwaits] at hasks
    refine ⟨⟨answers, none⟩, _, none, hposts ▸ hasks, .of_sent hanswers fun rule =>
      ⟨fun hsent => (by cases hsent), ?_⟩⟩
    rintro ⟨ids, hids, -⟩
    obtain ⟨answer, hanswer, rfl⟩ := List.mem_map.1 hgrant
    have hmem : answer.2.granted? ∈ d.pattern.slots.map fun slot => some (ids slot) :=
      hids ▸ List.mem_map_of_mem hanswer
    rw [show answer.2.granted? = none from hnone] at hmem
    simp at hmem

variable (x headers names deployment) in
/-- The drafts have their turns one after the other, up to the first whose rule cannot be
written. -/
theorem conducts_ofDrafts {drafts : List Draft} {k : Nat} (hnew : ∀ d ∈ drafts, d.IsNew)
    (hdrafts : ∀ j d, drafts[j]? = some d → s.drafts[k + j]? = some d)
    (hnames : ∀ j d, drafts[j]? = some d → names.getD (k + j) "" = d.name) :
    ∃ (before after : List Draft) (receipts : List Receipt) (left : List Draft),
      drafts = before ++ after ∧
      List.Forall₂ (fun place receipt => Receipt.Settles receipt place.1 place.2) (before.zipIdx k)
        receipts ∧
      ((after = [] ∧
        x.Conducts headers names deployment s.line
          (x.deployRequests headers deployment
            ((drafts.zipIdx k).flatMap fun place => Request.ofDraft place.1 place.2) s)
          (receipts.flatMap Receipt.posts) left none) ∨
      ∃ d ∈ after.head?, ∃ (receipt : Receipt) (failure : Failure),
        receipt.Breaks d (k + before.length) failure ∧
        x.Conducts headers names deployment s.line
          (x.deployRequests headers deployment
            ((drafts.zipIdx k).flatMap fun place => Request.ofDraft place.1 place.2) s)
          (receipts.flatMap Receipt.posts ++ receipt.posts) left (some failure)) := by
  induction drafts generalizing k s deployment with
  | nil => exact ⟨[], [], [], s.drafts, rfl, .nil, .inl ⟨rfl, .nil _, rfl, rfl⟩⟩
  | cons d drafts ih =>
      obtain ⟨hd, hnew⟩ := List.forall_mem_cons.1 hnew
      obtain ⟨receipt, e, failure?, hconducts, hreceipt⟩ :=
        conducts_ofDraft x headers deployment hd (i := k) (hdrafts 0 d rfl) (hnames 0 d rfl)
      rw [List.zipIdx_cons, List.flatMap_cons, deployRequests_append]
      cases failure? with
      | some failure =>
          exact ⟨[], d :: drafts, [], _, rfl, .nil,
            .inr ⟨d, rfl, receipt, failure, hreceipt, hconducts.bind_of_failure⟩⟩
      | none =>
          have hrest (j : Nat) (d' : Draft) (h : drafts[j]? = some d') :
              (x.deployRequests headers deployment (Request.ofDraft d k) s).state.drafts[
                k + 1 + j]? = some d' := by
            rw [hconducts.drafts, List.getElem?_set_ne (by omega), Nat.add_right_comm]
            exact hdrafts (j + 1) d' h
          obtain ⟨before, after, receipts, left, rfl, hreceipts, hend⟩ :=
            ih (receipt.posts.foldl (Deployment.record names) deployment) (k := k + 1) hnew hrest
              (fun j d' h => by rw [Nat.add_right_comm]; exact hnames (j + 1) d' h)
          refine ⟨d :: before, after, receipt :: receipts, left, rfl, ?_, ?_⟩
          · rw [List.zipIdx_cons]
            exact .cons hreceipt hreceipts
          · obtain ⟨hnil, hend⟩ | ⟨d', hd', receipt', failure, hbreaks, hend⟩ := hend
            · refine .inl ⟨hnil, ?_⟩
              rw [List.flatMap_cons]
              exact hconducts.bind hend
            · refine .inr ⟨d', hd', receipt', failure, ?_, ?_⟩
              · rwa [List.length_cons, ← Nat.add_assoc, Nat.add_right_comm]
              · rw [List.flatMap_cons, List.append_assoc]
                exact hconducts.bind hend

/-- With a scripted client, what was posted is what the script has answered. -/
theorem Conducts.scripted {settings : Settings} {replies : Nat → Reply} {owns isOpen : Bool}
    {ended : Ended (Session (List Message)) Failure Deployment} {posts : List Post}
    {drafts : List Draft} {failure? : Option Failure}
    (h : Conducts ⟨settings, .scripted replies, owns⟩ headers names deployment ([], isOpen) ended
      posts drafts failure?) :
    ended.state.peer = posts.map (Post.message settings headers) ∧
      (List.range ended.state.peer.length).map replies = posts.map Post.reply := by
  obtain ⟨hpeer, hreplies⟩ := h.talk.scripted
  rw [List.map_map] at hpeer hreplies
  have hpeer : ended.state.peer = posts.map (Post.message settings headers) := hpeer
  refine ⟨hpeer, ?_⟩
  rw [hpeer, List.length_map]
  simpa [Function.comp_def] using hreplies.symm

/-- All that is left to do after the last request is to report. -/
theorem deploy_eq (x : Dispatcher κ) {flowId : Value} {shown : String}
    (h : flowId.display? = .ok shown) (requests : List Request) (headers : Headers)
    (s : Session κ) :
    (x.deploy flowId requests headers s).state =
        (x.deployRequests headers { flowId := flowId } requests s).state ∧
      (x.deploy flowId requests headers s).outcome =
        (x.deployRequests headers { flowId := flowId } requests s).outcome := by
  cases hr : (x.deployRequests headers { flowId := flowId } requests s).outcome with
  | error e => exact Run.bind_of_error _ hr
  | ok deployment =>
      rw [deploy, (Run.bind_of_ok _ hr).1, (Run.bind_of_ok _ hr).2, h]
      exact ⟨rfl, rfl⟩

end Dispatcher

namespace Plan

/-- A plan is deployed draft by draft, up to the first whose rule cannot be written. -/
theorem conducts_deploy {settings : Settings} {flow flowId : Value} {service : Option String}
    {plan : Plan} (hplan : (ofFlow settings flow flowId service).outcome = .ok plan) {κ : Type}
    (x : Dispatcher κ) (headers : Headers) (peer : κ) (isOpen : Bool) :
    ∃ (before after : List Draft) (receipts : List Receipt) (left : List Draft),
      plan.drafts = before ++ after ∧
      List.Forall₂ (fun place receipt => Receipt.Settles receipt place.1 place.2) before.zipIdx
        receipts ∧
      ((after = [] ∧
        x.Conducts headers (plan.drafts.map Draft.name) { flowId := plan.flowId } (peer, isOpen)
          (x.deploy plan.flowId plan.requests headers ⟨peer, isOpen, plan.drafts⟩)
          (receipts.flatMap Receipt.posts) left none) ∨
      ∃ d ∈ after.head?, ∃ (receipt : Receipt) (failure : Failure),
        receipt.Breaks d before.length failure ∧
        x.Conducts headers (plan.drafts.map Draft.name) { flowId := plan.flowId } (peer, isOpen)
          (x.deploy plan.flowId plan.requests headers ⟨peer, isOpen, plan.drafts⟩)
          (receipts.flatMap Receipt.posts ++ receipt.posts) left (some failure)) := by
  have hfresh := isFresh_of_ofFlow hplan
  obtain ⟨shown, -, -, -, drafts, hshown, -, -, -, -, rfl⟩ := ofFlow_eq_ok_iff.1 hplan
  obtain ⟨hs, ho⟩ := x.deploy_eq hshown (Request.ofDrafts drafts) headers ⟨peer, isOpen, drafts⟩
  obtain ⟨before, after, receipts, left, hsplit, hreceipts, hend⟩ :=
    x.conducts_ofDrafts headers (drafts.map Draft.name) { flowId := flowId }
      (s := ⟨peer, isOpen, drafts⟩) (k := 0) hfresh.drafts
      (fun j d h => by rwa [Nat.zero_add])
      (fun j d h => by rw [Nat.zero_add, List.getD_eq_getElem?_getD, List.getElem?_map, h]; rfl)
  refine ⟨before, after, receipts, left, hsplit, hreceipts, ?_⟩
  obtain ⟨hnil, hend⟩ | ⟨d, hd, receipt, failure, hbreaks, hend⟩ := hend
  · exact .inl ⟨hnil, hend.of_eq hs ho⟩
  · rw [Nat.zero_add] at hbreaks
    exact .inr ⟨d, hd, receipt, failure, hbreaks, hend.of_eq hs ho⟩

/-- The requests of a plan are accounted for draft by draft. -/
theorem requests_of_settled {drafts : List Draft} {k : Nat} {receipts : List Receipt}
    (h : List.Forall₂ (fun place receipt => Receipt.Settles receipt place.1 place.2)
      (drafts.zipIdx k) receipts) :
    (receipts.flatMap Receipt.answers).map Prod.fst =
      (drafts.zipIdx k).flatMap fun place => Request.ofDraft place.1 place.2 := by
  generalize drafts.zipIdx k = places at h
  induction h with
  | nil => rfl
  | cons hreceipt _ ih =>
      rw [List.flatMap_cons, List.flatMap_cons, List.map_append, ih, hreceipt.requests]

theorem length_posts (names : List String) (posts : List Post) :
    (posts.filterMap Post.id?).length + (posts.filterMap Post.ruleName?).length +
      (posts.filterMap (Post.error? names)).length = posts.length := by
  induction posts with
  | nil => rfl
  | cons post posts ih =>
      have honce := post.counts_once names
      cases hid : post.id? <;> cases hname : post.ruleName? <;> cases herror : post.error? names <;>
        simp [hid, hname, herror] at honce ⊢ <;> omega

/-- The gate takes every id for a request of a plan, whatever has happened to the draft before. -/
theorem assign_ok {plan : Plan} (hfresh : plan.IsFresh) {q : Request} (hq : q ∈ plan.requests)
    {d : Draft} (hd : plan.drafts[q.draft]? = some d) (events : List Gate.Event) {id : String}
    (hid : id ≠ "") :
    ∃ stage, (Gate.assign q.slot id (Gate.Course.run d events).draft).outcome = .ok stage := by
  have hplace : q.place ∈ (Request.ofDrafts plan.drafts).map Request.place :=
    hfresh.requests ▸ List.mem_map_of_mem hq
  obtain ⟨e, he, hslot⟩ := Request.mem_map_place_iff.1 hplace
  obtain rfl : d = e := Option.some.inj (hd.symm.trans he)
  rw [← Gate.slots_run d events] at hslot
  obtain ⟨hrefused, -⟩ | ⟨-, -, p, -, -, hok⟩ :=
    Gate.assign_cases q.slot id (Gate.Course.run d events).draft
  · exact absurd hrefused (by simp [hid, hslot])
  · exact ⟨_, hok⟩

/-- Whatever the replies, a deployment that ends with a result has made every request of the plan
once and in order, and after the requests of a draft its rule, if all were granted and there is a
rule for it. The result names every post once: the ids that were granted, the rules that were taken,
and an error for each of the others. The gate has refused no id. -/
theorem deploy_keeps_accounts {settings : Settings} {flow flowId : Value} {service : Option String}
    {plan : Plan} (hplan : (ofFlow settings flow flowId service).outcome = .ok plan)
    (target : Settings) (replies : Nat → Reply) (owns isOpen : Bool) (headers : Headers)
    {result : Deployment} {messages : List Message}
    (hresult : (Dispatcher.deploy ⟨target, .scripted replies, owns⟩ plan.flowId plan.requests
      headers ⟨[], isOpen, plan.drafts⟩).outcome = .ok result)
    (hmessages : (Dispatcher.deploy ⟨target, .scripted replies, owns⟩ plan.flowId plan.requests
      headers ⟨[], isOpen, plan.drafts⟩).state.peer = messages) :
    ∃ receipts : List Receipt,
      List.Forall₂ (fun place receipt => Receipt.Settles receipt place.1 place.2) plan.drafts.zipIdx
        receipts ∧
      (receipts.flatMap Receipt.answers).map Prod.fst = plan.requests ∧
      messages = (receipts.flatMap Receipt.posts).map (Post.message target headers) ∧
      (List.range messages.length).map replies = (receipts.flatMap Receipt.posts).map Post.reply ∧
      result.flowId = plan.flowId ∧
      result.subscriptionIds = (receipts.flatMap Receipt.posts).filterMap Post.id? ∧
      result.ruleNames = (receipts.flatMap Receipt.posts).filterMap Post.ruleName? ∧
      result.errors = (receipts.flatMap Receipt.posts).filterMap
        (Post.error? (plan.drafts.map Draft.name)) ∧
      result.subscriptionIds.length + result.ruleNames.length + result.errors.length =
        messages.length ∧
      ∀ q ∈ plan.requests, ∀ d, plan.drafts[q.draft]? = some d → ∀ events id, id ≠ "" →
        ∃ stage, (Gate.assign q.slot id (Gate.Course.run d events).draft).outcome = .ok stage := by
  have hfresh := isFresh_of_ofFlow hplan
  obtain ⟨before, after, receipts, left, hsplit, hreceipts, hend⟩ :=
    conducts_deploy hplan ⟨target, .scripted replies, owns⟩ headers [] isOpen
  obtain ⟨rfl, hend⟩ | ⟨_, _, _, failure, -, hend⟩ := hend
  · rw [List.append_nil] at hsplit
    obtain ⟨hpeer, hreplies⟩ := hend.scripted
    rw [hmessages] at hpeer hreplies
    have hlength : messages.length = (receipts.flatMap Receipt.posts).length := by
      rw [hpeer, List.length_map]
    have hresult : result = (receipts.flatMap Receipt.posts).foldl
        (Deployment.record (plan.drafts.map Draft.name)) { flowId := plan.flowId } :=
      Except.ok.inj (hresult.symm.trans hend.outcome)
    rw [Deployment.foldl_record] at hresult
    subst hresult
    refine ⟨receipts, hsplit ▸ hreceipts, ?_, hpeer, hreplies, rfl, rfl, rfl, rfl, ?_, ?_⟩
    · rw [requests_of_settled hreceipts, hfresh.requests, ← hsplit]
      rfl
    · rw [hlength]
      exact length_posts _ _
    · exact fun q hq d hd events id hid => assign_ok hfresh hq hd events hid
  · rw [hend.outcome] at hresult
    cases hresult

/-- The broker makes a subscription, then cannot be reached, then makes another one. -/
def risingReplies : Nat → Reply
  | 0 => .answered 201 [("Location", "/v2/subscriptions/a")] ""
  | 1 => .answered 200 [] ""
  | 2 => .failed "timed out"
  | _ => .answered 201 [("Location", "/v2/subscriptions/b/")] ""

def risingDeployment : Deployment where
  flowId := .text "f"
  subscriptionIds := ["a", "b"]
  ruleNames := ["rule_f_1"]
  errors := ["subscription for rule_f_2: timed out"]

def risingRule : Value :=
  .object [
    ("name", .text "rule_f_1"),
    ("text", .text ("select *, \"rule_f_1\" as ruleName, ev.y? as y from pattern " ++
      "[every ev = iotEvent(cast(subscriptionId?, String) = \"a\")]")),
    ("action", .object [
      ("type", .text "post"), ("template", .text "$\x7by\x7d"),
      ("parameters", .object [("url", .text "u"), ("method", .text "POST"),
        ("headers", .text "")])])]

def namelessSubscription (condition : Fields Value) (url : String) : Value :=
  .object [
    ("description", .text "Subscription for "),
    ("subject", .object
      (("entities", .list [.object [("type", .text ""), ("id", .text "")]]) :: condition)),
    ("notification", .object [("http", .object [("url", .text url)])])]

/-- The rule goes between the requests of its draft and those of the next one. -/
def risingMessages : List Message :=
  let watching (query : String) : Fields Value :=
    [("condition", .object [("attrs", .list [.text "x"]),
      ("expression", .object [("q", .text query)])])]
  let broker := "http://orion:1026/v2/subscriptions"
  [.post broker (namelessSubscription [] "http://perseo-fe:9090/noticesv2") [],
    .post "http://perseo-fe:9090/rules" risingRule [],
    .post broker (namelessSubscription (watching "x < 1") "http://cygnus:5050/notify") [],
    .post broker (namelessSubscription (watching "x >= 1") "http://cygnus:5050/notify") []]

theorem deploy_keeps_accounts_risingFlow :
    (ofFlow {} risingFlow (.text "f") none).outcome = .ok rising ∧
    (Dispatcher.deploy ⟨{}, .scripted risingReplies, true⟩ rising.flowId rising.requests []
      ⟨[], false, rising.drafts⟩).outcome = .ok risingDeployment ∧
    (Dispatcher.deploy ⟨{}, .scripted risingReplies, true⟩ rising.flowId rising.requests []
      ⟨[], false, rising.drafts⟩).state.peer = risingMessages ∧
    ∃ receipts : List Receipt,
      List.Forall₂ (fun place receipt => Receipt.Settles receipt place.1 place.2)
        rising.drafts.zipIdx receipts ∧
      (receipts.flatMap Receipt.answers).map Prod.fst = rising.requests ∧
      risingMessages = (receipts.flatMap Receipt.posts).map (Post.message {} []) := by
  have hresult : (Dispatcher.deploy ⟨{}, .scripted risingReplies, true⟩ rising.flowId
      rising.requests [] ⟨[], false, rising.drafts⟩).outcome = .ok risingDeployment := by
    with_unfolding_all rfl
  have hmessages : (Dispatcher.deploy ⟨{}, .scripted risingReplies, true⟩ rising.flowId
      rising.requests [] ⟨[], false, rising.drafts⟩).state.peer = risingMessages := by
    with_unfolding_all rfl
  obtain ⟨receipts, hreceipts, hrequests, hposts, -⟩ :=
    deploy_keeps_accounts ofFlow_risingFlow {} risingReplies true false [] hresult hmessages
  exact ⟨ofFlow_risingFlow, hresult, hmessages, receipts, hreceipts, hrequests, hposts⟩

end Plan

end EventFlow
