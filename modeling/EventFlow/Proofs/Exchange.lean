import EventFlow.Deployment
import EventFlow.Proofs.Arrival

/-!
What a deployment sends.

A deployment talks to the broker and the rule engine message by message (`Talk`), and notes what
came of every post: an id, a rule that was taken, or an error (`Deployment.record`). The requests of
one draft are posted one after the other; then the draft is asked for its rule at the gate, and the
rule is sent (`asks_deployRequests`). Only the writing of a rule can fail.
-/

namespace EventFlow

namespace Run

variable {σ ε α β γ : Type}

theorem bind_pure (x : Run σ ε α) : x >>= pure = x := by
  funext s
  change Run.bind x Run.pure s = x s
  rw [Run.bind]
  obtain ⟨state, log, outcome⟩ := x s
  cases outcome <;> simp [Run.pure]

theorem bind_assoc (x : Run σ ε α) (f : α → Run σ ε β) (g : β → Run σ ε γ) :
    x >>= f >>= g = x >>= fun a => f a >>= g := by
  funext s
  change Run.bind (Run.bind x f) g s = Run.bind x (fun a => Run.bind (f a) g) s
  simp only [Run.bind]
  cases (x s).outcome with
  | error e => rfl
  | ok a =>
      cases h : (f a (x s).state).outcome with
      | error e => simp [h]
      | ok b => simp [h]

end Run

/-! ### Replies and posts -/

namespace Reply

/-- The id of a new subscription, if the broker has made one and says where it is. -/
def granted? : Reply → Option String
  | .answered status headers _ => if status = 201 then subscriptionId? headers else none
  | .failed _ => none

def isTaken : Reply → Bool
  | .answered status _ _ => status = 200 ∨ status = 201
  | .failed _ => false

def complaint : Reply → String
  | .failed reason => reason
  | .answered status _ _ =>
    if status = 201 then "no Location header" else Dispatcher.statusText status

theorem ne_empty_of_granted? {reply : Reply} {id : String} (h : reply.granted? = some id) :
    id ≠ "" := by
  rintro rfl
  cases reply with
  | failed reason => cases h
  | answered status headers text =>
      rw [granted?] at h
      split at h
      · rw [subscriptionId?] at h
        split at h
        · cases h
        · next cs hcs =>
            exact hcs (by simpa using congrArg String.toList (Option.some.inj h))
      · cases h

end Reply

inductive Post where
  | subscription (request : Request) (reply : Reply)
  | rule (r : Rule) (reply : Reply)

namespace Post

def message (settings : Settings) (headers : Headers) : Post → Message
  | .subscription request _ =>
    .post settings.subscriptions request.subscription.payload headers
  | .rule r _ => .post settings.rules r.payload headers

def reply : Post → Reply
  | .subscription _ reply => reply
  | .rule _ reply => reply

def id? : Post → Option String
  | .subscription _ reply => reply.granted?
  | .rule .. => none

def ruleName? : Post → Option String
  | .subscription .. => none
  | .rule r reply => if reply.isTaken then some r.name else none

/-- The error to report, if the post was in vain. A request is known by the name of its draft. -/
def error? (names : List String) : Post → Option String
  | .subscription request reply =>
    if reply.granted?.isSome then none
    else some ("subscription for " ++ names.getD request.draft "" ++ ": " ++ reply.complaint)
  | .rule r reply =>
    if reply.isTaken then none else some ("rule " ++ r.name ++ ": " ++ reply.complaint)

/-- A post counts once. -/
theorem counts_once (names : List String) (post : Post) :
    post.id?.toList.length + post.ruleName?.toList.length + (post.error? names).toList.length =
      1 := by
  cases post with
  | subscription request reply =>
      cases h : reply.granted? <;> simp [id?, ruleName?, error?, h]
  | rule r reply => cases h : reply.isTaken <;> simp [id?, ruleName?, error?, h]

end Post

namespace Deployment

def record (names : List String) (deployment : Deployment) (post : Post) : Deployment where
  flowId := deployment.flowId
  subscriptionIds := deployment.subscriptionIds ++ post.id?.toList
  ruleNames := deployment.ruleNames ++ post.ruleName?.toList
  errors := deployment.errors ++ (post.error? names).toList

variable (names : List String) (deployment : Deployment)

theorem record_subscription (q : Request) (reply : Reply) :
    deployment.record names (.subscription q reply) =
      match reply.granted? with
      | some id => deployment.addSubscription id
      | none => deployment.addError
          ("subscription for " ++ names.getD q.draft "" ++ ": " ++ reply.complaint) := by
  cases h : reply.granted? <;>
    simp [record, Post.id?, Post.ruleName?, Post.error?, h, addSubscription, addError]

theorem record_rule (rule : Rule) (reply : Reply) :
    deployment.record names (.rule rule reply) =
      if reply.isTaken then deployment.addRule rule.name
      else deployment.addError ("rule " ++ rule.name ++ ": " ++ reply.complaint) := by
  cases h : reply.isTaken <;>
    simp [record, Post.id?, Post.ruleName?, Post.error?, h, addRule, addError]

theorem foldl_record (posts : List Post) :
    posts.foldl (record names) deployment =
      { flowId := deployment.flowId
        subscriptionIds := deployment.subscriptionIds ++ posts.filterMap Post.id?
        ruleNames := deployment.ruleNames ++ posts.filterMap Post.ruleName?
        errors := deployment.errors ++ posts.filterMap (Post.error? names) } := by
  induction posts generalizing deployment with
  | nil => simp
  | cons post posts ih =>
      rw [List.foldl_cons, ih]
      cases hid : post.id? <;> cases hname : post.ruleName? <;> cases herror : post.error? names <;>
        simp [record, hid, hname, herror]

end Deployment

/-! ### What a draft learns from replies -/

namespace Pattern

def note (p : Pattern) (grant : Slot × Option String) : Pattern :=
  (grant.2.bind fun id => p.assign? id grant.1).getD p

theorem note_some {p q : Pattern} {slot : Slot} {id : String} (h : p.assign? id slot = some q) :
    p.note (slot, some id) = q := by
  rw [note, Option.bind_some, h, Option.getD_some]

theorem slots_note (p : Pattern) (grant : Slot × Option String) :
    (p.note grant).slots = p.slots := by
  rw [note]
  cases h : grant.2.bind fun id => p.assign? id grant.1 with
  | none => rfl
  | some q =>
      obtain ⟨id, -, hq⟩ := Option.bind_eq_some_iff.1 h
      rw [Option.getD_some, slots, slots, isPaired_assign? hq]

theorem idOf_note {p : Pattern} {grant : Slot × Option String} {slot : Slot}
    (h : grant.1 = slot → grant.2 = none) : (p.note grant).idOf slot = p.idOf slot := by
  rw [note]
  cases hq : grant.2.bind fun id => p.assign? id grant.1 with
  | none => rfl
  | some q =>
      obtain ⟨id, hid, hq⟩ := Option.bind_eq_some_iff.1 hq
      have hne : slot ≠ grant.1 := by
        rintro rfl
        rw [h rfl] at hid
        cases hid
      rw [Option.getD_some, idOf_assign? hq, if_neg hne]

/-- A slot that no id is granted for keeps what it has. -/
theorem idOf_foldl_note {grants : List (Slot × Option String)} {slot : Slot}
    (h : ∀ grant ∈ grants, grant.1 = slot → grant.2 = none) (p : Pattern) :
    (grants.foldl note p).idOf slot = p.idOf slot := by
  induction grants generalizing p with
  | nil => rfl
  | cons grant grants ih =>
      obtain ⟨hgrant, hgrants⟩ := List.forall_mem_cons.1 h
      exact (ih hgrants (p.note grant)).trans (idOf_note hgrant)

theorem slots_foldl_note (grants : List (Slot × Option String)) (p : Pattern) :
    (grants.foldl note p).slots = p.slots := by
  induction grants generalizing p with
  | nil => rfl
  | cons grant grants ih => exact (ih (p.note grant)).trans (p.slots_note grant)

theorem nodup_slots (p : Pattern) : p.slots.Nodup := by
  rw [slots]
  split <;> decide

theorem foldl_note_fill (ids : Slot → String) (p : Pattern) :
    (p.slots.map fun slot => (slot, some (ids slot))).foldl note p = p.fill ids := by
  cases p <;> rfl

end Pattern

namespace Draft

def learn (d : Draft) (grants : List (Slot × Option String)) : Draft :=
  { d with pattern := grants.foldl Pattern.note d.pattern }

/-- A draft that misses an id is not ready. -/
theorem stage_ne_ready {d : Draft} {slot : Slot} (hslot : slot ∈ d.pattern.slots)
    (hid : d.pattern.idOf slot = "") : d.stage ≠ .ready :=
  fun h => (stage_eq_ready_iff.1 h).2 slot hslot hid

/-- A new draft has all its ids if all its requests have been granted, and is not ready if not. -/
theorem learn_cases {d : Draft} (hnew : d.IsNew) {grants : List (Slot × Option String)}
    (h : grants.map Prod.fst = d.pattern.slots) :
    (∃ ids : Slot → String,
      grants.map Prod.snd = d.pattern.slots.map (fun slot => some (ids slot)) ∧
        d.learn grants = d.fill ids) ∨
      ((∃ grant ∈ grants, grant.2 = none) ∧ (d.learn grants).stage ≠ .ready) := by
  -- No slot stands in two grants.
  have hnodup : (grants.map Prod.fst).Nodup := h ▸ d.pattern.nodup_slots
  by_cases hall : ∃ grant ∈ grants, grant.2 = none
  · obtain ⟨grant, hgrant, hnone⟩ := hall
    refine .inr ⟨⟨grant, hgrant, hnone⟩, stage_ne_ready (?_ : grant.1 ∈ _) ?_⟩
    · rw [learn, Pattern.slots_foldl_note, ← h]
      exact List.mem_map_of_mem hgrant
    · rw [learn, Pattern.idOf_foldl_note fun other hother heq => ?_]
      · exact hnew.ids grant.1
      · rw [List.inj_on_of_nodup_map hnodup hother hgrant heq, hnone]
  · obtain ⟨ids, hids⟩ : ∃ ids : Slot → String, ∀ grant ∈ grants, grant.2 = some (ids grant.1) := by
      have hslot (slot : Slot) :
          ∃ id : String, ∀ grant ∈ grants, grant.1 = slot → grant.2 = some id := by
        by_cases hin : ∃ grant ∈ grants, grant.1 = slot
        · obtain ⟨grant, hgrant, heq⟩ := hin
          obtain ⟨id, hid⟩ := Option.ne_none_iff_exists'.1 fun hnone => hall ⟨grant, hgrant, hnone⟩
          refine ⟨id, fun other hother hsame => ?_⟩
          rw [List.inj_on_of_nodup_map hnodup hother hgrant (hsame.trans heq.symm), hid]
        · exact ⟨"", fun grant hgrant heq => absurd ⟨grant, hgrant, heq⟩ hin⟩
      choose ids hids using hslot
      exact ⟨ids, fun grant hgrant => hids grant.1 grant hgrant rfl⟩
    have hgrants : (d.pattern.slots.map fun slot => (slot, some (ids slot))) = grants := by
      rw [← h, List.map_map]
      refine (List.map_congr_left fun grant hgrant => ?_).trans (List.map_id grants)
      exact Prod.ext rfl (hids grant hgrant).symm
    refine .inl ⟨ids, ?_, ?_⟩
    · rw [← hgrants, List.map_map]
      rfl
    · rw [learn, ← hgrants, Pattern.foldl_note_fill]
      rfl

end Draft

/-! ### Talking to the other end -/

/-- The client whose calls end in the given replies, one after the other. The state of the other end
is the messages so far. -/
def Client.scripted (replies : Nat → Reply) : Client (List Message) where
  connect _ messages := messages
  send message messages := (replies messages.length, messages ++ [message])
  disconnect messages := messages

namespace Dispatcher

variable {κ : Type} (x : Dispatcher κ)

def exchange (message : Message) (line : κ × Bool) : Reply × (κ × Bool) :=
  let peer :=
    if x.ownsConnection && !line.2 then x.client.connect x.settings.timeout line.1 else line.1
  let result := x.client.send message peer
  (result.1, result.2, x.ownsConnection)

/-- The other end gets the messages in order and answers with the replies. -/
inductive Talk : κ × Bool → List (Message × Reply) → κ × Bool → Prop where
  | nil (line : κ × Bool) : Talk line [] line
  | cons {line last : κ × Bool} {rest : List (Message × Reply)} (message : Message)
      (h : Talk (x.exchange message line).2 rest last) :
      Talk line ((message, (x.exchange message line).1) :: rest) last

variable {x}

theorem Talk.append {line middle last : κ × Bool} {record more : List (Message × Reply)}
    (h : x.Talk line record middle) (h' : x.Talk middle more last) :
    x.Talk line (record ++ more) last := by
  induction h with
  | nil line => exact h'
  | cons message _ ih => exact .cons message (ih h')

theorem Talk.one (message : Message) (line : κ × Bool) :
    x.Talk line [(message, (x.exchange message line).1)] (x.exchange message line).2 :=
  .cons message (.nil _)

/-- A script is followed reply by reply. -/
theorem Talk.scripted {settings : Settings} {replies : Nat → Reply} {owns : Bool}
    {line last : List Message × Bool} {record : List (Message × Reply)}
    (h : Talk ⟨settings, .scripted replies, owns⟩ line record last) :
    last.1 = line.1 ++ record.map Prod.fst ∧
      record.map Prod.snd =
        (List.range record.length).map fun k => replies (line.1.length + k) := by
  induction h with
  | nil line => simp
  | @cons line last rest message h ih =>
      have hsent : (exchange ⟨settings, .scripted replies, owns⟩ message line).2.1 =
          line.1 ++ [message] := by
        simp [exchange, Client.scripted]
      have hreply : (exchange ⟨settings, .scripted replies, owns⟩ message line).1 =
          replies line.1.length := by
        simp [exchange, Client.scripted]
      obtain ⟨hlast, hreplies⟩ := ih
      rw [hsent] at hlast hreplies
      refine ⟨by rw [hlast]; simp, ?_⟩
      rw [List.map_cons, hreplies, List.length_cons, List.range_succ_eq_map, List.map_cons,
        List.map_map, hreply, List.length_append]
      congr
      funext k
      rw [Function.comp_apply, List.length_singleton, Nat.add_assoc, Nat.add_comm 1 k]

end Dispatcher

def Session.line {κ : Type} (s : Session κ) : κ × Bool :=
  (s.peer, s.isOpen)

namespace Dispatcher

variable {κ : Type} (x : Dispatcher κ)

/-! ### One request -/

def after (message : Message) (s : Session κ) : Session κ :=
  { s with
    peer := (x.exchange message s.line).2.1
    isOpen := (x.exchange message s.line).2.2 }

theorem send_eq (message : Message) (s : Session κ) :
    x.send message s = ⟨x.after message s, [], .ok (x.exchange message s.line).1⟩ := rfl

theorem createSubscription_eq (headers : Headers) (q : Request) (s : Session κ) {message : Message}
    (hmessage : message = .post x.settings.subscriptions q.subscription.payload headers)
    {reply : Reply} (hreply : (x.exchange message s.line).1 = reply) :
    (x.createSubscription headers q s).state = x.after message s ∧
      (x.createSubscription headers q s).outcome = .ok (match reply.granted? with
        | some id => .ok id
        | none => .error
          ("subscription for " ++ (s.drafts.getD q.draft {}).name ++ ": " ++ reply.complaint)) := by
  subst hmessage
  have hsend := x.send_eq (.post x.settings.subscriptions q.subscription.payload headers) s
  rw [hreply] at hsend
  simp only [createSubscription, draftName, bind, Run.bind, Run.get, pure, Run.pure, hsend]
  cases reply with
  | failed reason => exact ⟨rfl, rfl⟩
  | answered status answerHeaders text =>
      rw [Reply.granted?, Reply.complaint]
      by_cases hstatus : status = 201
      · simp only [hstatus, ne_eq, not_true_eq_false, if_false, if_true]
        cases subscriptionId? answerHeaders with
        | none =>
            have htext (name : String) : name ++ ": no Location header" =
                name ++ ": " ++ "no Location header" := by
              rw [String.append_assoc]
              rfl
            exact ⟨rfl, congrArg (Except.ok ∘ Except.error) (htext _)⟩
        | some id => exact ⟨rfl, rfl⟩
      · simp only [hstatus, ne_eq, not_false_eq_true, if_true, if_false]
        exact ⟨rfl, rfl⟩

theorem createRule_eq (headers : Headers) (rule : Rule) (s : Session κ) {message : Message}
    (hmessage : message = .post x.settings.rules rule.payload headers)
    {reply : Reply} (hreply : (x.exchange message s.line).1 = reply) :
    (x.createRule headers rule s).state = x.after message s ∧
      (x.createRule headers rule s).outcome = .ok (if reply.isTaken then .ok ()
        else .error ("rule " ++ rule.name ++ ": " ++ reply.complaint)) := by
  subst hmessage
  have hsend := x.send_eq (.post x.settings.rules rule.payload headers) s
  rw [hreply] at hsend
  simp only [createRule, bind, Run.bind, pure, hsend]
  cases reply with
  | failed reason => exact ⟨rfl, rfl⟩
  | answered status answerHeaders text =>
      rw [Reply.isTaken, Reply.complaint]
      dsimp only
      by_cases htaken : status = 200 ∨ status = 201
      · simp only [htaken, if_true, decide_true]
        exact ⟨rfl, rfl⟩
      · have hstatus : status ≠ 201 := fun h => htaken (.inr h)
        rw [if_neg htaken, decide_eq_false htaken, if_neg hstatus]
        exact ⟨rfl, rfl⟩

theorem onDraft_eq {α : Type} (y : Run Draft Failure α) {s : Session κ} {i : Nat} {d : Draft}
    (h : s.drafts[i]? = some d) :
    (onDraft i y s).state = { s with drafts := s.drafts.set i (y d).state } ∧
      (onDraft i y s).outcome = (y d).outcome := by
  obtain ⟨hstate, houtcome⟩ := Gate.onDraft_eq y h
  exact ⟨congrArg (fun drafts => { s with drafts := drafts }) hstate, houtcome⟩

/-- How a part of a deployment went: what was posted, what became of the drafts, and what it failed
with, if it did. -/
structure Conducts (headers : Headers) (names : List String) (deployment : Deployment)
    (line : κ × Bool) (ended : Ended (Session κ) Failure Deployment) (posts : List Post)
    (drafts : List Draft) (failure? : Option Failure) : Prop where
  talk : x.Talk line (posts.map fun post => (post.message x.settings headers, post.reply))
    ended.state.line
  drafts : ended.state.drafts = drafts
  outcome : ended.outcome =
    match failure? with
    | none => .ok (posts.foldl (Deployment.record names) deployment)
    | some e => .error e

variable {x} {headers : Headers} {names : List String} {deployment : Deployment} {s : Session κ}

/-- The log does not matter. -/
theorem Conducts.of_eq {ended ended' : Ended (Session κ) Failure Deployment} {posts : List Post}
    {drafts : List Draft} {failure? : Option Failure}
    (h : x.Conducts headers names deployment s.line ended posts drafts failure?)
    (hstate : ended'.state = ended.state) (houtcome : ended'.outcome = ended.outcome) :
    x.Conducts headers names deployment s.line ended' posts drafts failure? :=
  ⟨hstate ▸ h.talk, hstate ▸ h.drafts, houtcome ▸ h.outcome⟩

theorem Conducts.bind {y : Step κ Deployment} {f : Deployment → Step κ Deployment}
    {posts more : List Post} {drafts drafts' : List Draft} {failure? : Option Failure}
    (h : x.Conducts headers names deployment s.line (y s) posts drafts none)
    (h' : x.Conducts headers names (posts.foldl (Deployment.record names) deployment)
      (y s).state.line (f (posts.foldl (Deployment.record names) deployment) (y s).state) more
      drafts' failure?) :
    x.Conducts headers names deployment s.line ((y >>= f) s) (posts ++ more) drafts' failure? := by
  obtain ⟨hstate, houtcome⟩ := Run.bind_of_ok f h.outcome
  refine ⟨?_, ?_, ?_⟩
  · rw [hstate, List.map_append]
    exact h.talk.append h'.talk
  · rw [hstate]
    exact h'.drafts
  · rw [houtcome, List.foldl_append]
    exact h'.outcome

theorem Conducts.bind_of_failure {y : Step κ Deployment} {f : Deployment → Step κ Deployment}
    {posts : List Post} {drafts : List Draft} {e : Failure}
    (h : x.Conducts headers names deployment s.line (y s) posts drafts (some e)) :
    x.Conducts headers names deployment s.line ((y >>= f) s) posts drafts (some e) := by
  obtain ⟨hstate, houtcome⟩ := Run.bind_of_error f h.outcome
  exact ⟨by rw [hstate]; exact h.talk, by rw [hstate]; exact h.drafts, houtcome⟩

/-- A call that sends one message and notes what came of it. -/
theorem Conducts.one {ended : Ended (Session κ) Failure Deployment} {post : Post}
    (hreply : (x.exchange (post.message x.settings headers) s.line).1 = post.reply)
    (hstate : ended.state = x.after (post.message x.settings headers) s)
    (houtcome : ended.outcome = .ok (deployment.record names post)) :
    x.Conducts headers names deployment s.line ended [post] s.drafts none := by
  refine ⟨?_, by rw [hstate]; rfl, houtcome⟩
  rw [List.map_singleton, ← hreply, hstate]
  exact .one _ _

/-- What follows a message that has been sent. -/
theorem Conducts.cons {ended : Ended (Session κ) Failure Deployment} {post : Post}
    {posts : List Post} {drafts : List Draft} {failure? : Option Failure}
    (hreply : (x.exchange (post.message x.settings headers) s.line).1 = post.reply)
    (h : x.Conducts headers names (deployment.record names post)
      (x.after (post.message x.settings headers) s).line ended posts drafts failure?) :
    x.Conducts headers names deployment s.line ended (post :: posts) drafts failure? := by
  refine ⟨?_, h.drafts, h.outcome⟩
  rw [List.map_cons, ← hreply]
  exact .cons _ h.talk

variable (x) in
def submit (headers : Headers) (deployment : Deployment) : Option Rule → Step κ Deployment
  | none => pure deployment
  | some rule => do
    match ← x.createRule headers rule with
    | .ok () => return deployment.addRule rule.name
    | .error text => return deployment.addError text

variable (x headers names deployment s) in
theorem conducts_submit (rule? : Option Rule) :
    ∃ reply, x.Conducts headers names deployment s.line (x.submit headers deployment rule? s)
      (rule?.toList.map (.rule · reply)) s.drafts none := by
  cases rule? with
  | none => exact ⟨.failed "", .nil _, rfl, rfl⟩
  | some rule =>
      generalize hreply :
        (x.exchange (.post x.settings.rules rule.payload headers) s.line).1 = reply
      obtain ⟨hstate, houtcome⟩ := x.createRule_eq headers rule s rfl hreply
      refine ⟨reply, .one hreply ?_ ?_⟩
      · rw [submit, (Run.bind_of_ok _ houtcome).1, hstate]
        cases reply.isTaken <;> rfl
      · rw [submit, (Run.bind_of_ok _ houtcome).2, Deployment.record_rule]
        cases reply.isTaken <;> rfl

variable (x) in
/-- Makes some posts, and then asks the draft `e` for its rule at the gate and sends it. -/
def Asks (headers : Headers) (names : List String) (deployment : Deployment) (s : Session κ)
    (ended : Ended (Session κ) Failure Deployment) (posts : List Post) (i : Nat) (e : Draft) :
    Prop :=
  ∃ reply, x.Conducts headers names deployment s.line ended
    (posts ++ (Gate.release e).outcome.toOption.join.toList.map (.rule · reply))
    (s.drafts.set i (Gate.release e).state)
    (match (Gate.release e).outcome with
      | .error failure => some failure
      | .ok _ => none)

variable (x headers names deployment s) in
theorem asks_release {i : Nat} {d : Draft} (hd : s.drafts[i]? = some d) :
    x.Asks headers names deployment s ((onDraft i Gate.release >>= x.submit headers deployment) s)
      [] i d := by
  obtain ⟨hrelease, hreleased⟩ := onDraft_eq Gate.release hd
  rw [Asks]
  cases hr : (Gate.release d).outcome with
  | error e =>
      rw [hr] at hreleased
      obtain ⟨hs, ho⟩ := Run.bind_of_error (x.submit headers deployment) hreleased
      rw [hrelease] at hs
      exact ⟨.failed "", by rw [hs]; exact .nil _, by rw [hs], ho⟩
  | ok rule? =>
      rw [hr] at hreleased
      obtain ⟨hs, ho⟩ := Run.bind_of_ok (x.submit headers deployment) hreleased
      rw [hrelease] at hs ho
      obtain ⟨reply, hsubmit⟩ := conducts_submit x headers names deployment
        { s with drafts := s.drafts.set i (Gate.release d).state } rule?
      exact ⟨reply, hsubmit.of_eq hs ho⟩

/-- A draft that is not ready is asked in vain. -/
theorem asks_of_not_ready {ended : Ended (Session κ) Failure Deployment} {posts : List Post}
    {i : Nat} {e : Draft} (he : e.stage ≠ .ready) :
    x.Asks headers names deployment s ended posts i e ↔
      x.Conducts headers names deployment s.line ended posts (s.drafts.set i e) none := by
  obtain ⟨hsame, hnothing⟩ := Gate.release_of_not_ready he
  rw [Asks, hsame, hnothing]
  constructor
  · rintro ⟨_, h⟩
    simpa [Except.toOption] using h
  · exact fun h => ⟨.failed "", by simpa [Except.toOption] using h⟩

variable (x headers deployment s) in
/-- An id for a slot of the draft passes the gate. What is left to do is to ask for the rule, and to
send it. -/
theorem advance_eq {q : Request} {d : Draft} {p : Pattern} {id : String}
    (hd : s.drafts[q.draft]? = some d) (hid : id ≠ "") (hp : d.pattern.assign? id q.slot = some p) :
    let rest := onDraft q.draft Gate.release >>= x.submit headers deployment
    let s' := { s with drafts := s.drafts.set q.draft { d with pattern := p } }
    (x.advance headers q id deployment s).state = (rest s').state ∧
      (x.advance headers q id deployment s).outcome = (rest s').outcome := by
  intro rest s'
  obtain ⟨hassign, hassigned⟩ := onDraft_eq (Gate.assign q.slot id) hd
  obtain ⟨hstate, houtcome⟩ := Gate.assign_eq hid hp
  rw [hstate] at hassign
  rw [houtcome] at hassigned
  have hattempt : ((Run.attempt (onDraft q.draft (Gate.assign q.slot id)) : Step κ _) s).outcome =
      .ok (.ok { d with pattern := p }.stage) := congrArg Except.ok hassigned
  have hstate' : ((Run.attempt (onDraft q.draft (Gate.assign q.slot id)) : Step κ _) s).state =
      s' := hassign
  rw [advance, (Run.bind_of_ok _ hattempt).1, (Run.bind_of_ok _ hattempt).2, hstate']
  exact ⟨rfl, rfl⟩

variable (x headers deployment) in
/-- A request that is not granted is noted as an error, and leaves the drafts alone. -/
theorem deployRequest_of_refused {q : Request} {message : Message}
    (hmessage : message = .post x.settings.subscriptions q.subscription.payload headers)
    {reply : Reply} (hreply : (x.exchange message s.line).1 = reply)
    (hgranted : reply.granted? = none) :
    (x.deployRequest headers deployment q s).state = x.after message s ∧
      (x.deployRequest headers deployment q s).outcome = .ok (deployment.addError
        ("subscription for " ++ (s.drafts.getD q.draft {}).name ++ ": " ++ reply.complaint)) := by
  obtain ⟨hstate, houtcome⟩ := x.createSubscription_eq headers q s hmessage hreply
  rw [deployRequest, (Run.bind_of_ok _ houtcome).1, (Run.bind_of_ok _ houtcome).2, hgranted, hstate]
  exact ⟨rfl, rfl⟩

variable (x headers deployment) in
/-- The id of a request that is granted is noted and passes the gate. -/
theorem deployRequest_of_granted {q : Request} {d : Draft} (hd : s.drafts[q.draft]? = some d)
    {message : Message}
    (hmessage : message = .post x.settings.subscriptions q.subscription.payload headers)
    {id : String} (hgranted : (x.exchange message s.line).1.granted? = some id) {p : Pattern}
    (hp : d.pattern.assign? id q.slot = some p) :
    let rest := onDraft q.draft Gate.release >>= x.submit headers (deployment.addSubscription id)
    let s' := { x.after message s with drafts := s.drafts.set q.draft { d with pattern := p } }
    (x.deployRequest headers deployment q s).state = (rest s').state ∧
      (x.deployRequest headers deployment q s).outcome = (rest s').outcome := by
  intro rest s'
  obtain ⟨hstate, houtcome⟩ := x.createSubscription_eq headers q s hmessage rfl
  rw [hgranted] at houtcome
  rw [deployRequest, (Run.bind_of_ok _ houtcome).1, (Run.bind_of_ok _ houtcome).2, hstate]
  exact advance_eq x headers (deployment.addSubscription id) (x.after message s) hd
    (Reply.ne_empty_of_granted? hgranted) hp

variable (x headers deployment) in
/-- A request is posted, and the draft is asked for its rule; if there is no id in the reply, it is
still not ready. -/
theorem asks_deployRequest {q : Request} {d : Draft} (hd : s.drafts[q.draft]? = some d)
    (hslot : q.slot ∈ d.pattern.slots) (hwaits : d.stage ≠ .ready)
    (hname : names.getD q.draft "" = d.name) :
    ∃ reply, x.Asks headers names deployment s (x.deployRequest headers deployment q s)
      [.subscription q reply] q.draft (d.learn [(q.slot, reply.granted?)]) := by
  generalize hreply : (x.exchange
    (.post x.settings.subscriptions q.subscription.payload headers) s.line).1 = reply
  refine ⟨reply, ?_⟩
  cases hgranted : reply.granted? with
  | none =>
      have hlearn : d.learn [(q.slot, none)] = d := rfl
      have hdraft : s.drafts.getD q.draft {} = d := by
        rw [List.getD_eq_getElem?_getD, hd]
        rfl
      have hset : s.drafts.set q.draft d = s.drafts := by
        obtain ⟨hlt, rfl⟩ := List.getElem?_eq_some_iff.1 hd
        exact List.set_getElem_self hlt
      obtain ⟨hstate, houtcome⟩ := deployRequest_of_refused x headers deployment rfl hreply hgranted
      rw [hlearn, asks_of_not_ready hwaits, hset]
      refine .one hreply hstate ?_
      rw [houtcome, Deployment.record_subscription, hgranted, hname, hdraft]
  | some id =>
      obtain ⟨p, hp⟩ : ∃ p, d.pattern.assign? id q.slot = some p := by
        refine Option.ne_none_iff_exists'.1 fun hnone => ?_
        exact Pattern.assign?_eq_none_iff.1 hnone hslot
      have hlearn : d.learn [(q.slot, some id)] = { d with pattern := p } := by
        rw [Draft.learn, List.foldl_cons, Pattern.note_some hp]
        rfl
      obtain ⟨hs, ho⟩ := deployRequest_of_granted x headers deployment hd rfl
        ((congrArg Reply.granted? hreply).trans hgranted) hp
      have hget : (s.drafts.set q.draft { d with pattern := p })[q.draft]? =
          some { d with pattern := p } := List.getElem?_set_self (List.getElem?_eq_some_iff.1 hd).1
      obtain ⟨reply', hasks⟩ := asks_release x headers names (deployment.addSubscription id)
        { x.after (.post x.settings.subscriptions q.subscription.payload headers) s with
          drafts := s.drafts.set q.draft { d with pattern := p } } hget
      rw [List.set_set] at hasks
      have hrecord : deployment.record names (.subscription q reply) =
          deployment.addSubscription id := by
        rw [Deployment.record_subscription, hgranted]
      rw [hlearn]
      exact ⟨reply', Conducts.cons hreply (hrecord ▸ hasks.of_eq hs ho)⟩

variable (x headers deployment) in
/-- The requests of one draft are posted one after the other. As long as there are more to come, the
draft misses an id, so its rule is released by the last of them if at all. -/
theorem asks_deployRequests {i : Nat} {qs : List Request} (hqs : qs ≠ []) {d : Draft}
    (hd : s.drafts[i]? = some d) (hplace : ∀ q ∈ qs, q.draft = i ∧ q.slot ∈ d.pattern.slots)
    (hnodup : (qs.map Request.slot).Nodup) (hmissing : ∀ q ∈ qs, d.pattern.idOf q.slot = "")
    (hname : names.getD i "" = d.name) :
    ∃ answers : List (Request × Reply), answers.map Prod.fst = qs ∧
      x.Asks headers names deployment s (x.deployRequests headers deployment qs s)
        (answers.map fun answer => .subscription answer.1 answer.2) i
        (d.learn (answers.map fun answer => (answer.1.slot, answer.2.granted?))) := by
  induction qs generalizing d s deployment with
  | nil => exact absurd rfl hqs
  | cons q rest ih =>
      obtain ⟨⟨hi, hslot⟩, hplace⟩ := List.forall_mem_cons.1 hplace
      obtain ⟨hid, hmissing⟩ := List.forall_mem_cons.1 hmissing
      rw [List.map_cons, List.nodup_cons] at hnodup
      subst hi
      obtain ⟨reply, hfirst⟩ := asks_deployRequest x headers deployment hd hslot
        (Draft.stage_ne_ready hslot hid) hname
      cases rest with
      | nil =>
          refine ⟨[(q, reply)], rfl, ?_⟩
          change x.Asks headers names deployment s
            ((x.deployRequest headers deployment q >>= pure) s) _ _ _
          rw [Run.bind_pure]
          exact hfirst
      | cons q' rest =>
          have hplace' : ∀ q'' ∈ q' :: rest, q''.draft = q.draft ∧
              q''.slot ∈ (d.learn [(q.slot, reply.granted?)]).pattern.slots := by
            rw [Draft.learn, Pattern.slots_foldl_note]
            exact hplace
          have hmissing' : ∀ q'' ∈ q' :: rest,
              (d.learn [(q.slot, reply.granted?)]).pattern.idOf q''.slot = "" := by
            intro q'' hq
            rw [Draft.learn, Pattern.idOf_foldl_note]
            · exact hmissing q'' hq
            · intro grant hgrant heq
              rw [List.mem_singleton.1 hgrant] at heq
              exact absurd (List.mem_map.2 ⟨q'', hq, heq.symm⟩) hnodup.1
          rw [asks_of_not_ready (Draft.stage_ne_ready (hplace' q' (.head _)).2
            (hmissing' q' (.head _)))] at hfirst
          have hget : (x.deployRequest headers deployment q s).state.drafts[q.draft]? =
              some (d.learn [(q.slot, reply.granted?)]) := by
            rw [hfirst.drafts]
            exact List.getElem?_set_self (List.getElem?_eq_some_iff.1 hd).1
          obtain ⟨answers, hanswers, reply', hrest⟩ :=
            ih _ (List.cons_ne_nil _ _) hget hplace' hnodup.2 hmissing' hname
          refine ⟨(q, reply) :: answers, by rw [List.map_cons, hanswers], reply', ?_⟩
          rw [hfirst.drafts, List.set_set] at hrest
          exact hfirst.bind hrest

theorem deployRequests_append (qs rest : List Request) :
    x.deployRequests headers deployment (qs ++ rest) =
      x.deployRequests headers deployment qs >>= fun deployment =>
        x.deployRequests headers deployment rest := by
  induction qs generalizing deployment with
  | nil => rfl
  | cons q qs ih =>
      rw [List.cons_append, deployRequests, deployRequests, Run.bind_assoc]
      congr 1
      funext deployment
      exact ih

end Dispatcher

end EventFlow
