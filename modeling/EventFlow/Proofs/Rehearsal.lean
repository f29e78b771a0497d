import EventFlow.CommandLine
import EventFlow.Proofs.Addressing
import EventFlow.Proofs.Removal

/-!
Rehearsing a deployment.

The command line takes ids from its user where a deployment takes them from the broker. Both hand
them out in the order of the requests and ask the gate after each of them, so they lead the drafts
through the same states, request by request (`postedRules_deployRequests`). If the broker grants the
ids of a list one after the other, and no more, a deployment posts the rules that the command line
shows for the list, or fails like it.
-/

namespace EventFlow

/-! ### Lists of ids -/

namespace Text

/-- There is nothing to trim where no white space stands at an end. -/
theorem trim_eq_self {s : String} (hfirst : ∀ c ∈ s.toList.head?, isBlank c = false)
    (hlast : ∀ c ∈ s.toList.getLast?, isBlank c = false) : trim s = s := by
  have hdrop (cs : List Char) (h : ∀ c ∈ cs.head?, isBlank c = false) :
      cs.dropWhile isBlank = cs := by
    cases cs with
    | nil => rfl
    | cons c cs => rw [List.dropWhile_cons_of_neg (by simp [h c rfl])]
  rw [trim, trimWhile, dropEndWhile, hdrop _ hfirst,
    hdrop _ (by rwa [List.head?_reverse]), List.reverse_reverse, String.ofList_toList]

end Text

theorem Run.outcome_bind_pure {ε α β : Type} (x : Traced ε α) (f : α → β) :
    outcome (x >>= fun a => pure (f a)) = x.outcome.map f := by
  rw [outcome_bind]
  cases x.outcome <;> rfl

namespace CommandLine

/-- An id that can stand in a list with commas, and at the end of a location. -/
structure IsPlainId (id : String) : Prop where
  nonempty : id ≠ ""
  comma : ',' ∉ id.toList
  slash : '/' ∉ id.toList
  first : ∀ c ∈ id.toList.head?, Text.isBlank c = false
  last : ∀ c ∈ id.toList.getLast?, Text.isBlank c = false

theorem isPlainId_iff {id : String} :
    IsPlainId id ↔ id ≠ "" ∧ ',' ∉ id.toList ∧ '/' ∉ id.toList ∧
      id.toList.head?.all (!Text.isBlank ·) = true ∧
      id.toList.getLast?.all (!Text.isBlank ·) = true := by
  have hall (c? : Option Char) :
      c?.all (!Text.isBlank ·) = true ↔ ∀ c ∈ c?, Text.isBlank c = false := by
    cases c? <;> simp
  rw [hall, hall]
  exact ⟨fun h => ⟨h.1, h.2, h.3, h.4, h.5⟩, fun ⟨h, h', h'', h₁, h₂⟩ => ⟨h, h', h'', h₁, h₂⟩⟩

instance (id : String) : Decidable (IsPlainId id) :=
  decidable_of_iff' _ isPlainId_iff

theorem splitIds_joinWith {ids : List String} (h : ∀ id ∈ ids, IsPlainId id) :
    splitIds (Text.joinWith "," ids) = ids := by
  by_cases hne : ids = []
  · subst hne
    rfl
  · have hpieces : ∀ piece ∈ ids.map String.toList, ',' ∉ piece :=
      List.forall_mem_map.2 fun id hid => (h id hid).comma
    have htrim : ids.map (fun id => Text.trim id) = ids :=
      (List.map_congr_left fun id hid =>
        Text.trim_eq_self (h id hid).first (h id hid).last).trans (List.map_id ids)
    have hsplit : Text.split ',' (Text.joinWith "," ids).toList = ids.map String.toList := by
      rw [Text.joinWith, String.toList_ofList]
      exact Text.split_join (by simpa using hne) hpieces
    rw [splitIds, hsplit, List.map_map]
    simp only [Function.comp_def, String.ofList_toList, htrim]
    exact List.filter_eq_self.2 fun id hid => by simpa using (h id hid).nonempty

theorem outcome_rulesField (plan : Plan) (ids : String) :
    (rulesField plan ids).outcome =
      (Gate.releaseAll (plan.requests.zip (splitIds ids)) plan.drafts).outcome.map
        fun rules => [("rules", .list (rules.map Rule.payload))] := by
  rw [rulesField]
  -- Too few ids are reported, which changes nothing.
  split
  · rw [Run.outcome_bind_of_ok rfl]
    exact Run.outcome_bind_pure _ _
  · exact Run.outcome_bind_pure _ _

end CommandLine

/-! ### Ids at the gate -/

theorem Run.outcome_each_cons {σ ε α β : Type} (a : α) (rest : List α) (f : α → Run σ ε β)
    (s : σ) :
    (Run.each (a :: rest) f s).outcome = do
      let b ← (f a s).outcome
      let bs ← (Run.each rest f (f a s).state).outcome
      return b :: bs := by
  cases ha : (f a s).outcome with
  | error e => exact (Run.bind_of_error _ ha).2
  | ok b =>
      refine (Run.bind_of_ok _ ha).2.trans ?_
      cases hrest : (Run.each rest f (f a s).state).outcome with
      | error e => exact (Run.bind_of_error _ hrest).2
      | ok bs => exact (Run.bind_of_ok _ hrest).2

namespace Gate

def pass (slot : Slot) (id : String) : Run Draft Failure (Option Rule) := do
  let _ ← assign slot id
  release

theorem pass_eq {d : Draft} {slot : Slot} {id : String} {p : Pattern} (hid : id ≠ "")
    (hp : d.pattern.assign? id slot = some p) :
    (pass slot id d).state = (release { d with pattern := p }).state ∧
      (pass slot id d).outcome = (release { d with pattern := p }).outcome := by
  obtain ⟨hstate, houtcome⟩ := assign_eq hid hp
  have hpass := Run.bind_of_ok (fun _ => release) houtcome
  rwa [hstate] at hpass

theorem follows_pass (slot : Slot) (id : String) (d : Draft) :
    Follows d (pass slot id d).state := by
  have hassign := follows_assign slot id d
  cases h : (assign slot id d).outcome with
  | error e =>
      rw [pass, (Run.bind_of_error _ h).1]
      exact hassign
  | ok p =>
      rw [pass, (Run.bind_of_ok _ h).1]
      exact hassign.trans (follows_release _)

theorem indifferent_pass (slot : Slot) (id : String) : Draft.Indifferent (pass slot id) :=
  .bind (indifferent_assign slot id) fun _ => indifferent_release

theorem outcome_releaseAll (assignments : List (Request × String)) (drafts : List Draft) :
    (releaseAll assignments drafts).outcome =
      (Run.each assignments (fun a => onDraft a.1.draft (pass a.1.slot a.2)) drafts).outcome.map
        (List.filterMap id) := by
  cases h : (Run.each assignments (fun a => onDraft a.1.draft (pass a.1.slot a.2))
    drafts).outcome with
  | error e => exact (Run.bind_of_error (fun rules => pure (rules.filterMap id)) h).2
  | ok rules => exact (Run.bind_of_ok (fun rules => pure (rules.filterMap id)) h).2

/-- Ids are taken one after the other, up to the first after which a rule cannot be written. -/
theorem outcome_releaseAll_cons (q : Request) (id : String) (rest : List (Request × String))
    (drafts : List Draft) :
    (releaseAll ((q, id) :: rest) drafts).outcome = do
      let rule? ← (onDraft q.draft (pass q.slot id) drafts).outcome
      let rules ← (releaseAll rest (onDraft q.draft (pass q.slot id) drafts).state).outcome
      return rule?.toList ++ rules := by
  rw [outcome_releaseAll, outcome_releaseAll, Run.outcome_each_cons]
  cases (onDraft q.draft (pass q.slot id) drafts).outcome with
  | error e => rfl
  | ok rule? =>
      cases (Run.each rest (fun a => onDraft a.1.draft (pass a.1.slot a.2))
        (onDraft q.draft (pass q.slot id) drafts).state).outcome with
      | error e => rfl
      | ok rules => cases rule? <;> rfl

/-- Ids release the same rules whatever the addresses. -/
theorem outcome_releaseAll_readdress (address : Task → String) {qs qs' : List Request}
    (h : qs'.map Request.unaddressed = qs.map Request.unaddressed) (ids : List String)
    (drafts : List Draft) :
    (releaseAll (qs'.zip ids) (drafts.map (Draft.readdress address))).outcome =
      (releaseAll (qs.zip ids) drafts).outcome := by
  induction qs generalizing qs' ids drafts with
  | nil =>
      obtain rfl : qs' = [] := List.map_eq_nil_iff.1 h
      rfl
  | cons q qs ih =>
      obtain ⟨q', rest, rfl, hq, hrest⟩ := List.map_eq_cons_iff.1 h
      cases ids with
      | nil => rfl
      | cons id ids =>
          obtain ⟨hstate, houtcome⟩ :=
            onDraft_readdress address (indifferent_pass q.slot id) q.draft drafts
          have hdraft : q'.draft = q.draft := 
            show q'.unaddressed.draft = q.unaddressed.draft by rw [hq]
          have hslot : q'.slot = q.slot :=
            show q'.unaddressed.slot = q.unaddressed.slot by rw [hq]
          rw [List.zip_cons_cons, List.zip_cons_cons, outcome_releaseAll_cons,
            outcome_releaseAll_cons, hdraft, hslot, hstate, houtcome, ih hrest]

end Gate

/-! ### A broker with a list of ids -/

/-- The client of an other end that remembers all messages and answers in view of them. -/
def Client.recording (answer : List Message → Message → Reply) : Client (List Message) where
  connect _ messages := messages
  send message messages := (answer messages message, messages ++ [message])
  disconnect messages := messages

namespace Message

def bodyFor? (url : String) : Message → Option Value
  | .post address body _ => if address = url then some body else none
  | .delete .. => none

/-- All that was posted to an address. -/
def bodiesFor (url : String) (messages : List Message) : List Value :=
  messages.filterMap (bodyFor? url)

end Message

open Message (bodiesFor)

theorem Settings.rules_ne_subscriptions (s : Settings) : s.rules ≠ s.subscriptions := by
  intro h
  -- The addresses differ in the letter before the last.
  have hletter := congrArg (fun url => url.toList.reverse[1]?) h
  simp [rules, subscriptions] at hletter

/-- The broker grants the ids of a list one after the other, each with a location that ends in it,
and refuses what is requested beyond them. Nothing is said of other messages. -/
structure GrantsInTurn (settings : Settings) (ids : List String)
    (answer : List Message → Message → Reply) : Prop where
  granted : ∀ messages body headers id,
    ids[(bodiesFor settings.subscriptions messages).length]? = some id →
    ∃ answerHeaders text location,
      answer messages (.post settings.subscriptions body headers) =
        .answered 201 answerHeaders text ∧
      Headers.get? answerHeaders "location" = some location ∧ Text.IsLastSegment id location
  refused : ∀ messages body headers,
    ids[(bodiesFor settings.subscriptions messages).length]? = none →
    (answer messages (.post settings.subscriptions body headers)).status? ≠ some 201

theorem GrantsInTurn.granted?_eq {settings : Settings} {ids : List String}
    {answer : List Message → Message → Reply} (h : GrantsInTurn settings ids answer)
    (hids : ∀ id ∈ ids, CommandLine.IsPlainId id) (messages : List Message) (body : Value)
    (headers : Headers) :
    (answer messages (.post settings.subscriptions body headers)).granted? =
      ids[(bodiesFor settings.subscriptions messages).length]? := by
  cases hid : ids[(bodiesFor settings.subscriptions messages).length]? with
  | none => exact Reply.granted?_eq_none (h.refused messages body headers hid)
  | some id =>
      obtain ⟨answerHeaders, text, location, hanswer, hget, hlast⟩ :=
        h.granted messages body headers id hid
      have hplain := hids id (List.mem_of_getElem? hid)
      rw [hanswer, Reply.granted?, if_pos rfl,
        subscriptionId?_eq_some hget hlast hplain.nonempty hplain.slash]

/-! ### Request by request -/

/-- Every request is for a slot of its draft. -/
def Serves (drafts : List Draft) (qs : List Request) : Prop :=
  ∀ q ∈ qs, ∃ d, drafts[q.draft]? = some d ∧ q.slot ∈ d.pattern.slots

theorem Serves.set {drafts : List Draft} {qs : List Request} (h : Serves drafts qs) {i : Nat}
    {d e : Draft} (hd : drafts[i]? = some d) (he : e.pattern.slots = d.pattern.slots) :
    Serves (drafts.set i e) qs := by
  intro q hq
  obtain ⟨d', hd', hslot⟩ := h q hq
  by_cases hi : i = q.draft
  · subst hi
    obtain rfl : d = d' := Option.some.inj (hd.symm.trans hd')
    refine ⟨e, List.getElem?_set_self (List.getElem?_eq_some_iff.1 hd).1, ?_⟩
    rwa [he]
  · exact ⟨d', by rwa [List.getElem?_set_ne hi], hslot⟩

theorem Plan.IsFresh.serves {plan : Plan} (h : plan.IsFresh) :
    Serves plan.drafts plan.requests := by
  intro q hq
  have hplace : q.place ∈ (Request.ofDrafts plan.drafts).map Request.place :=
    h.requests ▸ List.mem_map_of_mem hq
  exact Request.mem_map_place_iff.1 hplace

namespace Dispatcher

variable {target : Settings} {answer : List Message → Message → Reply} {owns : Bool}

theorem exchange_recording (message : Message) (line : List Message × Bool) :
    exchange ⟨target, .recording answer, owns⟩ message line =
      (answer line.1 message, line.1 ++ [message], owns) := by
  simp [exchange, Client.recording]

theorem Talk.recording {line last : List Message × Bool} {record : List (Message × Reply)}
    (h : Talk ⟨target, .recording answer, owns⟩ line record last) :
    last.1 = line.1 ++ record.map Prod.fst := by
  induction h with
  | nil line => simp
  | cons message h ih =>
      rw [ih, exchange_recording, List.append_assoc]
      rfl

def postedRules (target : Settings) (ended : Ended (Session (List Message)) Failure Deployment) :
    Except Failure (List Value) :=
  ended.outcome.map fun _ => bodiesFor target.rules ended.state.peer

variable {ids : List String} {headers : Headers} {s : Session (List Message)}

theorem postedRules_bind {y : Step (List Message) Deployment}
    {f : Deployment → Step (List Message) Deployment} {result : Deployment}
    (h : (y s).outcome = .ok result) :
    postedRules target ((y >>= f) s) = postedRules target (f result (y s).state) := by
  obtain ⟨hstate, houtcome⟩ := Run.bind_of_ok f h
  rw [postedRules, hstate, houtcome, postedRules]

variable (target headers s) in
/-- What has become of a session with one more request: the drafts, and the rules that were posted
after the request. -/
structure Advances (drafts : List Draft) (rules : List Rule) (s' : Session (List Message)) :
    Prop where
  drafts : s'.drafts = drafts
  peer : ∃ body, s'.peer = s.peer ++ .post target.subscriptions body headers ::
    rules.map fun rule => .post target.rules rule.payload headers

theorem Advances.requested {drafts : List Draft} {rules : List Rule} {s' : Session (List Message)}
    (h : Advances target headers s drafts rules s') :
    (bodiesFor target.subscriptions s'.peer).length =
      (bodiesFor target.subscriptions s.peer).length + 1 := by
  obtain ⟨body, hpeer⟩ := h.peer
  simp [hpeer, bodiesFor, List.filterMap_map, Function.comp_def, Message.bodyFor?,
    target.rules_ne_subscriptions]

theorem Advances.posted {drafts : List Draft} {rules : List Rule} {s' : Session (List Message)}
    (h : Advances target headers s drafts rules s') :
    bodiesFor target.rules s'.peer = bodiesFor target.rules s.peer ++ rules.map Rule.payload := by
  obtain ⟨body, hpeer⟩ := h.peer
  simp [hpeer, bodiesFor, List.filterMap_map, Function.comp_def, Message.bodyFor?,
    target.rules_ne_subscriptions.symm]

variable (hids : ∀ id ∈ ids, CommandLine.IsPlainId id) (hturn : GrantsInTurn target ids answer)

include hids hturn

variable (owns headers s) in
/-- The next request is granted with the next id. -/
theorem granted?_exchange (q : Request) :
    (exchange ⟨target, .recording answer, owns⟩
        (.post target.subscriptions q.subscription.payload headers) s.line).1.granted? =
      ids[(bodiesFor target.subscriptions s.peer).length]? := by
  rw [exchange_recording]
  exact hturn.granted?_eq hids s.peer q.subscription.payload headers

variable (owns headers) in
/-- Beyond the last id a request changes nothing. -/
theorem deployRequest_of_none
    (hnone : ids[(bodiesFor target.subscriptions s.peer).length]? = none) (q : Request)
    (deployment : Deployment) :
    let ended := deployRequest ⟨target, .recording answer, owns⟩ headers deployment q s
    (∃ result, ended.outcome = .ok result) ∧
      Advances target headers s s.drafts [] ended.state := by
  intro ended
  have hgranted := (granted?_exchange owns headers s hids hturn q).trans hnone
  obtain ⟨hstate, houtcome⟩ := deployRequest_of_refused ⟨target, .recording answer, owns⟩ headers
    deployment rfl rfl hgranted
  refine ⟨⟨_, houtcome⟩, ?_, q.subscription.payload, ?_⟩
  · rw [hstate, after]
  · rw [hstate, after, exchange_recording]
    rfl

variable (owns headers) in
/-- With an id the draft passes the gate, and the rule that it is released with is posted. -/
theorem deployRequest_of_some {id : String}
    (hsome : ids[(bodiesFor target.subscriptions s.peer).length]? = some id) {q : Request}
    {d : Draft} (hd : s.drafts[q.draft]? = some d) (hslot : q.slot ∈ d.pattern.slots)
    (deployment : Deployment) :
    let ended := deployRequest ⟨target, .recording answer, owns⟩ headers deployment q s
    let passed := Gate.onDraft q.draft (Gate.pass q.slot id) s.drafts
    match passed.outcome with
    | .error e => ended.outcome = .error e
    | .ok rule? => (∃ result, ended.outcome = .ok result) ∧
        Advances target headers s passed.state rule?.toList ended.state := by
  intro ended passed
  have hgranted := (granted?_exchange owns headers s hids hturn q).trans hsome
  have hid : id ≠ "" := (hids id (List.mem_of_getElem? hsome)).nonempty
  obtain ⟨p, hp⟩ : ∃ p, d.pattern.assign? id q.slot = some p :=
    Option.ne_none_iff_exists'.1 fun hnone => Pattern.assign?_eq_none_iff.1 hnone hslot
  obtain ⟨hstate, houtcome⟩ := deployRequest_of_granted ⟨target, .recording answer, owns⟩ headers
    deployment hd rfl hgranted hp
  -- Both sides ask the draft with its id for the rule.
  obtain ⟨hpassed, hreleased⟩ := Gate.onDraft_eq (Gate.pass q.slot id) hd
  rw [(Gate.pass_eq hid hp).1] at hpassed
  rw [(Gate.pass_eq hid hp).2] at hreleased
  have hget : (s.drafts.set q.draft { d with pattern := p })[q.draft]? =
      some { d with pattern := p } := List.getElem?_set_self (List.getElem?_eq_some_iff.1 hd).1
  obtain ⟨reply, hconducts⟩ := asks_release ⟨target, .recording answer, owns⟩ headers []
    (deployment.addSubscription id) { after ⟨target, .recording answer, owns⟩
      (.post target.subscriptions q.subscription.payload headers) s with
      drafts := s.drafts.set q.draft { d with pattern := p } } hget
  rw [List.set_set] at hconducts
  have hconducts := hconducts.of_eq hstate houtcome
  cases hrelease : (Gate.release { d with pattern := p }).outcome with
  | error e =>
      rw [hrelease] at hreleased hconducts
      simp only [passed, hreleased]
      exact hconducts.outcome
  | ok rule? =>
      rw [hrelease] at hreleased hconducts
      simp only [passed, hreleased]
      refine ⟨⟨_, hconducts.outcome⟩, ?_, q.subscription.payload, ?_⟩
      · rw [hconducts.drafts, hpassed]
      · have hpeer := hconducts.talk.recording
        rw [Session.line, Session.line, after, exchange_recording] at hpeer
        simpa [Session.line, Except.toOption, Function.comp_def, Post.message] using hpeer

variable (owns headers s) in
/-- Request by request, a deployment does at the gate what `releaseAll` does with the ids that are
left, and posts the rules that this releases. -/
theorem postedRules_deployRequests {qs : List Request} (hserves : Serves s.drafts qs)
    (deployment : Deployment) :
    postedRules target (deployRequests ⟨target, .recording answer, owns⟩ headers deployment qs s) =
      (Gate.releaseAll (qs.zip (ids.drop (bodiesFor target.subscriptions s.peer).length))
        s.drafts).outcome.map
        (fun rules => bodiesFor target.rules s.peer ++ rules.map Rule.payload) := by
  induction qs generalizing s deployment with
  | nil => exact congrArg Except.ok (List.append_nil _).symm
  | cons q qs ih =>
      obtain ⟨⟨d, hd, hslot⟩, hserves⟩ := List.forall_mem_cons.1 hserves
      -- What the request has done, and what the others will do.
      have hrest {result : Deployment} {drafts : List Draft} {rules : List Rule}
          (hresult : (deployRequest ⟨target, .recording answer, owns⟩ headers deployment q
            s).outcome = .ok result)
          (hadvances : Advances target headers s drafts rules
            (deployRequest ⟨target, .recording answer, owns⟩ headers deployment q s).state)
          (hdrafts : Serves drafts qs) :
          postedRules target
              (deployRequests ⟨target, .recording answer, owns⟩ headers deployment (q :: qs) s) =
            (Gate.releaseAll (qs.zip
              (ids.drop ((bodiesFor target.subscriptions s.peer).length + 1))) drafts).outcome.map
              (fun released =>
                bodiesFor target.rules s.peer ++ (rules ++ released).map Rule.payload) := by
        have hnext := ih _ (hadvances.drafts ▸ hdrafts) result
        rw [hadvances.drafts, hadvances.requested, hadvances.posted] at hnext
        rw [deployRequests, postedRules_bind hresult, hnext]
        simp only [List.map_append, List.append_assoc]
      cases hid : ids[(bodiesFor target.subscriptions s.peer).length]? with
      | none =>
          obtain ⟨⟨result, hresult⟩, hadvances⟩ :=
            deployRequest_of_none owns headers hids hturn hid q deployment
          have hlength := List.getElem?_eq_none_iff.1 hid
          rw [hrest hresult hadvances hserves, List.drop_eq_nil_of_le hlength,
            List.drop_eq_nil_of_le (Nat.le_succ_of_le hlength), List.zip_nil_right,
            List.zip_nil_right]
          rfl
      | some id =>
          have hrequest := deployRequest_of_some owns headers hids hturn hid hd hslot deployment
          have hdrop : ids.drop (bodiesFor target.subscriptions s.peer).length =
              id :: ids.drop ((bodiesFor target.subscriptions s.peer).length + 1) := by
            rw [List.drop_eq_getElem?_toList_append, hid]
            rfl
          rw [hdrop, List.zip_cons_cons, Gate.outcome_releaseAll_cons]
          cases hpassed : (Gate.onDraft q.draft (Gate.pass q.slot id) s.drafts).outcome with
          | error e =>
              simp only [hpassed] at hrequest
              rw [deployRequests, postedRules, (Run.bind_of_error _ hrequest).2]
              rfl
          | ok rule? =>
              simp only [hpassed] at hrequest
              obtain ⟨⟨result, hresult⟩, hadvances⟩ := hrequest
              have hdrafts :
                  Serves (Gate.onDraft q.draft (Gate.pass q.slot id) s.drafts).state qs := by
                rw [(Gate.onDraft_eq _ hd).1]
                exact Serves.set hserves hd (Gate.follows_pass q.slot id d).slots
              rw [hrest hresult hadvances hdrafts]
              cases (Gate.releaseAll _
                (Gate.onDraft q.draft (Gate.pass q.slot id) s.drafts).state).outcome <;> rfl

end Dispatcher

namespace Plan

variable {settings settings' : Settings} {flow flowId : Value} {service service' : Option String}
  {plan plan' : Plan}

theorem outcome_releaseAll_ofFlow
    (hplan : (ofFlow settings flow flowId service).outcome = .ok plan)
    (hplan' : (ofFlow settings' flow flowId service').outcome = .ok plan') (ids : List String) :
    (Gate.releaseAll (plan'.requests.zip ids) plan'.drafts).outcome =
      (Gate.releaseAll (plan.requests.zip ids) plan.drafts).outcome := by
  have hreaddress := outcome_ofFlow_readdress settings settings' flow flowId service service'
  rw [hplan, hplan'] at hreaddress
  obtain rfl := Except.ok.inj hreaddress
  refine Gate.outcome_releaseAll_readdress _ ?_ ids plan.drafts
  rw [(isFresh_of_ofFlow hplan).requests]
  exact Request.map_unaddressed_ofDrafts _ plan.drafts

theorem postedRules_deploy (hplan : (ofFlow settings flow flowId service).outcome = .ok plan)
    {ids : List String} (hids : ∀ id ∈ ids, CommandLine.IsPlainId id) {target : Settings}
    {answer : List Message → Message → Reply} (hturn : GrantsInTurn target ids answer)
    (owns isOpen : Bool) (headers : Headers) :
    Dispatcher.postedRules target (Dispatcher.deploy ⟨target, .recording answer, owns⟩
        plan.flowId plan.requests headers ⟨[], isOpen, plan.drafts⟩) =
      (Gate.releaseAll (plan.requests.zip ids) plan.drafts).outcome.map
        (List.map Rule.payload) := by
  have hserves := (isFresh_of_ofFlow hplan).serves
  obtain ⟨shown, -, -, -, drafts, hshown, -, -, -, -, rfl⟩ := ofFlow_eq_ok_iff.1 hplan
  obtain ⟨hstate, houtcome⟩ := Dispatcher.deploy_eq ⟨target, .recording answer, owns⟩ hshown
    (Request.ofDrafts drafts) headers ⟨[], isOpen, drafts⟩
  rw [Dispatcher.postedRules, hstate, houtcome]
  exact Dispatcher.postedRules_deployRequests owns headers ⟨[], isOpen, drafts⟩ hids hturn hserves
    { flowId := flowId }

/-- A flow that the command line takes can be deployed, under any settings. If the broker grants the
ids of a list in turn, whatever becomes of the rules, this posts the rules that the command line
shows for the list, or both fail alike. -/
theorem rulesField_eq_deploy (hplan : (ofFlow settings flow flowId service).outcome = .ok plan)
    (settings' : Settings) (service' : Option String) {ids : List String}
    (hids : ∀ id ∈ ids, CommandLine.IsPlainId id) {target : Settings}
    {answer : List Message → Message → Reply} (hturn : GrantsInTurn target ids answer)
    (owns isOpen : Bool) (headers : Headers) :
    ∃ plan', (ofFlow settings' flow flowId service').outcome = .ok plan' ∧
      (CommandLine.rulesField plan (Text.joinWith "," ids)).outcome =
        (Dispatcher.postedRules target (Dispatcher.deploy ⟨target, .recording answer, owns⟩
          plan'.flowId plan'.requests headers ⟨[], isOpen, plan'.drafts⟩)).map
          fun rules => [("rules", .list rules)] := by
  have hplan' := outcome_ofFlow_readdress settings settings' flow flowId service service'
  rw [hplan] at hplan'
  refine ⟨_, hplan', ?_⟩
  rw [postedRules_deploy hplan' hids hturn, outcome_releaseAll_ofFlow hplan hplan',
    CommandLine.outcome_rulesField, CommandLine.splitIds_joinWith hids]
  cases (Gate.releaseAll (plan.requests.zip ids) plan.drafts).outcome <;> rfl

/-- The broker grants the ids of a list in turn, and the rule engine cannot be reached. -/
def repliesInTurn (ids : List String) (messages : List Message) : Message → Reply
  | .post url _ _ =>
    if url = ({} : Settings).subscriptions then
      match ids[(bodiesFor ({} : Settings).subscriptions messages).length]? with
      | some id => .answered 201 [("Location", "/v2/subscriptions/" ++ id)] ""
      | none => .answered 503 [] ""
    else .failed "connection refused"
  | .delete .. => .failed "connection refused"

theorem grantsInTurn_repliesInTurn (ids : List String) :
    GrantsInTurn {} ids (repliesInTurn ids) where
  granted messages body headers id hid := by
    have hget : Headers.get? [("Location", "/v2/subscriptions/" ++ id)] "location" =
        some ("/v2/subscriptions/" ++ id) := by
      simp [Headers.get?, Headers.values, Text.joinWith_singleton]
    refine ⟨_, _, _, by rw [repliesInTurn, if_pos rfl, hid], hget, "/v2/subscriptions/".toList, [],
      ?_, .inr rfl, by simp⟩
    rw [String.toList_append, List.append_nil]
  refused messages body headers hid := by
    rw [repliesInTurn, if_pos rfl, hid]
    simp [Reply.status?]

theorem rulesField_eq_deploy_risingFlow :
    (ofFlow {} risingFlow (.text "f") none).outcome = .ok rising ∧
    (CommandLine.rulesField rising "a,b").outcome = .ok [("rules", .list [risingRule])] ∧
    ∃ plan', (ofFlow { history := "h" } risingFlow (.text "f") (some "t")).outcome =
        .ok plan' ∧
      Dispatcher.postedRules {} (Dispatcher.deploy
        ⟨{}, .recording (repliesInTurn ["a", "b"]), true⟩ plan'.flowId plan'.requests []
        ⟨[], false, plan'.drafts⟩) = .ok [risingRule] := by
  have hids : ∀ id ∈ ["a", "b"], CommandLine.IsPlainId id := by decide
  have hrules : (CommandLine.rulesField rising "a,b").outcome =
      .ok [("rules", .list [risingRule])] := by
    with_unfolding_all rfl
  obtain ⟨plan', hplan', heq⟩ := rulesField_eq_deploy ofFlow_risingFlow { history := "h" }
    (some "t") hids (grantsInTurn_repliesInTurn ["a", "b"]) true false []
  refine ⟨ofFlow_risingFlow, hrules, plan', hplan', ?_⟩
  have hposted := heq.symm.trans hrules
  cases hrun : Dispatcher.postedRules {} (Dispatcher.deploy
      ⟨{}, .recording (repliesInTurn ["a", "b"]), true⟩ plan'.flowId plan'.requests []
      ⟨[], false, plan'.drafts⟩) with
  | error e =>
      rw [hrun] at hposted
      cases hposted
  | ok rules =>
      rw [hrun] at hposted
      cases hposted
      rfl

end Plan

end EventFlow
