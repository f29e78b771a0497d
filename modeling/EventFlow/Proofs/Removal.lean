import EventFlow.Proofs.Accounts
import EventFlow.Proofs.Numbering
import Mathlib.Logic.Function.Basic

/-!
Removing what a deployment has made.

The broker and the rule engine are known by what they store. If they store nothing that they do not
confirm, a deployment makes their stores grow by the entries that its result names, none of which
was there before (`grown_deploy`). Deleting the entries one by one then takes the stores back to
what they were.
-/

namespace EventFlow

/-! ### What the other end stores -/

/-- What is stored at the other end: subscriptions under their ids, and rules under their names. -/
inductive Entry where
  | subscription (id : String)
  | rule (name : String)
deriving DecidableEq

abbrev Stores := Entry → Option Value

def Entry.url (settings : Settings) : Entry → String
  | .subscription id => settings.subscriptions ++ "/" ++ id
  | .rule name => settings.rules ++ "/" ++ name

def Reply.status? : Reply → Option Int
  | .failed _ => none
  | .answered status _ _ => some status

/-- The last segment of a location, which slashes may follow. -/
def Text.IsLastSegment (segment location : String) : Prop :=
  ∃ front slashes, location.toList = front ++ segment.toList ++ slashes ∧
    (front = [] ∨ front.getLast? = some '/') ∧ ∀ c ∈ slashes, c = '/'

/-- The other end keeps what it confirms, for the given headers: a subscription under a new id,
whose location it tells, and a rule under its name. What it does not confirm it does not store. An
entry that is stored can be deleted at its address. -/
structure Client.Keeps {κ : Type} (client : Client κ) (settings : Settings) (headers : Headers)
    (stores : κ → Stores) : Prop where
  connect : ∀ limit peer, stores (client.connect limit peer) = stores peer
  subscription : ∀ body peer,
    let result := client.send (.post settings.subscriptions body headers) peer
    (stores result.2 = stores peer ∧ result.1.status? ≠ some 201) ∨
    ∃ id answerHeaders text location, id ≠ "" ∧ '/' ∉ id.toList ∧
      stores peer (.subscription id) = none ∧
      stores result.2 = Function.update (stores peer) (.subscription id) (some body) ∧
      result.1 = .answered 201 answerHeaders text ∧
      Headers.get? answerHeaders "location" = some location ∧ Text.IsLastSegment id location
  rule : ∀ (r : Rule) peer,
    let result := client.send (.post settings.rules r.payload headers) peer
    (stores result.2 = stores peer ∧ result.1.status? ≠ some 200 ∧ result.1.status? ≠ some 201) ∨
    (stores result.2 = Function.update (stores peer) (.rule r.name) (some r.payload) ∧
      (result.1.status? = some 200 ∨ result.1.status? = some 201))
  delete : ∀ entry peer, stores peer entry ≠ none →
    let result := client.send (.delete (entry.url settings) headers) peer
    stores result.2 = Function.update (stores peer) entry none ∧
      ∃ status, result.1.status? = some status ∧ status < 400

/-- The id of a subscription is read off its location. -/
theorem subscriptionId?_eq_some {headers : Headers} {id location : String}
    (hget : Headers.get? headers "location" = some location)
    (h : Text.IsLastSegment id location) (hid : id ≠ "") (hslash : '/' ∉ id.toList) :
    subscriptionId? headers = some id := by
  obtain ⟨front, slashes, hlocation, hfront, hslashes⟩ := h
  have hnil : id.toList ≠ [] := by simpa using hid
  have hplain : ∀ c ∈ id.toList.reverse, (c != '/') = true := by
    intro c hc
    have hmem := List.mem_reverse.1 hc
    exact bne_iff_ne.2 fun h => hslash (h ▸ hmem)
  have hcut : Text.dropEndWhile (· == '/') location.toList = front ++ id.toList := by
    have hdrop : (slashes.reverse ++ (id.toList.reverse ++ front.reverse)).dropWhile (· == '/') =
        id.toList.reverse ++ front.reverse := by
      refine (Text.span_append (by simpa using hslashes) fun c hc => ?_).2
      rw [List.head?_append_of_ne_nil _ (by simpa using hnil)] at hc
      simpa using hplain c (List.mem_of_mem_head? hc)
    rw [Text.dropEndWhile, hlocation, List.reverse_append, List.reverse_append, hdrop]
    simp
  have hafter : Text.afterLast '/' (front ++ id.toList) = id.toList :=
    Text.afterLast_append hfront hslash
  rw [subscriptionId?, hget, Option.getD_some, hcut, hafter]
  split
  · next heq => exact absurd heq hnil
  · rw [String.ofList_toList]

theorem Reply.granted?_eq_none {reply : Reply} (h : reply.status? ≠ some 201) :
    reply.granted? = none := by
  cases reply with
  | failed reason => rfl
  | answered status headers text => exact if_neg fun hstatus => h (congrArg some hstatus)

theorem Reply.isTaken_iff {reply : Reply} :
    reply.isTaken = true ↔ reply.status? = some 200 ∨ reply.status? = some 201 := by
  cases reply <;> simp [isTaken, status?]

/-! ### Stores that grow -/

/-- The store after some entries were added, in the places of none. -/
structure Stores.Grown (before after : Stores) (entries : List Entry) : Prop where
  nodup : entries.Nodup
  fresh : ∀ entry ∈ entries, before entry = none
  stored : ∀ entry ∈ entries, after entry ≠ none
  same : ∀ entry, entry ∉ entries → after entry = before entry

namespace Stores.Grown

variable {before after : Stores} {entries : List Entry} {entry : Entry}

theorem refl (before : Stores) : Grown before before [] :=
  ⟨.nil, by simp, by simp, fun _ _ => rfl⟩

theorem perm {entries' : List Entry} (h : Grown before after entries)
    (hperm : entries.Perm entries') : Grown before after entries' where
  nodup := hperm.nodup_iff.1 h.nodup
  fresh entry hentry := h.fresh entry (hperm.mem_iff.2 hentry)
  stored entry hentry := h.stored entry (hperm.mem_iff.2 hentry)
  same entry hentry := h.same entry (mt hperm.mem_iff.1 hentry)

theorem eq_of_nil (h : Grown before after []) : after = before := by
  funext entry
  exact h.same entry (by simp)

/-- An entry is added where there is none. -/
theorem add (h : Grown before after entries) (hentry : after entry = none) (v : Value) :
    Grown before (Function.update after entry (some v)) (entries ++ [entry]) := by
  have hnew : entry ∉ entries := fun hmem => h.stored entry hmem hentry
  have hbefore : before entry = none := h.same entry hnew ▸ hentry
  refine ⟨?_, ?_, ?_, ?_⟩
  · rw [List.nodup_append]
    refine ⟨h.nodup, by simp, fun a ha b hb hab => ?_⟩
    obtain rfl := List.mem_singleton.1 hb
    exact hnew (hab ▸ ha)
  · intro e he
    obtain he | he := List.mem_append.1 he
    · exact h.fresh e he
    · rwa [List.mem_singleton.1 he]
  · intro e he
    by_cases heq : e = entry
    · rw [heq, Function.update_self]
      simp
    · rw [Function.update_of_ne heq]
      refine h.stored e ?_
      simpa [heq] using he
  · intro e he
    simp only [List.mem_append, List.mem_singleton, not_or] at he
    rw [Function.update_of_ne he.2]
    exact h.same e he.1

/-- An entry that was added is deleted. -/
theorem delete (h : Grown before after (entry :: entries)) :
    Grown before (Function.update after entry none) entries := by
  obtain ⟨hentry, hnodup⟩ := List.nodup_cons.1 h.nodup
  refine ⟨hnodup, fun e he => h.fresh e (.tail _ he), fun e he => ?_, fun e he => ?_⟩
  · have hne : e ≠ entry := fun heq => hentry (heq ▸ he)
    rw [Function.update_of_ne hne]
    exact h.stored e (.tail _ he)
  · by_cases heq : e = entry
    · rw [heq, Function.update_self, h.fresh entry (.head _)]
    · rw [Function.update_of_ne heq]
      exact h.same e (by simp [heq, he])

end Stores.Grown

/-! ### Deploying -/

def Post.made? (post : Post) : Option Entry :=
  (post.id?.map .subscription).or (post.ruleName?.map .rule)

theorem Post.ruleName?_of_made? {post : Post} {name : String}
    (h : post.made? = some (.rule name)) : post.ruleName? = some name := by
  rw [made?, Option.or_eq_some_iff] at h
  obtain h | ⟨-, h⟩ := h
  · simp at h
  · simpa using h

theorem filterMap_cons_eq_append {α β : Type} (f : α → Option β) (a : α) (l : List α) :
    (a :: l).filterMap f = (f a).toList ++ l.filterMap f := by
  cases h : f a <;> simp [h]

namespace Dispatcher

variable {κ : Type} {x : Dispatcher κ} {headers : Headers} {stores : κ → Stores} {before : Stores}
  {made : List Entry} {line last : κ × Bool}

/-- A message finds the stores as they are, whether or not a connection is opened for it. -/
theorem exists_exchange_eq (hkeeps : x.client.Keeps x.settings headers stores) (message : Message)
    (line : κ × Bool) : ∃ peer, stores peer = stores line.1 ∧
      (x.exchange message line).1 = (x.client.send message peer).1 ∧
      (x.exchange message line).2.1 = (x.client.send message peer).2 := by
  refine ⟨_, ?_, rfl, rfl⟩
  split
  · exact hkeeps.connect _ _
  · rfl

/-- What a post does to the stores is what its entry says. -/
theorem grown_post (hkeeps : x.client.Keeps x.settings headers stores) {post : Post}
    (hreply : post.reply = (x.exchange (post.message x.settings headers) line).1)
    (hgrown : Stores.Grown before (stores line.1) made)
    (hrule : ∀ name, post.ruleName? = some name → stores line.1 (.rule name) = none) :
    Stores.Grown before (stores (x.exchange (post.message x.settings headers) line).2.1)
      (made ++ post.made?.toList) := by
  obtain ⟨peer, hpeer, hsent, hafter⟩ :=
    exists_exchange_eq hkeeps (post.message x.settings headers) line
  rw [hsent] at hreply
  rw [← hpeer] at hgrown hrule
  rw [hafter]
  cases post with
  | subscription q reply =>
      change reply = (x.client.send (.post x.settings.subscriptions _ headers) peer).1 at hreply
      have hentry : Post.made? (.subscription q reply) = reply.granted?.map .subscription := by
        rw [Post.made?, Post.id?, Post.ruleName?, Option.map_none, Option.or_none]
      rw [Post.message, hentry]
      obtain ⟨hsame, hstatus⟩ | ⟨id, answerHeaders, text, location, hid, hslash, hnew, hstored,
        hanswer, hget, hlast⟩ := hkeeps.subscription q.subscription.payload peer
      · rw [hsame, Reply.granted?_eq_none (hreply ▸ hstatus)]
        simpa using hgrown
      · have hgranted : reply.granted? = some id := by
          rw [hreply, hanswer, Reply.granted?, if_pos rfl,
            subscriptionId?_eq_some hget hlast hid hslash]
        rw [hstored, hgranted]
        exact hgrown.add hnew _
  | rule r reply =>
      change reply = (x.client.send (.post x.settings.rules r.payload headers) peer).1 at hreply
      have hentry : Post.made? (.rule r reply) =
          if reply.isTaken then some (.rule r.name) else none := by
        rw [Post.made?, Post.id?, Post.ruleName?, Option.map_none, Option.none_or]
        split <;> rfl
      rw [Post.message, hentry]
      obtain ⟨hsame, hrefused⟩ | ⟨hstored, htaken⟩ := hkeeps.rule r peer
      · have hrefused : reply.isTaken ≠ true := by
          rw [ne_eq, Reply.isTaken_iff, hreply, not_or]
          exact hrefused
        rw [hsame, if_neg hrefused]
        simpa using hgrown
      · have htaken : reply.isTaken = true := by
          rw [Reply.isTaken_iff, hreply]
          exact htaken
        rw [hstored, if_pos htaken]
        exact hgrown.add (hrule r.name (if_pos htaken)) _

/-- What a talk does to the stores is what its posts have made, if no rule is posted under a name
that is taken. -/
theorem grown_talk (hkeeps : x.client.Keeps x.settings headers stores) {posts : List Post}
    (htalk : x.Talk line (posts.map fun post => (post.message x.settings headers, post.reply)) last)
    (hgrown : Stores.Grown before (stores line.1) made)
    (hnodup : (posts.filterMap Post.ruleName?).Nodup)
    (hfresh : ∀ name ∈ posts.filterMap Post.ruleName?, stores line.1 (.rule name) = none) :
    Stores.Grown before (stores last.1) (made ++ posts.filterMap Post.made?) := by
  induction posts generalizing line made with
  | nil =>
      cases htalk
      simpa using hgrown
  | cons post posts ih =>
      generalize hrecord : (post :: posts).map
        (fun post => (post.message x.settings headers, post.reply)) = record at htalk
      cases htalk with
      | nil => cases hrecord
      | cons message hrest =>
          rw [List.map_cons, List.cons.injEq, Prod.mk.injEq] at hrecord
          obtain ⟨⟨rfl, hreply⟩, rfl⟩ := hrecord
          rw [filterMap_cons_eq_append] at hnodup hfresh ⊢
          obtain ⟨-, hnodup, hapart⟩ := List.nodup_append.1 hnodup
          obtain ⟨hfirst, hfresh⟩ := List.forall_mem_append.1 hfresh
          have hpost := grown_post hkeeps hreply hgrown fun name hname =>
            hfirst name (by rw [hname]; exact List.mem_singleton_self name)
          rw [← List.append_assoc]
          refine ih hrest hpost hnodup fun name hname => ?_
          -- The rule that was posted has another name, so nothing has changed under this one.
          have hmade : .rule name ∉ made := fun hmem =>
            hgrown.stored _ hmem (hfresh name hname)
          have hentry : .rule name ∉ post.made?.toList := fun hmem =>
            hapart name (Option.mem_toList.2 (Post.ruleName?_of_made? (Option.mem_toList.1 hmem)))
              name hname rfl
          rw [hpost.same _ fun hmem => (List.mem_append.1 hmem).elim hmade hentry,
            ← hgrown.same _ hmade]
          exact hfresh name hname

end Dispatcher

def Deployment.entries (d : Deployment) : List Entry :=
  d.ruleNames.map .rule ++ d.subscriptionIds.map .subscription

theorem perm_entries (posts : List Post) :
    (posts.filterMap Post.made?).Perm
      ((posts.filterMap Post.ruleName?).map .rule ++
        (posts.filterMap Post.id?).map .subscription) := by
  induction posts with
  | nil => exact .nil
  | cons post posts ih =>
      simp only [filterMap_cons_eq_append, List.map_append]
      cases post with
      | subscription q reply =>
          cases hid : reply.granted? with
          | none => simpa [Post.made?, Post.ruleName?, Post.id?, hid] using ih
          | some id =>
              -- The rules are listed first, so the subscription goes in behind all of them.
              have hmiddle := (ih.cons (.subscription id)).trans List.perm_middle.symm
              simpa [Post.made?, Post.ruleName?, Post.id?, hid] using hmiddle
      | rule r reply =>
          by_cases htaken : reply.isTaken = true
          · simpa [Post.made?, Post.ruleName?, Post.id?, htaken] using ih
          · simpa [Post.made?, Post.ruleName?, Post.id?, htaken] using ih

namespace Plan

variable {settings : Settings} {flow flowId : Value} {service : Option String} {plan : Plan}

/-- The rules that were taken have the names of their drafts. -/
theorem sublist_names {places : List (Draft × Nat)} {receipts : List Receipt}
    (h : List.Forall₂ (fun place receipt => Receipt.Settles receipt place.1 place.2) places
      receipts) :
    ((receipts.flatMap Receipt.posts).filterMap Post.ruleName?).Sublist
      (places.map fun place => place.1.name) := by
  induction h with
  | nil => exact .slnil
  | @cons place receipt places receipts hreceipt _ ih =>
      have hfirst : (receipt.posts.filterMap Post.ruleName?).Sublist [place.1.name] := by
        have hanswers : (receipt.answers.map fun answer =>
            Post.subscription answer.1 answer.2).filterMap Post.ruleName? = [] := by
          simp [List.filterMap_map, Post.ruleName?]
        rw [Receipt.posts, List.filterMap_append, hanswers, List.nil_append]
        cases hsent : receipt.sent with
        | none => exact List.nil_sublist _
        | some sent =>
            obtain ⟨-, -, hname, -⟩ := hreceipt.text sent.1 (by rw [hsent]; rfl)
            by_cases htaken : sent.2.isTaken = true
            · simp [Post.ruleName?, htaken, hname]
            · simp [Post.ruleName?, htaken]
      rw [List.flatMap_cons, List.filterMap_append, List.map_cons]
      exact hfirst.append ih

/-- A deployment that ends with a result makes the stores grow by what the result names. -/
theorem grown_deploy (hplan : (ofFlow settings flow flowId service).outcome = .ok plan) {κ : Type}
    {x : Dispatcher κ} {headers : Headers} {stores : κ → Stores}
    (hkeeps : x.client.Keeps x.settings headers stores) {peer : κ} {isOpen : Bool}
    (hfresh : ∀ d ∈ plan.drafts, stores peer (.rule d.name) = none) {result : Deployment}
    (hresult : (x.deploy plan.flowId plan.requests headers ⟨peer, isOpen, plan.drafts⟩).outcome =
      .ok result) :
    Stores.Grown (stores peer)
      (stores (x.deploy plan.flowId plan.requests headers ⟨peer, isOpen, plan.drafts⟩).state.peer)
      result.entries := by
  obtain ⟨before, after, receipts, left, hsplit, hreceipts, hend⟩ :=
    conducts_deploy hplan x headers peer isOpen
  obtain ⟨rfl, hend⟩ | ⟨_, _, _, failure, -, hend⟩ := hend
  · -- No draft is left over: there is a receipt for each.
    rw [List.append_nil] at hsplit
    have hresult : result = (receipts.flatMap Receipt.posts).foldl
        (Deployment.record (plan.drafts.map Draft.name)) { flowId := plan.flowId } :=
      Except.ok.inj (hresult.symm.trans hend.outcome)
    rw [Deployment.foldl_record] at hresult
    have hnames : ((receipts.flatMap Receipt.posts).filterMap Post.ruleName?).Sublist
        (plan.drafts.map Draft.name) := by
      have hnames : before.zipIdx.map (fun place => place.1.name) = before.map Draft.name := by
        conv_rhs => rw [← List.zipIdx_map_fst 0 before, List.map_map]
        rfl
      rw [hsplit, ← hnames]
      exact sublist_names hreceipts
    have hgrown := Dispatcher.grown_talk hkeeps hend.talk (.refl (stores peer))
      (hnames.nodup (nodup_names hplan)) fun name hname => by
        obtain ⟨d, hd, rfl⟩ := List.mem_map.1 (hnames.subset hname)
        exact hfresh d hd
    rw [hresult]
    exact hgrown.perm (perm_entries _)
  · rw [hend.outcome] at hresult
    cases hresult

end Plan

/-! ### Removing -/

namespace Dispatcher

variable {κ : Type} {x : Dispatcher κ} {headers : Headers} {stores : κ → Stores} {before : Stores}

theorem delete_eq (hkeeps : x.client.Keeps x.settings headers stores) {entry : Entry}
    {s : Session κ} (h : stores s.peer entry ≠ none) :
    (x.delete headers (entry.url x.settings) s).outcome = .ok none ∧
      stores (x.delete headers (entry.url x.settings) s).state.peer =
        Function.update (stores s.peer) entry none := by
  obtain ⟨peer, hpeer, hsent, hafter⟩ :=
    exists_exchange_eq hkeeps (.delete (entry.url x.settings) headers) s.line
  obtain ⟨hstores, status, hstatus, hlt⟩ := hkeeps.delete entry peer (by rwa [hpeer])
  rw [← hsent] at hstatus
  rw [← hafter, hpeer] at hstores
  have hsend := x.send_eq (.delete (entry.url x.settings) headers) s
  cases hreply : (x.exchange (.delete (entry.url x.settings) headers) s.line).1 with
  | failed reason =>
      rw [hreply] at hstatus
      cases hstatus
  | answered answered answerHeaders text =>
      rw [hreply] at hstatus hsend
      cases hstatus
      have hlow : ¬ (status ≥ 400 ∧ status ≠ 404) := by omega
      simp only [delete, bind, Run.bind, hsend, if_neg hlow]
      exact ⟨rfl, hstores⟩

/-- Deleting all entries that were added takes the stores back. -/
theorem each_delete_eq (hkeeps : x.client.Keeps x.settings headers stores) {entries : List Entry}
    {s : Session κ} (hgrown : Stores.Grown before (stores s.peer) entries) :
    (Run.each (entries.map (Entry.url x.settings)) (x.delete headers) s).outcome =
        .ok (entries.map fun _ => none) ∧
      stores (Run.each (entries.map (Entry.url x.settings)) (x.delete headers) s).state.peer =
        before := by
  induction entries generalizing s with
  | nil => exact ⟨rfl, hgrown.eq_of_nil⟩
  | cons entry entries ih =>
      obtain ⟨hout, hstores⟩ := delete_eq hkeeps (hgrown.stored entry (.head _))
      obtain ⟨hrest, hback⟩ := ih (hstores ▸ hgrown.delete)
      rw [List.map_cons, Run.each]
      obtain ⟨hs, ho⟩ := Run.bind_of_ok (fun y => do
        let ys ← Run.each (entries.map (Entry.url x.settings)) (x.delete headers)
        return y :: ys) hout
      obtain ⟨hs', ho'⟩ := Run.bind_of_ok (fun ys => Pure.pure (none :: ys)) hrest
      rw [hs, ho, hs', ho']
      exact ⟨rfl, hback⟩

theorem remove_eq (hkeeps : x.client.Keeps x.settings headers stores) {result : Deployment}
    {s : Session κ} (hgrown : Stores.Grown before (stores s.peer) result.entries) :
    (x.remove result.ruleNames result.subscriptionIds headers s).outcome = .ok [] ∧
      stores (x.remove result.ruleNames result.subscriptionIds headers s).state.peer = before := by
  obtain ⟨hout, hstores⟩ := each_delete_eq hkeeps hgrown
  have htargets : result.entries.map (Entry.url x.settings) =
      result.ruleNames.map (x.settings.rules ++ "/" ++ ·) ++
        result.subscriptionIds.map (x.settings.subscriptions ++ "/" ++ ·) := by
    rw [Deployment.entries, List.map_append, List.map_map, List.map_map]
    rfl
  have hnone : (result.entries.map fun _ => (none : Option String)).filterMap id = [] := by
    simp [List.filterMap_map]
  rw [htargets] at hout hstores
  obtain ⟨hs, ho⟩ := Run.bind_of_ok (fun outcomes : List (Option String) => do
    let errors := outcomes.filterMap id
    let _ ← Run.each errors fun e => (Run.error e : Step κ Unit)
    return errors) hout
  rw [hnone] at hs ho
  exact ⟨ho, hs ▸ hstores⟩

end Dispatcher

namespace Plan

/-- What a deployment has made can be removed. If the other end keeps what it confirms, and no rule
is stored under a name of a draft, then removing what the result of a deployment names gives no
errors and leaves the stores as they were before the deployment, whatever has failed in it. -/
theorem remove_undoes_deploy {settings : Settings} {flow flowId : Value} {service : Option String}
    {plan : Plan} (hplan : (ofFlow settings flow flowId service).outcome = .ok plan) {κ : Type}
    (x : Dispatcher κ) (headers : Headers) (stores : κ → Stores)
    (hkeeps : x.client.Keeps x.settings headers stores) (peer : κ) (isOpen : Bool)
    (hfresh : ∀ d ∈ plan.drafts, stores peer (.rule d.name) = none) {result : Deployment}
    (hresult : (x.deploy plan.flowId plan.requests headers ⟨peer, isOpen, plan.drafts⟩).outcome =
      .ok result)
    (s : Session κ)
    (hs : stores s.peer = stores
      (x.deploy plan.flowId plan.requests headers ⟨peer, isOpen, plan.drafts⟩).state.peer) :
    (x.remove result.ruleNames result.subscriptionIds headers s).outcome = .ok [] ∧
      stores (x.remove result.ruleNames result.subscriptionIds headers s).state.peer =
        stores peer := by
  have hgrown := grown_deploy hplan hkeeps hfresh hresult
  rw [← hs] at hgrown
  exact Dispatcher.remove_eq hkeeps hgrown

end Plan

/-! ### A broker and a rule engine that keep what they confirm -/

/-- What is stored, and the ids for the subscriptions to come; where there is none, the broker
cannot be reached. -/
structure Depot where
  stores : Stores
  ids : List (Option String)

namespace Depot

def subscribe (body : Value) (d : Depot) : Reply × Depot :=
  match d.ids with
  | [] => (.answered 503 [] "", d)
  | none :: ids => (.failed "timed out", { d with ids := ids })
  | some id :: ids =>
    if id ≠ "" ∧ '/' ∉ id.toList ∧ (d.stores (.subscription id)).isNone then
      (.answered 201 [("Location", "/v2/subscriptions/" ++ id)] "",
        ⟨Function.update d.stores (.subscription id) (some body), ids⟩)
    else (.answered 409 [] "", { d with ids := ids })

def takeRule (body : Value) (d : Depot) : Reply × Depot :=
  match body with
  | .object (("name", .text name) :: _) =>
    (.answered 200 [] "", { d with stores := Function.update d.stores (.rule name) (some body) })
  | _ => (.answered 400 [] "", d)

def entryAt? (settings : Settings) (url : String) : Option Entry :=
  ((Token.dropWord? (settings.subscriptions ++ "/").toList url.toList).map fun id =>
    Entry.subscription (String.ofList id)).or
  ((Token.dropWord? (settings.rules ++ "/").toList url.toList).map fun name =>
    Entry.rule (String.ofList name))

def drop (settings : Settings) (url : String) (d : Depot) : Reply × Depot :=
  match entryAt? settings url with
  | none => (.answered 404 [] "", d)
  | some entry => (.answered 204 [] "", { d with stores := Function.update d.stores entry none })

def client (settings : Settings) : Client Depot where
  connect _ d := d
  send
    | .post url body _, d =>
      if url = settings.subscriptions then d.subscribe body else d.takeRule body
    | .delete url _, d => d.drop settings url
  disconnect d := d

theorem dropWord?_append (word rest : List Char) :
    Token.dropWord? word (word ++ rest) = some rest := by
  induction word with
  | nil => rfl
  | cons c word ih => rw [List.cons_append, Token.dropWord?, if_pos rfl, ih]

theorem entryAt?_url (entry : Entry) : entryAt? {} (entry.url {}) = some entry := by
  cases entry with
  | subscription id =>
      have hurl : (Entry.url {} (.subscription id)).toList =
          (({} : Settings).subscriptions ++ "/").toList ++ id.toList := String.toList_append
      rw [entryAt?, hurl, dropWord?_append, Option.map_some, Option.some_or, String.ofList_toList]
  | rule name =>
      have hother : Token.dropWord? (({} : Settings).subscriptions ++ "/").toList
          ((({} : Settings).rules ++ "/").toList ++ name.toList) = none := rfl
      have hurl : (Entry.url {} (.rule name)).toList =
          (({} : Settings).rules ++ "/").toList ++ name.toList := String.toList_append
      rw [entryAt?, hurl, hother, dropWord?_append, Option.map_none, Option.none_or,
        Option.map_some, String.ofList_toList]

theorem keeps_client (headers : Headers) : (client {}).Keeps {} headers stores where
  connect _ _ := rfl
  subscription body d := by
    have hsend : (client {}).send (.post ({} : Settings).subscriptions body headers) d =
        d.subscribe body := by
      simp [client]
    simp only [hsend]
    rw [subscribe]
    split
    · exact .inl ⟨rfl, by simp [Reply.status?]⟩
    · exact .inl ⟨rfl, by simp [Reply.status?]⟩
    · split
      · next id ids _ h =>
          have hget : Headers.get? [("Location", "/v2/subscriptions/" ++ id)] "location" =
              some ("/v2/subscriptions/" ++ id) := by
            simp [Headers.get?, Headers.values, Text.joinWith_singleton]
          refine .inr ⟨id, _, _, _, h.1, h.2.1, Option.isNone_iff_eq_none.1 h.2.2, rfl, rfl, hget,
            "/v2/subscriptions/".toList, [], ?_, .inr rfl, nofun⟩
          rw [String.toList_append, List.append_nil]
      · exact .inl ⟨rfl, by simp [Reply.status?]⟩
  rule r d := by
    have hsend : (client {}).send (.post ({} : Settings).rules r.payload headers) d =
        d.takeRule r.payload := by
      simp [client, Settings.rules, Settings.subscriptions]
    simp only [hsend]
    exact .inr ⟨rfl, .inl rfl⟩
  delete entry d _ := by
    have hsend : (client {}).send (.delete (entry.url {}) headers) d =
        (.answered 204 [] "", { d with stores := Function.update d.stores entry none }) := by
      change d.drop {} (entry.url {}) = _
      rw [drop, entryAt?_url]
    simp only [hsend]
    exact ⟨trivial, 204, rfl, by decide⟩

end Depot

namespace Plan

/-- A depot that holds a rule already, and whose broker cannot be reached the second time. -/
def busyDepot : Depot :=
  ⟨Function.update (fun _ => none) (.rule "other") (some .null), [some "a", none, some "b"]⟩

def busyDispatcher : Dispatcher Depot :=
  ⟨{}, Depot.client {}, true⟩

set_option maxRecDepth 2000 in
theorem deploy_busyDepot :
    (busyDispatcher.deploy rising.flowId rising.requests []
      ⟨busyDepot, false, rising.drafts⟩).outcome = .ok risingDeployment := rfl

theorem remove_undoes_deploy_risingFlow :
    let deployed := busyDispatcher.deploy rising.flowId rising.requests []
      ⟨busyDepot, false, rising.drafts⟩
    let removed := busyDispatcher.remove ["rule_f_1"] ["a", "b"] [] deployed.state
    (ofFlow {} risingFlow (.text "f") none).outcome = .ok rising ∧
      deployed.outcome = .ok risingDeployment ∧
      removed.outcome = .ok [] ∧ removed.state.peer.stores = busyDepot.stores := by
  have hfresh : ∀ d ∈ rising.drafts, busyDepot.stores (.rule d.name) = none := by
    simp [rising, risingDrafts, busyDepot]
  exact ⟨ofFlow_risingFlow, deploy_busyDepot,
    remove_undoes_deploy ofFlow_risingFlow busyDispatcher [] Depot.stores (Depot.keeps_client [])
      busyDepot false hfresh deploy_busyDepot _ rfl⟩

end Plan

end EventFlow
