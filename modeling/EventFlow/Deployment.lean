import EventFlow.Plan
import EventFlow.Rule

/-!
Deploying a plan: every subscription is requested from the broker, every id goes through the
gate, and every rule the gate releases is sent to the rule engine. Calls that fail are noted in the
result and nothing is tried again.

The HTTP client is taken as its user sees it: messages go out, replies come back, and whatever is at
the other end has a state of its own.
-/

namespace EventFlow

/-! ### The client -/

abbrev Headers := Fields String

namespace Headers

/-- The values under a name, in any case of its letters. -/
def values (headers : Headers) (name : String) : List String :=
  let lower := fun s : String => s.toList.map Char.toLower
  (headers.filter fun h => lower h.1 == lower name).map Prod.snd

def first? (headers : Headers) (name : String) : Option String :=
  (headers.values name).head?

def get? (headers : Headers) (name : String) : Option String :=
  match headers.values name with
  | [] => none
  | found => some (Text.joinWith ", " found)

end Headers

inductive Message where
  | post (url : String) (body : Value) (headers : Headers)
  | delete (url : String) (headers : Headers)

inductive Reply where
  /-- The transport failed. -/
  | failed (reason : String)
  | answered (status : Int) (headers : Headers) (text : String)

/-- A client for an other end with states `κ`. -/
structure Client (κ : Type) where
  /-- Opens a connection with a time limit. -/
  connect : Number → κ → κ
  send : Message → κ → Reply × κ
  disconnect : κ → κ

/-! ### Calls -/

def tenantHeaders (service path : Option String) : Headers :=
  match service with
  | none | some "" => []
  | some service =>
    let path := path.getD ""
    [("Fiware-Service", service), ("Fiware-ServicePath", if path = "" then "/" else path)]

/-- The id of a new subscription: the last segment of its location. -/
def subscriptionId? (headers : Headers) : Option String :=
  let location := (Headers.get? headers "location").getD ""
  match Text.afterLast '/' (Text.dropEndWhile (· == '/') location.toList) with
  | [] => none
  | id => some (String.ofList id)

structure Deployment where
  flowId : Value
  subscriptionIds : List String := []
  ruleNames : List String := []
  errors : List String := []

namespace Deployment

def isOk (d : Deployment) : Bool :=
  d.errors.isEmpty

def addError (d : Deployment) (text : String) : Deployment :=
  { d with errors := d.errors ++ [text] }

def addSubscription (d : Deployment) (id : String) : Deployment :=
  { d with subscriptionIds := d.subscriptionIds ++ [id] }

def addRule (d : Deployment) (name : String) : Deployment :=
  { d with ruleNames := d.ruleNames ++ [name] }

end Deployment

/-- What sends the messages. A dispatcher that owns its connection opens it for the first message
and closes it when told to. -/
structure Dispatcher (κ : Type) where
  settings : Settings
  client : Client κ
  ownsConnection : Bool

structure Session (κ : Type) where
  peer : κ
  isOpen : Bool := false
  drafts : List Draft

namespace Dispatcher

variable {κ : Type}

abbrev Step (κ α : Type) := Run (Session κ) Failure α

def send (x : Dispatcher κ) (message : Message) : Step κ Reply :=
  fun session =>
    let peer :=
      if x.ownsConnection && !session.isOpen then
        x.client.connect x.settings.timeout session.peer
      else session.peer
    let result := x.client.send message peer
    ⟨{ session with peer := result.2, isOpen := x.ownsConnection }, [], .ok result.1⟩

def close (x : Dispatcher κ) : Step κ Unit :=
  Run.modify fun session =>
    if session.isOpen then
      { session with peer := x.client.disconnect session.peer, isOpen := false }
    else session

def onDraft {α : Type} (index : Nat) (x : Run Draft Failure α) : Step κ α :=
  Run.zoom Session.drafts (fun drafts session => { session with drafts := drafts })
    (Gate.onDraft index x)

def draftName (index : Nat) : Step κ String := do
  return ((← Run.get).drafts.getD index {}).name

def statusText (status : Int) : String :=
  "HTTP " ++ String.ofList (Text.intDigits status)

def createSubscription (x : Dispatcher κ) (headers : Headers) (request : Request) :
    Step κ (Except String String) := do
  let name ← draftName request.draft
  match ← x.send (.post x.settings.subscriptions request.subscription.payload headers) with
  | .failed reason =>
    Run.error ("Subscription for draft '" ++ name ++ "' failed: " ++ reason)
    return .error ("subscription for " ++ name ++ ": " ++ reason)
  | .answered status answerHeaders text =>
    if status ≠ 201 then
      Run.error ("Broker rejected subscription for '" ++ name ++ "': " ++ statusText status ++
        ": " ++ text)
      return .error ("subscription for " ++ name ++ ": " ++ statusText status)
    else match subscriptionId? answerHeaders with
      | none => return .error ("subscription for " ++ name ++ ": no Location header")
      | some id => return .ok id

def createRule (x : Dispatcher κ) (headers : Headers) (rule : Rule) :
    Step κ (Except String Unit) := do
  match ← x.send (.post x.settings.rules rule.payload headers) with
  | .failed reason =>
    Run.error ("Rule " ++ rule.name ++ " failed: " ++ reason)
    return .error ("rule " ++ rule.name ++ ": " ++ reason)
  | .answered status _ text =>
    if status = 200 ∨ status = 201 then return .ok ()
    else
      Run.error ("Rule engine rejected " ++ rule.name ++ ": " ++ statusText status ++ ": " ++ text)
      return .error ("rule " ++ rule.name ++ ": " ++ statusText status)

/-- Takes an id through the gate and sends the rule that it releases. An id that the gate refuses is
noted as an error. -/
def advance (x : Dispatcher κ) (headers : Headers) (request : Request) (id : String)
    (deployment : Deployment) : Step κ Deployment := do
  match ← Run.attempt (onDraft request.draft (Gate.assign request.slot id)) with
  | .error (.flow e) => return deployment.addError e.message
  | .error e => Run.fail e
  | .ok _ =>
    match ← onDraft request.draft Gate.release with
    | none => return deployment
    | some rule =>
      match ← x.createRule headers rule with
      | .ok () => return deployment.addRule rule.name
      | .error text => return deployment.addError text

def deployRequest (x : Dispatcher κ) (headers : Headers) (deployment : Deployment)
    (request : Request) : Step κ Deployment := do
  match ← x.createSubscription headers request with
  | .error text => return deployment.addError text
  | .ok id => x.advance headers request id (deployment.addSubscription id)

def deployRequests (x : Dispatcher κ) (headers : Headers) :
    Deployment → List Request → Step κ Deployment
  | deployment, [] => pure deployment
  | deployment, request :: rest => do
    x.deployRequests headers (← x.deployRequest headers deployment request) rest

def deploy (x : Dispatcher κ) (flowId : Value) (requests : List Request) (headers : Headers) :
    Step κ Deployment := do
  let deployment ← x.deployRequests headers { flowId := flowId } requests
  Run.info ("Flow " ++ (← Run.ofExcept flowId.display?) ++ ": deployed " ++
    Text.ofNat deployment.subscriptionIds.length ++ " subscriptions, " ++
    Text.ofNat deployment.ruleNames.length ++ " rules, " ++
    Text.ofNat deployment.errors.length ++ " errors")
  return deployment

/-- Deploys a plan on a connection that is closed at the end, also when the deployment
fails. -/
def deployAndClose (x : Dispatcher κ) (t : Plan) (headers : Headers) :
    Run κ Failure Deployment :=
  fun peer =>
    let ended := x.deploy t.flowId t.requests headers ⟨peer, false, t.drafts⟩
    let closed := x.close ended.state
    ⟨closed.state.peer, ended.log, ended.outcome⟩

/-- Deletes what is at an address; the text of the error if that fails. What is not there counts as
deleted. -/
def delete (x : Dispatcher κ) (headers : Headers) (url : String) : Step κ (Option String) := do
  match ← x.send (.delete url headers) with
  | .failed reason => return some ("DELETE " ++ url ++ ": " ++ reason)
  | .answered status _ _ =>
    if status ≥ 400 ∧ status ≠ 404 then return some ("DELETE " ++ url ++ ": " ++ statusText status)
    else return none

/-- Deletes the rules and then the subscriptions of a deployment, and gives the errors. -/
def remove (x : Dispatcher κ) (ruleNames subscriptionIds : List String) (headers : Headers) :
    Step κ (List String) := do
  let targets := ruleNames.map (x.settings.rules ++ "/" ++ ·) ++
    subscriptionIds.map (x.settings.subscriptions ++ "/" ++ ·)
  let errors := (← Run.each targets (x.delete headers)).filterMap id
  let _ ← Run.each errors fun e => Run.error e
  return errors

end Dispatcher

/-! ### Summaries -/

namespace Draft

def summary (d : Draft) : Value :=
  .object [("name", .text d.name), ("correlated", .bool d.isPaired),
    ("device_id", .text d.device.id), ("device_type", .text d.device.type),
    ("action", match d.action with
      | some action => .text action.task.name
      | none => .null),
    ("variables", .list (d.projected.map .text))]

end Draft

namespace Plan

def requestSummaries (t : Plan) : List Value :=
  t.requests.map fun r =>
    .object [("rule", .text (t.drafts.getD r.draft {}).name), ("slot", .text r.slot.name),
      ("payload", r.subscription.payload)]

/-- The answer to a request for a plan; the id of the flow has to be a text. -/
def summary (t : Plan) : Checked Value :=
  match t.flowId with
  | .text id =>
    .ok (.object [("flow_id", .text id), ("drafts", .list (t.drafts.map Draft.summary)),
      ("subscriptions", .list t.requestSummaries)])
  | _ => .faulty [⟨[.name "flow_id"], .notText⟩]

end Plan

namespace Deployment

def summary (d : Deployment) : Checked Value :=
  match d.flowId with
  | .text id =>
    .ok (.object [("flow_id", .text id), ("ok", .bool d.isOk),
      ("subscription_ids", .list (d.subscriptionIds.map .text)),
      ("rule_names", .list (d.ruleNames.map .text)), ("errors", .list (d.errors.map .text))])
  | _ => .faulty [⟨[.name "flow_id"], .notText⟩]

end Deployment

end EventFlow
