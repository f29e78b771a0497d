import EventFlow.Flow

/-!
What a sink asks for: where the broker is to send its notifications, and the task of the rule
engine.

The settings have the endpoints of the rule engine, the broker and the history store, and how long a
call may take. Fields of a task that come from a message are kept as the paths of stored values;
they are looked up when the rule is written.
-/

namespace EventFlow

structure Settings where
  ruleEngine : String := "http://perseo-fe:9090"
  broker : String := "http://orion:1026"
  history : String := "http://cygnus:5050"
  timeout : Number := .float (.ofDecimal false 10 0)

namespace Settings

/-- Settings from environment variables; trailing slashes are dropped. -/
def ofEnvironment (lookup : String → Option String) : Except Failure Settings :=
  let url := fun name default => Text.dropTrailing '/' ((lookup name).getD default)
  let base : Settings := {}
  let settings := fun timeout : Number =>
    { ruleEngine := url "RULE_ENGINE_URL" base.ruleEngine
      broker := url "BROKER_URL" base.broker
      history := url "HISTORY_URL" base.history
      timeout := timeout : Settings }
  match lookup "HTTP_TIMEOUT" with
  | none => .ok (settings base.timeout)
  | some text =>
    match Numeral.float? text with
    | some x => .ok (settings (.float x))
    | none => .error .notNumeral

def ruleNotification (s : Settings) : String := s.ruleEngine ++ "/noticesv2"

def historyNotification (s : Settings) : String := s.history ++ "/notify"

def rules (s : Settings) : String := s.ruleEngine ++ "/rules"

def subscriptions (s : Settings) : String := s.broker ++ "/v2/subscriptions"

end Settings

inductive Task where
  | update (entityId entityType attributes : String)
  | post (url method body : String)
  | email (recipient sender subject server body : String)
  /-- The broker itself forwards to the history store. -/
  | history
deriving DecidableEq, Repr

structure Action where
  endpoint : String
  task : Task
deriving DecidableEq, Repr

namespace Task

def name : Task → String
  | .update .. => "update"
  | .post .. => "post"
  | .email .. => "email"
  | .history => "history"

/-- Stands for an address that is taken from the stored value `url`. -/
def storedUrl : String := "\x7b\x7burl\x7d\x7d"

def storedMethod : String := "\x7b\x7bmethod\x7d\x7d"

def ofKind? : Kind → Option Task
  | .update deviceId deviceType attributes => some (.update deviceId deviceType attributes)
  | .post url method body =>
    some (.post (if url = "" then storedUrl else url)
      (if method = "use" then storedMethod else method) body)
  | .email recipient sender subject server body => some (.email recipient sender subject server body)
  | .history => some .history
  | _ => none

end Task

namespace Action

def endpointOf (settings : Settings) : Task → String
  | .history => settings.historyNotification
  | _ => settings.ruleNotification

def ofNode? (settings : Settings) (n : Node) : Option Action :=
  (Task.ofKind? n.kind).map fun task => ⟨endpointOf settings task, task⟩

def ofSink (settings : Settings) (n : Node) : Except Failure Action :=
  match ofNode? settings n with
  | some action => .ok action
  | none => .error (.flow (.notSink n.id n.type))

end Action

end EventFlow
