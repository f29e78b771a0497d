import EventFlow.Draft
import EventFlow.Template

/-!
Rules for the rule engine, and the gate that releases them.

A rule is written from a draft once the ids of its subscriptions are known. Writing it resolves the
templates of the action; the names they refer to become variables of the draft, so that the rule
projects them. These stay with the draft even if the rule cannot be written in the end.

A draft waits at the gate for the ids of its subscriptions. `assign` records an id as the broker
reports it, `release` gives the rule once nothing is missing, and gives it once.
-/

namespace EventFlow

structure RuleAction where
  type : String
  template : String
  parameters : Fields Value

structure Rule where
  name : String
  text : String
  action : RuleAction

namespace RuleAction

def payload (a : RuleAction) : Value :=
  .object [("type", .text a.type), ("template", .text a.template),
    ("parameters", .object a.parameters)]

end RuleAction

namespace Rule

def payload (r : Rule) : Value :=
  .object [("name", .text r.name), ("text", .text r.text), ("action", r.action.payload.finiteOnly)]

/-! ### The pattern -/

def eventOf (id : String) : String :=
  "iotEvent(cast(subscriptionId?, String) = \"" ++ id ++ "\")"

/-- The events of a pattern. The last one carries the variables. -/
def events : Pattern → String
  | .undecided => "every ev = " ++ eventOf ""
  | .single _ id => "every ev = " ++ eventOf id
  | .paired _ _ firstId secondId => "every ev = " ++ eventOf firstId ++ " -> ev2 = " ++ eventOf secondId

def columns (d : Draft) : List String :=
  let event := if d.isPaired then "ev2" else "ev"
  ("\"" ++ d.name ++ "\" as ruleName") ::
    d.projected.map fun v => event ++ "." ++ v ++ "? as " ++ v

def patternText (d : Draft) : String :=
  "select *, " ++ Text.joinWith ", " (columns d) ++ " from pattern [" ++ events d.pattern ++ "]"

/-! ### The action -/

/-- Resolves a value, with the names it refers to as variables. -/
def resolve (v : Value) : Run Draft Failure Value := do
  let resolved ← Run.ofExcept v.resolve
  Run.modify fun d => { d with projected := Names.addAll d.projected resolved.names }
  return resolved.value

def asText : Value → Except Failure String
  | .text s => .ok s
  | .null => .ok ""
  | v => v.json?

def warn (message : String) : Run Draft Failure Unit := do
  let d ← Run.get
  Run.warn ("Draft '" ++ d.name ++ "': " ++ message)

/-- The stored value at a path, resolved; `none` with a warning if there is none. -/
def stored (path warning : String) : Run Draft Failure (Option Value) := do
  let d ← Run.get
  let v := d.memory.get path
  if v.isNull then
    warn warning
    return none
  else return some (← resolve v)

def readText (v : Value) : Except ReadError Value :=
  match v with
  | .text s => Value.read s
  | v => .ok v

def attributeList (fields : Fields Value) : Value :=
  .list (fields.map fun f => .object [("name", .text f.1), ("value", f.2)])

def updateAction (entityId entityType attributes : String) :
    Run Draft Failure (Option RuleAction) := do
  match ← stored attributes ("no internal variable '" ++ attributes ++ "' to update") with
  | none => return none
  | some v =>
    match readText v with
    | .ok (.object fields) =>
      return some {
        type := "update"
        template := ""
        parameters := [("id", .text entityId), ("type", .text entityType),
          ("isPattern", .bool false), ("attributes", attributeList fields)] }
    | .error .overlong => Run.fail .overlong
    | _ =>
      warn "update attributes are not a JSON object"
      return none

/-- A field of a message that stands for itself, or for the stored value `name` if it is
`placeholder`. -/
def given (text placeholder name : String) : Run Draft Failure (Option String) := do
  if text = placeholder then
    match ← stored name ("POST " ++ name ++ " is taken from '" ++ name ++ "' but it is unset") with
    | none => return none
    | some v => return some (← Run.ofExcept (asText v))
  else return some text

/-- The headers of a message: the stored value, read if it is the text of a value. -/
def headers : Run Draft Failure Value := do
  let d ← Run.get
  let v := d.memory.get "headers"
  if v.isNull then return .text ""
  else
    let resolved ← resolve v
    match readText resolved with
    | .ok w => return w
    | .error .overlong => Run.fail .overlong
    | .error .malformed =>
      Run.debug ("Draft '" ++ d.name ++ "': POST headers kept as text")
      return resolved

def postAction (url method body : String) : Run Draft Failure (Option RuleAction) := do
  match ← stored body ("no internal variable '" ++ body ++ "' for the POST body") with
  | none => return none
  | some content =>
    match ← given url Task.storedUrl "url" with
    | none => return none
    | some url =>
      match ← given method Task.storedMethod "method" with
      | none => return none
      | some method =>
        let headers ← headers
        return some {
          type := "post"
          template := ← Run.ofExcept (asText content)
          parameters := [("url", .text url), ("method", .text method), ("headers", headers)] }

def emailAction (recipient sender subject server body : String) :
    Run Draft Failure (Option RuleAction) := do
  match ← stored body ("no internal variable '" ++ body ++ "' for the e-mail body") with
  | none => return none
  | some content =>
    let subject ← resolve (.text subject)
    return some {
      type := "email"
      template := ← Run.ofExcept (asText content)
      parameters := [("to", .text recipient), ("from", .text sender), ("subject", subject),
        ("smtp", .text server)] }

/-- The action of the draft it runs on; `none` if the rule engine has nothing to do. -/
def actionOfDraft : Run Draft Failure (Option RuleAction) := do
  let d ← Run.get
  match d.action.map Action.task with
  | some (.update entityId entityType attributes) => updateAction entityId entityType attributes
  | some (.post url method body) => postAction url method body
  | some (.email recipient sender subject server body) => emailAction recipient sender subject server body
  | some .history | none => return none

def write : Run Draft Failure (Option Rule) := do
  match ← actionOfDraft with
  | none => return none
  | some action =>
    let d ← Run.get
    return some ⟨d.name, patternText d, action⟩

end Rule

/-! ### The gate -/

namespace Pattern

/-- Records an id; `none` if the slot is not one of the pattern. -/
def assign? (id : String) : Slot → Pattern → Option Pattern
  | .fixed, .undecided => some (.single [] id)
  | .fixed, .single cs _ => some (.single cs id)
  | .first, .paired fs ss _ sid => some (.paired fs ss id sid)
  | .second, .paired fs ss fid _ => some (.paired fs ss fid id)
  | _, _ => none

end Pattern

namespace Gate

def assign (slot : Slot) (id : String) : Run Draft Failure Stage := do
  let d ← Run.get
  if id = "" then Run.fail (.flow (.emptyIdentifier d.name))
  else match d.pattern.assign? id slot with
    | none =>
      if slot = .fixed then Run.fail (.flow (.unpairedIdentifier d.name))
      else Run.fail (.flow (.pairedIdentifier d.name slot))
    | some pattern =>
      let assigned := { d with pattern := pattern }
      Run.modify fun _ => assigned
      Run.debug ("Draft '" ++ d.name ++ "': " ++ slot.name ++ " subscription " ++ id)
      return assigned.stage

/-- The rule of the draft it runs on, if it is ready and has one. -/
def release : Run Draft Failure (Option Rule) := do
  let d ← Run.get
  if d.stage = .ready then
    match ← Rule.write with
    | none =>
      Run.info ("Draft '" ++ d.name ++ "': no rule to emit")
      return none
    | some rule =>
      Run.modify fun e => { e with emitted := true }
      Run.info ("Draft '" ++ d.name ++ "': rule ready")
      return some rule
  else return none

def onDraft {α : Type} (index : Nat) (x : Run Draft Failure α) : Run (List Draft) Failure α :=
  Run.zoom (·.getD index {}) (fun d drafts => drafts.set index d) x

def releaseAll (assignments : List (Request × String)) : Run (List Draft) Failure (List Rule) := do
  let rules ← Run.each assignments fun (request, id) => onDraft request.draft do
    let _ ← assign request.slot id
    release
  return rules.filterMap id

end Gate

end EventFlow
