import EventFlow.Action
import EventFlow.Condition

/-!
Drafts: rules under construction, and the broker subscriptions that they need.

A draft gathers what one route through a flow asks for. Its pattern is undecided until the first
condition: a fixed condition makes a rule on a single event, a first or second one a rule on two
events in a row. Conditions that hold of a single event hold of both events of a pair. A draft on a
single event needs one subscription, a draft on a pair of events two.

What the route stores is kept under dotted paths. A path descends through objects. Setting a path
makes the objects on the way, in place of whatever else stands there; a path that is not there reads
as null.
-/

namespace EventFlow

/-! ### Stored values -/

abbrev Memory := Fields Value

namespace Memory

def child (m : Memory) (key : String) : Memory :=
  match Fields.get? m key with
  | some (.object fields) => fields
  | _ => []

def setAt : Memory → List String → Value → Memory
  | m, [], _ => m
  | m, [key], v => Fields.put m key v
  | m, key :: keys, v => Fields.put m key (.object (setAt (child m key) keys v))

def getAt? : Value → List String → Option Value
  | v, [] => some v
  | .object fields, key :: keys => (Fields.get? fields key).bind (getAt? · keys)
  | _, _ :: _ => none

def set (m : Memory) (path : String) (v : Value) : Memory :=
  setAt m (Text.segments path) v

def get (m : Memory) (path : String) : Value :=
  (getAt? (.object m) (Text.segments path)).getD .null

end Memory

/-! ### Drafts -/

structure Device where
  type : String := ""
  id : String := ""
  attributes : List String := []
deriving DecidableEq, Repr

/-- The events a rule waits for, with the ids of their subscriptions, empty until they are known. -/
inductive Pattern where
  | undecided
  | single (conditions : List Condition) (id : String)
  | paired (first second : List Condition) (firstId secondId : String)
deriving DecidableEq, Repr

namespace Pattern

def add (c : Condition) : Slot → Pattern → Pattern
  | .fixed, .undecided => .single [c] ""
  | .fixed, .single cs id => .single (cs ++ [c]) id
  | .fixed, .paired fs ss fid sid => .paired (fs ++ [c]) (ss ++ [c]) fid sid
  | .first, .undecided => .paired [c] [] "" ""
  | .first, .single cs _ => .paired (cs ++ [c]) cs "" ""
  | .first, .paired fs ss fid sid => .paired (fs ++ [c]) ss fid sid
  | .second, .undecided => .paired [] [c] "" ""
  | .second, .single cs _ => .paired cs (cs ++ [c]) "" ""
  | .second, .paired fs ss fid sid => .paired fs (ss ++ [c]) fid sid

def conditions : Slot → Pattern → List Condition
  | .fixed, .single cs _ => cs
  | .first, .paired fs _ _ _ => fs
  | .second, .paired _ ss _ _ => ss
  | _, _ => []

def isPaired : Pattern → Bool
  | .paired .. => true
  | _ => false

end Pattern

inductive Stage where
  | pending
  /-- One of two ids is known. -/
  | halfway
  | ready
  | emitted
deriving DecidableEq, Repr

namespace Stage

def name : Stage → String
  | .pending => "pending"
  | .halfway => "partial"
  | .ready => "ready"
  | .emitted => "emitted"

end Stage

structure Draft where
  /-- The message fields that the rule projects. -/
  projected : List String := []
  /-- The values stored along the route, as they are or as templates. -/
  memory : Memory := []
  pattern : Pattern := .undecided
  device : Device := {}
  action : Option Action := none
  name : String := ""
  emitted : Bool := false

namespace Draft

def addVariable (d : Draft) (name : String) : Draft :=
  { d with projected := Names.add d.projected name }

def addAttribute (d : Draft) (name : String) : Draft :=
  { d with device := { d.device with attributes := Names.add d.device.attributes name } }

def watch (d : Draft) (name : String) : Draft :=
  (d.addVariable name).addAttribute name

def addCondition (d : Draft) (c : Condition) (slot : Slot) : Draft :=
  { d with pattern := d.pattern.add c slot }

def require (d : Draft) (c : Condition) (slot : Slot) : Draft :=
  match c with
  | .comparison property _ _ => (d.watch property).addCondition c slot
  | .spatial .. => d.addCondition c slot

def isPaired (d : Draft) : Bool :=
  d.pattern.isPaired

def stage (d : Draft) : Stage :=
  if d.emitted then .emitted
  else match d.pattern with
    | .undecided => .pending
    | .single _ id => if id = "" then .pending else .ready
    | .paired _ _ firstId secondId =>
      if firstId = "" then if secondId = "" then .pending else .halfway
      else if secondId = "" then .halfway else .ready

/-- Equality of drafts, with stored values compared as values. -/
def same (d e : Draft) : Bool :=
  d.projected == e.projected && Value.same (.object d.memory) (.object e.memory) &&
    d.pattern == e.pattern && d.device == e.device && d.action == e.action && d.name == e.name &&
    d.emitted == e.emitted

/-! ### Tests -/

/-- Adds a comparison to the draft it runs on. If the literal cannot be written it fails after the
attribute has been noted. -/
def compare (property : Option String) (operator : Operator) (operand : Operand) (slot : Slot) :
    Run Draft Failure (Except Refusal Unit) :=
  match Condition.ofComparison property operator operand with
  | .ok (.ok c) => do
    Run.modify (·.require c slot)
    return .ok ()
  | .ok (.error refusal) => pure (.error refusal)
  | .error e => do
    Run.modify (·.watch (Condition.attributeOf (property.getD "")))
    Run.fail e

def locate (relation : Relation) (operand : Operand) (mode : Option String) (slot : Slot) :
    Run Draft Failure (Except Refusal Unit) := do
  match ← Run.ofExcept (Condition.ofArea relation operand mode) with
  | .ok c =>
    Run.modify (·.require c slot)
    return .ok ()
  | .error refusal => return .error refusal

/-- Adds the condition of a test, whichever kind its operator names. A comparison that has all it
needs looks at the name of its property, which has to be a text; a mode that is no text is one that
nobody knows. -/
def test (property operator : Value) (operand : Operand) (mode : Value) (slot : Slot) :
    Run Draft Failure (Except Refusal Unit) :=
  if operator.isNull then pure (.error .incomplete)
  else match TestOperator.ofValue? operator with
    | some (.comparison op) =>
      match property with
      | .text name => compare (some name) op operand slot
      | .null => compare none op operand slot
      | _ =>
        if op.symbol?.isSome && !operand.isNull then Run.fail .namelessProperty
        else compare none op operand slot
    | some (.spatial relation) =>
      match mode with
      | .null => locate relation operand none slot
      | v => do locate relation operand (some (← Run.ofExcept v.display?)) slot
    | none => do return .error (.unknownOperator (← Run.ofExcept operator.display?))

def testIfAny (property operator : Value) (operand : Operand) (mode : Value) (slot : Slot) :
    Run (Option Draft) Failure (Except Refusal Unit) := do
  match ← Run.get with
  | none => return .error .incomplete
  | some d => Run.zoom (·.getD d) (fun e _ => some e) (test property operator operand mode slot)

def compareAll (property : String) (slot : Slot) :
    List (Operator × Value) → Run Draft Failure (Except Refusal Unit)
  | [] => pure (.ok ())
  | (operator, v) :: rest => do
    match ← compare (some property) operator (.literal v) slot with
    | .error refusal => return .error refusal
    | .ok () => compareAll property slot rest

/-- Adds the negation of every rule, and says of each whether it was refused and what there is to
remark. -/
def negate (property : String) (rules : List Branch) (slot : Slot) :
    Run Draft Failure (List (Except Refusal String)) :=
  Run.each rules fun rule => do
    let remark := if rule.negations.isEmpty then Branch.noNegatedForm else ""
    return (← compareAll property slot rule.negations).map fun _ => remark

end Draft

/-! ### Subscriptions -/

structure Subscription where
  description : String
  entityType : String
  entityId : String
  attributes : List String
  expression : Option (Fields String)
  notifyUrl : String
  slot : Slot

namespace Subscription

/-- The subscription for the conditions of one slot. Without conditions every event counts. -/
def ofConditions (d : Draft) (conditions : List Condition) (slot : Slot) : Subscription where
  description := "Subscription for " ++ d.device.id
  entityType := d.device.type
  entityId := d.device.id
  attributes := if conditions.isEmpty then [] else d.device.attributes
  expression := if conditions.isEmpty then none else some (Expression.ofConditions conditions)
  notifyUrl := (d.action.map Action.endpoint).getD ""
  slot := slot

def texts (fields : Fields String) : Value :=
  .object (fields.map fun f => (f.1, .text f.2))

def conditionPayload (s : Subscription) : Fields Value :=
  match s.expression with
  | none | some [] => []
  | some expression =>
    [("condition", .object [("attrs", .list (s.attributes.map .text)),
      ("expression", texts expression)])]

def payload (s : Subscription) : Value :=
  .object [
    ("description", .text s.description),
    ("subject", .object
      (("entities", .list [texts [("type", s.entityType), ("id", s.entityId)]]) ::
        s.conditionPayload)),
    ("notification", .object [("http", texts [("url", s.notifyUrl)])])]

end Subscription

/-- A subscription to make, and which of the drafts waits for its id in which slot. -/
structure Request where
  subscription : Subscription
  slot : Slot
  draft : Nat

namespace Request

def ofDraft (d : Draft) (index : Nat) : List Request :=
  let request := fun conditions slot => ⟨.ofConditions d conditions slot, slot, index⟩
  match d.pattern with
  | .paired first second _ _ => [request first .first, request second .second]
  | p => [request (p.conditions .fixed) .fixed]

def ofDrafts (drafts : List Draft) : List Request :=
  drafts.zipIdx.flatMap fun (d, i) => ofDraft d i

end Request

end EventFlow
