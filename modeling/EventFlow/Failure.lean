import EventFlow.Check
import EventFlow.Flow.Operator
import EventFlow.Text
import EventFlow.Value.Reader
import EventFlow.Value.Written

/-!
The ways in which work on a flow fails.

`FlowError` holds the faults of the flow itself and of its use, each with its message. `Failure`
adds what values of an unexpected kind lead to; these have no message of their own.
-/

namespace EventFlow

inductive FlowError where
  /-- A descriptor that is no object, or has no id; its displayed form. -/
  | missingId (descriptor : String)
  /-- A descriptor that does not have the shape of its type. -/
  | invalidNode (id tag : String) (faults : List Fault)
  | duplicateId (id : String)
  | danglingWire (source target : String)
  /-- The ids from the start of the walk to the node that was reached twice. -/
  | cycle (path : List String)
  | notSink (id type : String)
  | emptyIdentifier (draft : String)
  /-- A draft that waits for two ids was given a single one. -/
  | unpairedIdentifier (draft : String)
  /-- A draft that waits for a single id was given one of a pair. -/
  | pairedIdentifier (draft : String) (slot : Slot)
deriving Repr

namespace FlowError

def message : FlowError → String
  | .missingId descriptor => "Node descriptor without id: " ++ descriptor
  | .invalidNode id tag _ => "Invalid node '" ++ id ++ "' (" ++ tag ++ ")"
  | .duplicateId id => "Duplicate node id: " ++ id
  | .danglingWire source target =>
    "Node '" ++ source ++ "' is wired to unknown node '" ++ target ++ "'"
  | .cycle path => "Cycle detected in flow: " ++ Text.joinWith " -> " path
  | .notSink id type => "Node '" ++ id ++ "' (" ++ type ++ ") is not a sink"
  | .emptyIdentifier draft => "Draft '" ++ draft ++ "': empty subscription id"
  | .unpairedIdentifier draft =>
    "Draft '" ++ draft ++ "' is correlated, got a fixed subscription id"
  | .pairedIdentifier draft slot =>
    "Draft '" ++ draft ++ "' is not correlated, got a " ++ slot.name ++ " subscription id"

end FlowError

inductive Failure where
  | flow (e : FlowError)
  /-- A whole number beyond the digit limit would have to be read or written. -/
  | overlong
  /-- A text is not the spelling of a value. -/
  | malformed
  /-- A text is not a numeral. -/
  | notNumeral
  /-- A value that has no entries stands where entries are visited. -/
  | notIterable
  /-- An entry of a drawn line has no coordinates. -/
  | noCoordinates
  /-- A polygon without a vertex. -/
  | noVertices
  /-- A flow whose id is no text has drafts to name. -/
  | namelessFlow
  /-- A property that is no text has a name to be looked at. -/
  | namelessProperty
  /-- A number that is not finite stands in a report that can only quote finite ones. -/
  | notFinite
  /-- An answer does not have its declared shape. -/
  | misshapen (faults : List Fault)
  /-- No file can have the given name. -/
  | unnamableFile
  /-- The output has no indentation to be written with. -/
  | noIndent
deriving Repr

namespace Failure

def ofReadError : ReadError → Failure
  | .malformed => .malformed
  | .overlong => .overlong

end Failure

namespace Value

/-- The displayed form, which fails on whole numbers beyond the digit limit. -/
def display? (v : Value) : Except Failure String :=
  if v.isWritable then .ok v.display else .error .overlong

def quoted? (v : Value) : Except Failure String :=
  if v.isWritable then .ok v.quoted else .error .overlong

def json? (v : Value) : Except Failure String :=
  if v.isWritable then .ok v.json else .error .overlong

end Value

end EventFlow
