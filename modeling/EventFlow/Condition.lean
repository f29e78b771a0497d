import EventFlow.Flow

/-!
The conditions of a subscription: how they are made from the rules of a flow or read from a
descriptor, and the query expression that they make together.

A rule may be incomplete or ask for something that has no condition. That is a `Refusal`, an
ordinary outcome: it drops one branch of a flow and nothing else. In a descriptor the field `type`
tells the two kinds of condition apart; it may be left out of a comparison.
-/

namespace EventFlow

inductive Condition where
  /-- Compares an attribute with a literal. -/
  | comparison (property : String) (operator : Operator) (value : String)
  /-- Relates the position of a device to a polygon. -/
  | spatial (relation : Relation) (coords : String)
deriving DecidableEq, Repr

namespace Condition

/-- The fragment of the broker's query language; an operator without a sign has none to show. -/
def query (property : String) (operator : Operator) (value : String) : String :=
  property ++ " " ++ operator.symbol?.getD "None" ++ " " ++ value

def expression : Condition → Fields String
  | .comparison property operator value => [("q", query property operator value)]
  | .spatial relation coords =>
    [("georel", relation.tag), ("geometry", "polygon"), ("coords", coords)]

end Condition

namespace Expression

/-- Adds a part to an expression, joined to what is there under the same name. -/
def add (expression : Fields String) (part : String × String) : Fields String :=
  match Fields.get? expression part.1 with
  | some before => Fields.put expression part.1 (before ++ "; " ++ part.2)
  | none => Fields.put expression part.1 part.2

def ofConditions (conditions : List Condition) : Fields String :=
  (conditions.flatMap Condition.expression).foldl add []

end Expression

/-! ### Descriptors -/

namespace Check

def member {α : Type} (ofTag? : String → Option α) : Check α
  | path, .text tag =>
    match ofTag? tag with
    | some a => .ok a
    | none => .faulty [⟨path, .notMember⟩]
  | path, _ => .faulty [⟨path, .notMember⟩]

def literal (word : String) : Check Unit
  | path, .text s => if s = word then .ok () else .faulty [⟨path, .notLiteral⟩]
  | path, _ => .faulty [⟨path, .notLiteral⟩]

def comparison (path : List Key) (fields : Fields Value) : Checked Condition :=
  (fun _ property operator value => Condition.comparison property operator value)
    <$> optional path fields "type" () (literal "comparison")
    <*> required path fields "property" text
    <*> required path fields "operator" (member Operator.ofTag?)
    <*> required path fields "value" text

def spatial (path : List Key) (fields : Fields Value) : Checked Condition :=
  (fun _ relation _ coords => Condition.spatial relation coords)
    <$> optional path fields "type" () (literal "spatial")
    <*> required path fields "relation" (member Relation.ofTag?)
    <*> optional path fields "geometry" () (literal "polygon")
    <*> required path fields "coords" text

def condition : Check Condition :=
  record .notObject fun path fields =>
    match Fields.get? fields "type" with
    | some (.text "spatial") => spatial path fields
    | _ => comparison path fields

end Check

/-! ### Tests -/

inductive Refusal where
  /-- There is no draft to add to, or no operator. -/
  | incomplete
  /-- A comparison lacks its property or its value. -/
  | missingOperand (operator : Operator)
  | emptyArea
  | unknownMode (mode : String)
  | unknownOperator (operator : String)
deriving DecidableEq, Repr

namespace Refusal

def kind : Refusal → String
  | .incomplete | .missingOperand _ => "InvalidParameter"
  | .emptyArea => "EmptyGeofenceNode"
  | .unknownMode _ => "InvalidGeofenceMode"
  | .unknownOperator _ => "InvalidOperator"

def message : Refusal → String
  | .incomplete => "draft and operator are required"
  | .missingOperand operator =>
    "property and value are required for '" ++ operator.tag ++ "'"
  | .emptyArea => "empty georeference node"
  | .unknownMode mode => "unsupported geofence mode: " ++ mode
  | .unknownOperator operator => "unsupported operator: " ++ operator

end Refusal

namespace Coordinate

def isWritable : Coordinate → Bool
  | .number n => n.isWritable
  | .text _ => true

def display : Coordinate → String
  | .number n => (Value.number n).display
  | .text s => s

def quoted : Coordinate → String
  | .number n => (Value.number n).quoted
  | .text s => (Value.text s).quoted

end Coordinate

namespace Vertex

def isWritable (v : Vertex) : Bool :=
  v.latitude.isWritable && v.longitude.isWritable

def pair (v : Vertex) : String :=
  v.latitude.display ++ "," ++ v.longitude.display

def quoted (v : Vertex) : String :=
  "GeoPoint(latitude=" ++ v.latitude.quoted ++ ", longitude=" ++ v.longitude.quoted ++ ")"

end Vertex

namespace Polygon

/-- The closed polygon through the vertices: each with a semicolon behind it, then the first once
more. -/
def coords (first : Vertex) (rest : List Vertex) : String :=
  Text.joinWith "" ((first :: rest).map fun v => v.pair ++ ";") ++ first.pair

def coords? : List Vertex → Except Failure String
  | [] => .error .noVertices
  | first :: rest =>
    if (first :: rest).all Vertex.isWritable then .ok (coords first rest) else .error .overlong

end Polygon

inductive LineEntry where
  | vertex (v : Vertex)
  | other (v : Value)

inductive Operand where
  | literal (v : Value)
  | line (entries : List LineEntry)

namespace LineEntry

def quoted? : LineEntry → Except Failure String
  | .vertex v => if v.isWritable then .ok v.quoted else .error .overlong
  | .other v => v.quoted?

def vertices? : List LineEntry → Except Failure (List Vertex)
  | [] => .ok []
  | .vertex v :: rest => if v.isWritable then (v :: ·) <$> vertices? rest else .error .overlong
  | .other _ :: _ => .error .noCoordinates

end LineEntry

namespace Operand

def isNull : Operand → Bool
  | .literal v => v.isNull
  | .line _ => false

/-- The literal in a query: as displayed, but for the truth values. -/
def queryText? : Operand → Except Failure String
  | .literal (.bool true) => .ok "true"
  | .literal (.bool false) => .ok "false"
  | .literal v => v.display?
  | .line entries => do
    return "[" ++ Text.joinWith ", " (← entries.mapM LineEntry.quoted?) ++ "]"

def isTruthy : Operand → Bool
  | .literal v => v.isTruthy
  | .line entries => !entries.isEmpty

def vertices? : Operand → Except Failure (List Vertex)
  | .line entries => LineEntry.vertices? entries
  | .literal v =>
    match v.entries? with
    | none => .error .notIterable
    | some [] => .ok []
    | some (_ :: _) => .error .noCoordinates

end Operand

inductive TestOperator where
  | comparison (operator : Operator)
  | spatial (relation : Relation)
deriving DecidableEq, Repr

namespace TestOperator

def ofTag? (tag : String) : Option TestOperator :=
  match Operator.ofTag? tag with
  | some operator => some (.comparison operator)
  | none => (Relation.ofTag? tag).map .spatial

def ofValue? : Value → Option TestOperator
  | .text tag => ofTag? tag
  | _ => none

end TestOperator

namespace Condition

/-- The attribute that a property path names: the path without its first segment, which stands for
the message. -/
def attributeOf (property : String) : String :=
  String.ofList (Text.afterFirst '.' property.toList)

theorem attributeOf_eq_iff {property name : String} :
    attributeOf property = name ↔
      (∃ segment, '.' ∉ segment ∧ property.toList = segment ++ '.' :: name.toList) ∨
        ('.' ∉ property.toList ∧ name = property) := by
  rw [attributeOf, ← String.toList_inj, String.toList_ofList, Text.afterFirst_eq_iff,
    String.toList_inj]

def polylineMode : String := "polyline"

/-- A spatial condition; the operand lists the vertices of the area, the mode names its shape. -/
def ofArea (relation : Relation) (operand : Operand) (mode : Option String) :
    Except Failure (Except Refusal Condition) :=
  match mode with
  | none => .ok (.error .emptyArea)
  | some mode =>
    if !operand.isTruthy then .ok (.error .emptyArea)
    else if mode ≠ polylineMode then .ok (.error (.unknownMode mode))
    else do
      let vertices ← operand.vertices?
      return .ok (.spatial relation (← Polygon.coords? vertices))

def ofComparison (property : Option String) (operator : Operator) (operand : Operand) :
    Except Failure (Except Refusal Condition) :=
  match operator.symbol? with
  | none => .ok (.error (.unknownOperator operator.tag))
  | some _ =>
    match property with
    | none => .ok (.error (.missingOperand operator))
    | some property =>
      if operand.isNull then .ok (.error (.missingOperand operator))
      else do return .ok (.comparison (attributeOf property) operator (← operand.queryText?))

/-- The conditions of several comparisons of one property, up to the first that is refused. -/
def ofComparisons (property : String) :
    List (Operator × Value) → Except Failure (Except Refusal (List Condition))
  | [] => .ok (.ok [])
  | (operator, v) :: rest => do
    match ← ofComparison (some property) operator (.literal v) with
    | .error refusal => return .error refusal
    | .ok c => return (← ofComparisons property rest).map (c :: ·)

end Condition

namespace Branch

/-- What holds of a value when the rule does not: the opposite comparison, or the two bounds for a
range. Other rules have no negated form. -/
def negations (rule : Branch) : List (Operator × Value) :=
  match Operator.ofTag? rule.tag with
  | some .between => [(.lt, rule.value), (.gte, rule.upper)]
  | some operator =>
    match operator.negated? with
    | some negated => [(negated, rule.value)]
    | none => []
  | none => []

def noNegatedForm : String := "operator has no negated form"

end Branch

end EventFlow
