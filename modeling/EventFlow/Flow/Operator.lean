/-!
The closed vocabularies of a flow: comparison operators, spatial relations, geofence filters, edge
directions, and the slots of a rule's pattern.
-/

namespace EventFlow

inductive Operator where
  | eq
  | neq
  | lt
  | lte
  | gt
  | gte
  | contains
  | between
  | otherwise
deriving DecidableEq, Repr

namespace Operator

def all : List Operator :=
  [.eq, .neq, .lt, .lte, .gt, .gte, .contains, .between, .otherwise]

def tag : Operator → String
  | .eq => "eq"
  | .neq => "neq"
  | .lt => "lt"
  | .lte => "lte"
  | .gt => "gt"
  | .gte => "gte"
  | .contains => "cont"
  | .between => "btwn"
  | .otherwise => "else"

def ofTag? (tag : String) : Option Operator :=
  all.find? (·.tag == tag)

/-- The sign in the broker's query language. A range and the otherwise rule have none: they are
expressed by other operators. -/
def symbol? : Operator → Option String
  | .eq => some "=="
  | .neq => some "!="
  | .lt => some "<"
  | .lte => some "<="
  | .gt => some ">"
  | .gte => some ">="
  | .contains => some "~="
  | .between | .otherwise => none

/-- The operator that holds exactly when this one does not, where a single one does that. -/
def negated? : Operator → Option Operator
  | .eq => some .neq
  | .neq => some .eq
  | .lt => some .gte
  | .lte => some .gt
  | .gt => some .lte
  | .gte => some .lt
  | .contains | .between | .otherwise => none

end Operator

inductive Relation where
  | near
  | coveredBy
  | intersects
  | equals
  | disjoint
deriving DecidableEq, Repr

namespace Relation

def all : List Relation :=
  [.near, .coveredBy, .intersects, .equals, .disjoint]

def tag : Relation → String
  | .near => "near"
  | .coveredBy => "coveredBy"
  | .intersects => "intersects"
  | .equals => "equals"
  | .disjoint => "disjoint"

def ofTag? (tag : String) : Option Relation :=
  all.find? (·.tag == tag)

end Relation

/-- Which event of a pattern a condition or a subscription belongs to. -/
inductive Slot where
  | fixed
  | first
  | second
deriving DecidableEq, Repr

namespace Slot

def name : Slot → String
  | .fixed => "fixed"
  | .first => "first"
  | .second => "second"

def ofName? : String → Option Slot
  | "fixed" => some .fixed
  | "first" => some .first
  | "second" => some .second
  | _ => none

def index : Slot → Nat
  | .fixed => 0
  | .first => 1
  | .second => 2

end Slot

inductive Filter where
  | inside
  | outside
  | enters
  | exits
deriving DecidableEq, Repr

namespace Filter

def ofTag? : String → Option Filter
  | "inside" => some .inside
  | "outside" => some .outside
  | "enters" => some .enters
  | "exits" => some .exits
  | _ => none

/-- The spatial tests of a filter. A steady state tests one event; a transition tests where the
device was and where it is now. -/
def tests : Filter → List (Slot × Relation)
  | .inside => [(.fixed, .coveredBy)]
  | .outside => [(.fixed, .disjoint)]
  | .enters => [(.first, .disjoint), (.second, .coveredBy)]
  | .exits => [(.first, .coveredBy), (.second, .disjoint)]

end Filter

inductive Edge where
  | rising
  | falling
deriving DecidableEq, Repr

namespace Edge

def ofTag? : String → Option Edge
  | "edge-up" => some .rising
  | "edge-down" => some .falling
  | _ => none

def before : Edge → Operator
  | .rising => .lt
  | .falling => .gte

def after : Edge → Operator
  | .rising => .gte
  | .falling => .lt

end Edge

end EventFlow
