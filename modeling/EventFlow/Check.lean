import EventFlow.Value

/-!
Checking dynamic values against declared shapes.

A check either gives the typed value or lists every fault, in the order in which the fields are
declared and then by index. Names that are not declared are ignored. `Checked` is applicative: two
checks side by side report the faults of both.
-/

namespace EventFlow

inductive Key where
  | name (s : String)
  | index (n : Nat)
deriving DecidableEq, Repr

inductive FaultKind where
  | missing
  | notText
  | textTooShort
  | notList
  | notObject
  | notMapping
  | notAttributes
  | notInteger
  | notFloat
  | notMember
  | notLiteral
  | notJson
deriving DecidableEq, Repr

namespace FaultKind

def name : FaultKind → String
  | .missing => "missing"
  | .notText => "string_type"
  | .textTooShort => "string_too_short"
  | .notList => "list_type"
  | .notObject => "model_type"
  | .notMapping => "dict_type"
  | .notAttributes => "model_attributes_type"
  | .notInteger => "int_type"
  | .notFloat => "float_type"
  | .notMember => "enum"
  | .notLiteral => "literal_error"
  | .notJson => "json_invalid"

end FaultKind

structure Fault where
  path : List Key
  kind : FaultKind
deriving DecidableEq, Repr

inductive Checked (α : Type) where
  | ok (a : α)
  | faulty (faults : List Fault)

namespace Checked

variable {α β : Type}

def map (f : α → β) : Checked α → Checked β
  | .ok a => .ok (f a)
  | .faulty faults => .faulty faults

/-- Applies a checked function to a checked argument and keeps the faults of both. -/
def apply : Checked (α → β) → Checked α → Checked β
  | .ok f, .ok a => .ok (f a)
  | .ok _, .faulty faults => .faulty faults
  | .faulty faults, .ok _ => .faulty faults
  | .faulty faults, .faulty more => .faulty (faults ++ more)

instance : Functor Checked := ⟨fun f x => map f x, fun a x => map (fun _ => a) x⟩

instance : Seq Checked := ⟨fun f x => apply f (x ())⟩

def toExcept : Checked α → Except (List Fault) α
  | .ok a => .ok a
  | .faulty faults => .error faults

end Checked

abbrev Check (α : Type) := List Key → Value → Checked α

namespace Check

variable {α : Type}

def anything : Check Value :=
  fun _ v => .ok v

def text : Check String
  | _, .text s => .ok s
  | path, _ => .faulty [⟨path, .notText⟩]

def nullable (check : Check α) : Check (Option α)
  | _, .null => .ok none
  | path, v => (check path v).map some

def itemsFrom (check : Check α) (path : List Key) : Nat → List Value → Checked (List α)
  | _, [] => .ok []
  | n, v :: rest =>
    List.cons <$> check (path ++ [.index n]) v <*> itemsFrom check path (n + 1) rest

def items (check : Check α) : Check (List α)
  | path, .list vs => itemsFrom check path 0 vs
  | path, _ => .faulty [⟨path, .notList⟩]

/-- An object whose fields pass; anything else is the fault `kind`. -/
def record (kind : FaultKind) (check : List Key → Fields Value → Checked α) : Check α
  | path, .object fields => check path fields
  | path, _ => .faulty [⟨path, kind⟩]

def required (path : List Key) (fields : Fields Value) (name : String) (check : Check α) :
    Checked α :=
  match Fields.get? fields name with
  | some v => check (path ++ [.name name]) v
  | none => .faulty [⟨path ++ [.name name], .missing⟩]

def optional (path : List Key) (fields : Fields Value) (name : String) (default : α)
    (check : Check α) : Checked α :=
  match Fields.get? fields name with
  | some v => check (path ++ [.name name]) v
  | none => .ok default

/-- A field with a default that goes by two names, of which the first counts if both are there. -/
def either (path : List Key) (fields : Fields Value) (first second : String) (default : α)
    (check : Check α) : Checked α :=
  match Fields.get? fields first with
  | some v => check (path ++ [.name first]) v
  | none => optional path fields second default check

end Check

end EventFlow
