import EventFlow.Fields
import EventFlow.Number

/-!
Dynamic values: what node descriptors, templates and message bodies are made of.

Objects keep the order of their fields. The functions on values are recursions over the value, its
items and its fields together.
-/

namespace EventFlow

inductive Value where
  | null
  | bool (b : Bool)
  | number (n : Number)
  | text (s : String)
  | list (items : List Value)
  | object (fields : List (String × Value))
deriving Repr

namespace Value

instance : Inhabited Value := ⟨.null⟩

def int (n : Int) : Value := .number (.int n)

def float (x : Binary64) : Value := .number (.float x)

/-- Whether a value counts as present: null, false, zero and whatever is empty do not. -/
def isTruthy : Value → Bool
  | .null => false
  | .bool b => b
  | .number n => n.isNonzero
  | .text s => s != ""
  | .list items => !items.isEmpty
  | .object fields => !fields.isEmpty

def field? (v : Value) (key : String) : Option Value :=
  match v with
  | .object fields => Fields.get? fields key
  | _ => none

/-- What iterating over a value visits: the items of a list, the characters of a text, the names of
an object's fields. -/
def entries? : Value → Option (List Value)
  | .list items => some items
  | .text s => some (s.toList.map fun c => .text (String.ofList [c]))
  | .object fields => some (fields.map fun f => .text f.1)
  | _ => none

def isNull : Value → Bool
  | .null => true
  | _ => false

mutual

/-- Whether every whole number in the value is within the digit limit. -/
def isWritable : Value → Bool
  | .number n => n.isWritable
  | .list items => itemsWritable items
  | .object fields => fieldsWritable fields
  | _ => true

def itemsWritable : List Value → Bool
  | [] => true
  | v :: rest => v.isWritable && itemsWritable rest

def fieldsWritable : List (String × Value) → Bool
  | [] => true
  | (_, v) :: rest => v.isWritable && fieldsWritable rest

end

mutual

/-- Equality of values: numbers by what they denote, with true as one and false as zero, and
objects in any order of their fields. -/
def same : Value → Value → Bool
  | .null, .null => true
  | .bool a, .bool b => a == b
  | .bool a, .number n => Number.same (.int (if a then 1 else 0)) n
  | .number n, .bool b => Number.same n (.int (if b then 1 else 0))
  | .number m, .number n => Number.same m n
  | .text a, .text b => a == b
  | .list xs, .list ys => sameItems xs ys
  | .object fs, .object gs => fs.length == gs.length && sameFields fs gs
  | _, _ => false

def sameItems : List Value → List Value → Bool
  | [], [] => true
  | x :: xs, y :: ys => same x y && sameItems xs ys
  | _, _ => false

def sameFields : List (String × Value) → List (String × Value) → Bool
  | [], _ => true
  | (k, v) :: rest, gs =>
    (match Fields.get? gs k with
      | some w => same v w
      | none => false) && sameFields rest gs

end

mutual

def isFinite : Value → Bool
  | .number (.float x) => x.isFinite
  | .list items => itemsFinite items
  | .object fields => fieldsFinite fields
  | _ => true

def itemsFinite : List Value → Bool
  | [] => true
  | v :: rest => v.isFinite && itemsFinite rest

def fieldsFinite : List (String × Value) → Bool
  | [] => true
  | (_, v) :: rest => v.isFinite && fieldsFinite rest

end

mutual

/-- The value with null in place of every number that is not finite. -/
def finiteOnly : Value → Value
  | .number (.float x) => if x.isFinite then .number (.float x) else .null
  | .list items => .list (finiteItems items)
  | .object fields => .object (finiteFields fields)
  | v => v

def finiteItems : List Value → List Value
  | [] => []
  | v :: rest => v.finiteOnly :: finiteItems rest

def finiteFields : List (String × Value) → List (String × Value)
  | [] => []
  | (k, v) :: rest => (k, v.finiteOnly) :: finiteFields rest

end

end Value

end EventFlow
