import EventFlow.Walk

/-!
The drafts of a walk, and the objects that they share.

An object that a change rule holds is stored itself, not a copy of it. A draft that writes below the
path of such an object writes into the object, and every draft that holds it sees that. Copying a
draft gives the copy objects of its own. A `Scope` is a memory in which such objects are named by
their key; the `Shelf` has what is in them at the moment.

A draft is carried from the root of the walk to its sinks. Where the walk has several ways on, each
gets a copy; where it has one, the draft itself goes on. Drafts that have reached a sink still share
the objects they hold, so what is in them is only settled when the last walk is over.
-/

namespace EventFlow

inductive Held where
  /-- Anything but an object. -/
  | value (v : Value)
  | object (fields : List (String × Held))
  | shared (key : LiteralKey)

abbrev Scope := Fields Held

abbrev Shelf := List (LiteralKey × Scope)

namespace Shelf

def get (shelf : Shelf) (key : LiteralKey) : Scope :=
  match shelf with
  | [] => []
  | (k, scope) :: rest => if k = key then scope else get rest key

def put (shelf : Shelf) (key : LiteralKey) (scope : Scope) : Shelf :=
  match shelf with
  | [] => [(key, scope)]
  | (k, s) :: rest => if k = key then (key, scope) :: rest else (k, s) :: put rest key scope

def has (shelf : Shelf) (key : LiteralKey) : Bool :=
  shelf.any (·.1 == key)

end Shelf

namespace Held

mutual

def ofValue : Value → Held
  | .object fields => .object (ofFields fields)
  | v => .value v

def ofFields : List (String × Value) → List (String × Held)
  | [] => []
  | (k, v) :: rest => (k, ofValue v) :: ofFields rest

end

mutual

/-- The value that is held, where `contents` gives what is in the shared objects. -/
def toValue (contents : LiteralKey → Memory) : Held → Value
  | .value v => v
  | .object fields => .object (toFields contents fields)
  | .shared key => .object (contents key)

def toFields (contents : LiteralKey → Memory) : List (String × Held) → List (String × Value)
  | [] => []
  | (k, h) :: rest => (k, toValue contents h) :: toFields contents rest

end

mutual

/-- Equality of what is held. A shared object is equal to itself, whatever is in it. -/
def same (contents : LiteralKey → Memory) : Held → Held → Bool
  | .object fs, .object gs => fs.length == gs.length && sameFields contents fs gs
  | .shared k, .shared l =>
    k == l || Value.same (.object (contents k)) (.object (contents l))
  | h, i => Value.same (h.toValue contents) (i.toValue contents)

def sameFields (contents : LiteralKey → Memory) :
    List (String × Held) → List (String × Held) → Bool
  | [], _ => true
  | (k, h) :: rest, gs =>
    (match Fields.get? gs k with
      | some i => same contents h i
      | none => false) && sameFields contents rest gs

end

end Held

namespace Shelf

/-- What is in a shared object, down to `depth` shared objects inside one another. -/
def contents (shelf : Shelf) : Nat → LiteralKey → Memory
  | 0, _ => []
  | depth + 1, key => Held.toFields (contents shelf depth) (get shelf key)

end Shelf

namespace Scope

def ofMemory (m : Memory) : Scope :=
  Held.ofFields m

/-- The memory that a scope stands for. A shared object lies inside another only below its path, so
no more than all of them lie inside one another. -/
def toMemory (shelf : Shelf) (scope : Scope) : Memory :=
  Held.toFields (Shelf.contents shelf shelf.length) scope

def same (shelf : Shelf) (s t : Scope) : Bool :=
  Held.same (Shelf.contents shelf shelf.length) (.object s) (.object t)

/-- Sets a path. On the way, what is not an object is replaced by one, and a shared object is
changed on the shelf. -/
def setAt (shelf : Shelf) (scope : Scope) : List String → Held → Shelf × Scope
  | [], _ => (shelf, scope)
  | [key], h => (shelf, Fields.put scope key h)
  | key :: keys, h =>
    match Fields.get? scope key with
    | some (.object fields) =>
      let inner := setAt shelf fields keys h
      (inner.1, Fields.put scope key (.object inner.2))
    | some (.shared literal) =>
      let inner := setAt shelf (Shelf.get shelf literal) keys h
      (Shelf.put inner.1 literal inner.2, scope)
    | _ =>
      let inner := setAt shelf [] keys h
      (inner.1, Fields.put scope key (.object inner.2))

def set (shelf : Shelf) (scope : Scope) (path : String) (h : Held) : Shelf × Scope :=
  setAt shelf scope (Text.segments path) h

end Scope

/-! ### Carrying a draft -/

structure Carried where
  draft : Draft
  scope : Scope

namespace Carried

def ofDraft (d : Draft) : Carried :=
  ⟨d, Scope.ofMemory d.memory⟩

def settle (shelf : Shelf) (c : Carried) : Draft :=
  { c.draft with memory := c.scope.toMemory shelf }

def same (shelf : Shelf) (c d : Carried) : Bool :=
  Draft.same { c.draft with memory := [] } { d.draft with memory := [] } &&
    Scope.same shelf c.scope d.scope

/-- A copy that shares nothing. -/
def copy (shelf : Shelf) (c : Carried) : Carried :=
  ⟨c.draft, Scope.ofMemory (c.scope.toMemory shelf)⟩

def step (shelf : Shelf) (c : Carried) : Step → Shelf × Carried
  | .store path v =>
    let result := c.scope.set shelf path (.ofValue v)
    (result.1, ⟨c.draft, result.2⟩)
  | .share path key fields =>
    let shelf := if Shelf.has shelf key then shelf else Shelf.put shelf key (Held.ofFields fields)
    let result := c.scope.set shelf path (.shared key)
    (result.1, ⟨c.draft, result.2⟩)
  | s => (shelf, ⟨s.apply c.draft, c.scope⟩)

def steps (shelf : Shelf) (c : Carried) : List Step → Shelf × Carried
  | [] => (shelf, c)
  | s :: rest =>
    let result := step shelf c s
    steps result.1 result.2 rest

end Carried

namespace Walk

mutual

def harvest (shelf : Shelf) (c : Carried) : Walk → Shelf × List Carried
  | .sink action => (shelf, [⟨{ c.draft with action := some action }, c.scope⟩])
  | .pass copied steps next =>
    let arrived := if copied then c.copy shelf else c
    let result := arrived.steps shelf steps
    harvestAll (next.length > 1) result.1 result.2 next

def harvestAll (copied : Bool) (shelf : Shelf) (c : Carried) :
    List Walk → Shelf × List Carried
  | [] => (shelf, [])
  | w :: rest =>
    let first := harvest shelf (if copied then c.copy shelf else c) w
    let others := harvestAll copied first.1 c rest
    (others.1, first.2 ++ others.2)

end

def start (shelf : Shelf) (d : Draft) (w : Walk) : Shelf × List Carried :=
  harvest shelf (Carried.ofDraft d) w

end Walk

end EventFlow
