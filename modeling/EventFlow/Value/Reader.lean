import EventFlow.Value.Token

/-!
Reading a value from its `json` spelling.

The reader is a fold over the tokens. Its state is what it may accept next, and a stack of the
lists and objects that are still open. An object that repeats a name keeps the first place and the
last value.
-/

namespace EventFlow

inductive ReadError where
  /-- The text is not the spelling of a value. -/
  | malformed
  /-- A whole number has too many digits. -/
  | overlong
deriving DecidableEq, Repr

namespace Reader

inductive Frame where
  /-- The items so far, the last one first. -/
  | list (items : List Value)
  | object (fields : Fields Value)
  /-- An object whose member `name` waits for its value. -/
  | member (fields : Fields Value) (name : String)

inductive Expecting where
  | value
  /-- A value, or the end of an empty list. -/
  | firstItem
  /-- A name, or the end of an empty object. -/
  | firstName
  | name
  | colon
  /-- A comma, or the end of the innermost list or object. -/
  | separator
  /-- Nothing more: the value is complete. -/
  | nothing (v : Value)

structure State where
  frames : List Frame
  expecting : Expecting

def start : State := ⟨[], .value⟩

def complete (v : Value) : List Frame → State
  | [] => ⟨[], .nothing v⟩
  | .list items :: frames => ⟨.list (v :: items) :: frames, .separator⟩
  | .object fields :: frames => ⟨.object fields :: frames, .separator⟩
  | .member fields name :: frames => ⟨.object (Fields.put fields name v) :: frames, .separator⟩

def beginValue (frames : List Frame) : Token → Except ReadError State
  | .openList => .ok ⟨.list [] :: frames, .firstItem⟩
  | .openObject => .ok ⟨.object [] :: frames, .firstName⟩
  | .text s => .ok (complete (.text s) frames)
  | .scalar v => .ok (complete v frames)
  | .overlong => .error .overlong
  | _ => .error .malformed

def close (t : Token) : List Frame → Except ReadError State
  | .list items :: frames =>
    match t with
    | .closeList => .ok (complete (.list items.reverse) frames)
    | _ => .error .malformed
  | .object fields :: frames =>
    match t with
    | .closeObject => .ok (complete (.object fields) frames)
    | _ => .error .malformed
  | _ => .error .malformed

def beginMember (t : Token) : List Frame → Except ReadError State
  | .object fields :: frames =>
    match t with
    | .text name => .ok ⟨.member fields name :: frames, .colon⟩
    | _ => .error .malformed
  | _ => .error .malformed

def step (s : State) (t : Token) : Except ReadError State :=
  match s.expecting with
  | .value => beginValue s.frames t
  | .firstItem =>
    match t with
    | .closeList => close t s.frames
    | _ => beginValue s.frames t
  | .firstName =>
    match t with
    | .closeObject => close t s.frames
    | _ => beginMember t s.frames
  | .name => beginMember t s.frames
  | .colon =>
    match t with
    | .colon => .ok ⟨s.frames, .value⟩
    | _ => .error .malformed
  | .separator =>
    match t, s.frames with
    | .comma, .list _ :: _ => .ok ⟨s.frames, .value⟩
    | .comma, .object _ :: _ => .ok ⟨s.frames, .name⟩
    | _, _ => close t s.frames
  | .nothing _ => .error .malformed

def run : State → List Token → Except ReadError State
  | s, [] => .ok s
  | s, t :: ts =>
    match step s t with
    | .ok s' => run s' ts
    | .error e => .error e

end Reader

namespace Value

/-- The value that a text spells, with whole numbers of at most `digitLimit` digits. -/
def readWithin (digitLimit : Nat) (s : String) : Except ReadError Value :=
  match Reader.run Reader.start (Token.scan digitLimit s.toList) with
  | .error e => .error e
  | .ok state =>
    match state.expecting with
    | .nothing v => .ok v
    | _ => .error .malformed

def read (s : String) : Except ReadError Value :=
  readWithin Numeral.digitLimit s

end Value

end EventFlow
