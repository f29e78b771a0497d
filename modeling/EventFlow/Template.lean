import EventFlow.Failure
import EventFlow.Fields
import EventFlow.Text

/-!
Templates: texts in which double braces hold paths of message fields.

A template is cut into plain pieces and placeholders in one scan from left to right. A placeholder
ends at the first double closing brace behind its opening one; the text from an opening brace that
is never closed is plain. Resolving writes a reference to the last segment of each path and lists
the names that are referred to.
-/

namespace EventFlow

namespace Template

inductive Piece where
  | plain (text : List Char)
  | placeholder (body : List Char)

/-- Cuts a text at the first place where `c` stands twice in a row. -/
def cutAtPair (c : Char) : List Char → Option (List Char × List Char)
  | a :: b :: rest =>
    if a = c ∧ b = c then some ([], rest)
    else (cutAtPair c (b :: rest)).map fun (before, after) => (a :: before, after)
  | _ => none

theorem length_cutAtPair {c : Char} {cs before after : List Char}
    (h : cutAtPair c cs = some (before, after)) :
    before.length + after.length + 2 = cs.length := by
  fun_induction cutAtPair c cs generalizing before after with
  | case1 a b rest hab => simp at h; simp [h.1, h.2]
  | case2 a b rest hab ih =>
    simp only [Option.map_eq_some_iff, Prod.mk.injEq] at h
    obtain ⟨⟨x, y⟩, hxy, rfl, rfl⟩ := h
    have := ih hxy
    simp only [List.length_cons] at this ⊢
    omega
  | case3 => simp at h

def nextPlaceholder (cs : List Char) : Option (List Char × List Char × List Char) :=
  (cutAtPair '\x7b' cs).bind fun (before, rest) =>
    (cutAtPair '\x7d' rest).map fun (body, after) => (before, body, after)

theorem length_nextPlaceholder {cs before body after : List Char}
    (h : nextPlaceholder cs = some (before, body, after)) : after.length < cs.length := by
  simp only [nextPlaceholder, Option.bind_eq_some_iff, Option.map_eq_some_iff, Prod.mk.injEq] at h
  obtain ⟨⟨x, rest⟩, hopen, ⟨y, z⟩, hclose, _, _, rfl⟩ := h
  have h1 := length_cutAtPair hopen
  have h2 : y.length + z.length + 2 = rest.length := length_cutAtPair hclose
  show z.length < cs.length
  omega

def pieces (cs : List Char) : List Piece :=
  match _h : nextPlaceholder cs with
  | none => [.plain cs]
  | some (before, body, after) => .plain before :: .placeholder body :: pieces after
termination_by cs.length
decreasing_by exact length_nextPlaceholder _h

def name (path : List Char) : List Char :=
  Text.afterLast '.' (Text.trimWhile Text.isBlank path)

def Piece.write : Piece → List Char
  | .plain text => text
  | .placeholder body => '$' :: '\x7b' :: name body ++ ['\x7d']

/-- The name a piece refers to, if it is not empty. -/
def Piece.name? : Piece → Option String
  | .plain _ => none
  | .placeholder body => if (name body).isEmpty then none else some (String.ofList (name body))

end Template

structure Resolved (α : Type) where
  value : α
  names : List String

namespace Template

def resolve (template : String) : Resolved String :=
  let ps := pieces template.toList
  { value := String.ofList (ps.flatMap Piece.write)
    names := Names.addAll [] (ps.filterMap Piece.name?) }

end Template

namespace Value

/-- Resolves the placeholders in a value. Lists and objects are resolved in their `json` spelling,
which is then read back. -/
def resolve (v : Value) : Except Failure (Resolved Value) :=
  match v with
  | .list _ | .object _ => do
    let resolved := Template.resolve (← v.json?)
    match Value.read resolved.value with
    | .ok w => .ok ⟨w, resolved.names⟩
    | .error e => .error (.ofReadError e)
  | .text s =>
    let resolved := Template.resolve s
    .ok ⟨.text resolved.value, resolved.names⟩
  | v => .ok ⟨v, []⟩

end Value

end EventFlow
