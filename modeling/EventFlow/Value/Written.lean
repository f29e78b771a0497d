import EventFlow.Text
import EventFlow.Text.Printable
import EventFlow.Value

/-!
The written forms of a value.

Two spellings share one layout, a comma and a space between entries and a colon and a space after a
name. In the `json` spelling texts stand in double quotes; `display` is the spelling of messages
and query fragments, where texts stand in single quotes unless they hold one and no double quote,
and a text that is not inside another value stands without quotes.
-/

namespace EventFlow

namespace Text

def hexDigits (width n : Nat) : List Char :=
  let ds := Nat.toDigits 16 n
  List.replicate (width - ds.length) '0' ++ ds

/-- A character inside double quotes: quote, backslash and control characters are escaped. -/
def escapeChar (c : Char) : List Char :=
  if c = '\x22' then ['\\', '\x22']
  else if c = '\\' then ['\\', '\\']
  else if c = '\n' then ['\\', 'n']
  else if c = '\r' then ['\\', 'r']
  else if c = '\t' then ['\\', 't']
  else if c = '\x0c' then ['\\', 'f']
  else if c = '\x08' then ['\\', 'b']
  else if c.toNat < 0x20 then '\\' :: 'u' :: hexDigits 4 c.toNat
  else [c]

def doubleQuoted (s : String) : List Char :=
  '\x22' :: s.toList.flatMap escapeChar ++ ['\x22']

/-- A character between two `quote`s: the quote, the backslash and what cannot be printed are
escaped. -/
def showChar (quote c : Char) : List Char :=
  if c = quote ∨ c = '\\' then ['\\', c]
  else if c = '\n' then ['\\', 'n']
  else if c = '\r' then ['\\', 'r']
  else if c = '\t' then ['\\', 't']
  else if isPrintable c then [c]
  else if c.toNat < 0x100 then '\\' :: 'x' :: hexDigits 2 c.toNat
  else if c.toNat < 0x10000 then '\\' :: 'u' :: hexDigits 4 c.toNat
  else '\\' :: 'U' :: hexDigits 8 c.toNat

/-- A text in single quotes, or in double quotes if it holds single and no double ones. -/
def singleQuoted (s : String) : List Char :=
  let cs := s.toList
  let quote := if cs.contains '\x27' && !cs.contains '\x22' then '\x22' else '\x27'
  quote :: cs.flatMap (showChar quote) ++ [quote]

end Text

namespace Value

structure Spelling where
  null : String
  yes : String
  no : String
  words : Number.Words
  text : String → List Char

def jsonSpelling : Spelling :=
  ⟨"null", "true", "false", ⟨"NaN", "Infinity"⟩, Text.doubleQuoted⟩

def displaySpelling : Spelling :=
  ⟨"None", "True", "False", ⟨"nan", "inf"⟩, Text.singleQuoted⟩

mutual

def write (sp : Spelling) : Value → List Char
  | .null => sp.null.toList
  | .bool b => (if b then sp.yes else sp.no).toList
  | .number n => n.write sp.words
  | .text s => sp.text s
  | .list items => '[' :: Text.join [',', ' '] (writeItems sp items) ++ [']']
  | .object fields => '\x7b' :: Text.join [',', ' '] (writeFields sp fields) ++ ['\x7d']

def writeItems (sp : Spelling) : List Value → List (List Char)
  | [] => []
  | v :: rest => write sp v :: writeItems sp rest

def writeFields (sp : Spelling) : List (String × Value) → List (List Char)
  | [] => []
  | (k, v) :: rest => (sp.text k ++ ':' :: ' ' :: write sp v) :: writeFields sp rest

end

mutual

/-- The value in the `json` spelling, an entry to a line, each level `step` further in. -/
def writeIndented (step : Nat) (depth : Nat) : Value → List Char
  | .list [] => ['[', ']']
  | .list items =>
    let inner := '\n' :: List.replicate (step * (depth + 1)) ' '
    '[' :: inner ++ Text.join (',' :: inner) (writeIndentedItems step (depth + 1) items) ++
      '\n' :: List.replicate (step * depth) ' ' ++ [']']
  | .object [] => ['\x7b', '\x7d']
  | .object fields =>
    let inner := '\n' :: List.replicate (step * (depth + 1)) ' '
    '\x7b' :: inner ++ Text.join (',' :: inner) (writeIndentedFields step (depth + 1) fields) ++
      '\n' :: List.replicate (step * depth) ' ' ++ ['\x7d']
  | v => write jsonSpelling v

def writeIndentedItems (step : Nat) (depth : Nat) : List Value → List (List Char)
  | [] => []
  | v :: rest => writeIndented step depth v :: writeIndentedItems step depth rest

def writeIndentedFields (step : Nat) (depth : Nat) : List (String × Value) → List (List Char)
  | [] => []
  | (k, v) :: rest =>
    (Text.doubleQuoted k ++ ':' :: ' ' :: writeIndented step depth v) ::
      writeIndentedFields step depth rest

end

def quoted (v : Value) : String :=
  String.ofList (write displaySpelling v)

/-- The value as a message shows it: like `quoted`, but a text stands for itself. -/
def display : Value → String
  | .text s => s
  | v => v.quoted

def json (v : Value) : String :=
  String.ofList (write jsonSpelling v)

def jsonLines (step : Int) (v : Value) : String :=
  String.ofList (writeIndented step.toNat 0 v)

end Value

end EventFlow
