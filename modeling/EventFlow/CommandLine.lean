import EventFlow.Deployment

/-!
The command line: the plan for a flow in a file is printed, and, if ids are given, so are the rules
that these ids release.

The program takes a command, and the command takes a file and options. An option may be shortened as
long as no other begins the same way, and takes its value from behind an equals sign or from the
next argument. Behind `--` everything is a plain argument. A file that cannot be read and a flow
that has no plan are reported and end the command. Any other failure is not handled.
-/

namespace EventFlow.CommandLine

/-! ### Arguments -/

inductive Arguments where
  /-- To explain the usage. -/
  | help
  /-- The arguments make no sense. -/
  | misuse
  | plan (file : String) (flowId ids : Option String) (indent : Option Int)
deriving DecidableEq, Repr

inductive OptionName where
  | help
  | flowId
  | ids
  | indent
deriving DecidableEq, Repr

inductive Word where
  | plain (text : String)
  /-- The mark behind which everything is plain. -/
  | divider
  /-- An option, with what stands behind its equals sign. -/
  | option (name : OptionName) (value : Option String)
  /-- The short form of help with letters behind it, directly or behind an equals sign. -/
  | shortHelp (letters : List Char)
  | unknown
  /-- A shortened option that could be several. -/
  | ambiguous

def mainOptions : List (String × OptionName) := [("--help", .help)]

def commandOptions : List (String × OptionName) :=
  [("--help", .help), ("--flow-id", .flowId), ("--ids", .ids), ("--indent", .indent)]

/-- A minus sign, and digits with at most one point that has digits behind it. A line break at the
end is overlooked. -/
def looksNegative (cs : List Char) : Bool :=
  let isDigit := fun c => (Text.digitValue? c).isSome
  match cs with
  | '-' :: rest =>
    let body := if rest.getLast? = some '\n' then rest.dropLast else rest
    let afterWhole := body.dropWhile isDigit
    match afterWhole with
    | [] => !body.isEmpty
    | '.' :: fraction => !fraction.isEmpty && fraction.all isDigit
    | _ => false
  | _ => false

def cutValue (cs : List Char) : List Char × Option (List Char) :=
  match cs.dropWhile (· != '=') with
  | [] => (cs, none)
  | _ :: value => (cs.takeWhile (· != '='), some value)

def readWord (options : List (String × OptionName)) (text : String) : Word :=
  let (stem, value) := cutValue text.toList
  let value := value.map String.ofList
  match text.toList with
  | [] | ['-'] => .plain text
  | '-' :: second :: rest =>
    if text = "-h" then .option .help none
    else match options.find? (·.1 == text) with
      | some (_, name) => .option name none
      | none =>
        match options.find? (·.1.toList == stem) with
        | some (_, name) => .option name value
        | none =>
          let noOption : Word :=
            if looksNegative text.toList || text.toList.contains ' ' then .plain text else .unknown
          if second = '-' then
            match options.filter fun o => stem.isPrefixOf o.1.toList with
            | [] => noOption
            | [(_, name)] => .option name value
            | _ => .ambiguous
          else if second = 'h' then
            match stem, value with
            | ['-', 'h'], some letters => .shortHelp letters.toList
            | _, _ => .shortHelp rest
          else noOption
  | _ => .plain text

/-- Reads the arguments up to the divider as words, and those behind it as plain. -/
def readWords (options : List (String × OptionName)) : List String → List Word
  | [] => []
  | text :: rest =>
    if text = "--" then .divider :: rest.map .plain
    else readWord options text :: readWords options rest

/-- What the letters behind the short form of help make of it: further `h`s repeat it, and anything
else is a mistake. -/
def shortHelp (letters : List Char) : Arguments :=
  if !letters.isEmpty && letters.all (· == 'h') then .help else .misuse

structure Progress where
  file : Option String := none
  flowId : Option String := none
  ids : Option String := none
  indent : Option Int := some 2
  /-- Something was left over that belongs nowhere. -/
  leftOver : Bool := false

namespace Progress

def put (p : Progress) (name : OptionName) (value : String) : Option Progress :=
  match name with
  | .help => none
  | .flowId => some { p with flowId := some value }
  | .ids => some { p with ids := some value }
  | .indent => (Numeral.integer? value).map fun n => { p with indent := some n }

def clear (p : Progress) : OptionName → Progress
  | .help => p
  | .flowId => { p with flowId := none }
  | .ids => { p with ids := none }
  | .indent => { p with indent := none }

def finish (p : Progress) : Arguments :=
  match p.file with
  | none => .misuse
  | some file => if p.leftOver then .misuse else .plan file p.flowId p.ids p.indent

def takePlain (p : Progress) (text : String) : Progress :=
  match p.file with
  | none => { p with file := some text }
  | some _ => { p with leftOver := true }

end Progress

/-- Takes the words of the command one after the other. A request for help counts as soon as it is
reached, and so does a mistake. A divider has its place beside the file and nowhere else; behind the
equals sign of an option it leaves the option without a value. -/
def takeWords (p : Progress) : List Word → Arguments
  | [] => p.finish
  | .plain text :: .divider :: rest => takeWords (p.takePlain text) rest
  | .plain text :: rest => takeWords (p.takePlain text) rest
  | .divider :: rest => takeWords { p with leftOver := p.leftOver || p.file.isSome } rest
  | .option .help none :: _ => .help
  | .option .help (some _) :: _ => .misuse
  | .option name (some "--") :: rest => takeWords (p.clear name) rest
  | .option name (some value) :: rest =>
    match p.put name value with
    | some p => takeWords p rest
    | none => .misuse
  | .option name none :: .plain value :: rest =>
    match p.put name value with
    | some p => takeWords p rest
    | none => .misuse
  | .option _ none :: _ => .misuse
  | .shortHelp letters :: _ => shortHelp letters
  | .unknown :: rest => takeWords { p with leftOver := true } rest
  | .ambiguous :: _ => .misuse

def isAmbiguous : Word → Bool
  | .ambiguous => true
  | _ => false

def parseCommand (args : List String) : Arguments :=
  let words := readWords commandOptions args
  if words.any isAmbiguous then .misuse else takeWords {} words

/-- The arguments of the program. Everything behind the command belongs to it. -/
def parseFrom (leftOver : Bool) : List Word → List String → Arguments
  | .plain command :: _, _ :: args =>
    if command = "translate" then
      match parseCommand args with
      | .plan file flowId ids indent =>
        if leftOver then .misuse else .plan file flowId ids indent
      | other => other
    else .misuse
  | .option .help none :: _, _ => .help
  | .shortHelp letters :: _, _ => shortHelp letters
  | .unknown :: words, _ :: args => parseFrom true words args
  | [], [] => if leftOver then .misuse else .help
  | _, _ => .misuse

def parse (args : List String) : Arguments :=
  parseFrom false (readWords mainOptions args) args

/-! ### The command -/

inductive Outcome where
  /-- The usage is to be explained. -/
  | help
  /-- The arguments make no sense. -/
  | misuse
  /-- The command could not do its work. -/
  | unfinished
  | finished (output : String)

namespace Outcome

def status : Outcome → Nat
  | .help | .finished _ => 0
  | .unfinished => 1
  | .misuse => 2

end Outcome

/-- The name of a file without its directory and without what stands behind the last point. A point
at the beginning or at the end of the name belongs to it. -/
def stem (path : String) : String :=
  let names := (Text.split '/' path.toList).filter fun s => s ≠ [] && s ≠ ['.']
  let name := names.getLast?.getD []
  let ending := Text.afterLast '.' name
  let front := name.take (name.length - (ending.length + 1))
  if ending = [] ∨ front = [] then String.ofList name else String.ofList front

/-- The descriptors in a file and the id of the flow. The id is the one given, the one in the file,
or the name of the file, whichever is there first. -/
def flowOf (data : Value) (file : String) (flowId : Option String) : Value × Value :=
  let given := (flowId.filter (· ≠ "")).map Value.text
  match data with
  | .object fields =>
    let inside := (Fields.get? fields "id").filter Value.isTruthy
    ((Fields.get? fields "flow").getD (.list []),
      (given.or inside).getD (.text (stem file)))
  | v => (v, given.getD (.text (stem file)))

def splitIds (ids : String) : List String :=
  ((Text.split ',' ids.toList).map fun s => Text.trim (String.ofList s)).filter (· ≠ "")

def rulesField (plan : Plan) (ids : String) : Traced Failure (Fields Value) := do
  let ids := splitIds ids
  if ids.length < plan.requests.length then
    Run.warn (Text.ofNat plan.requests.length ++ " subscriptions but only " ++
      Text.ofNat ids.length ++ " ids, some rules will not be ready")
  let rules ← fun _ =>
    let ended := Gate.releaseAll (plan.requests.zip ids) plan.drafts
    ⟨(), ended.log, ended.outcome⟩
  return [("rules", .list (rules.map Rule.payload))]

/-- Prints the plan for a flow. `contents` is the text of the file, if it can be read. -/
def showPlan (lookup : String → Option String) (contents : Option String) (file : String)
    (flowId ids : Option String) (indent : Option Int) : Traced Failure Outcome := do
  match contents.map Value.read with
  | none | some (.error .malformed) =>
    Run.error ("Cannot read flow file " ++ file)
    return .unfinished
  | some (.error .overlong) => Run.fail .overlong
  | some (.ok data) =>
    let (flow, id) := flowOf data file flowId
    let settings ← Run.ofExcept (Settings.ofEnvironment lookup)
    match ← Run.attempt (Plan.ofFlow settings flow id none) with
    | .error (.flow e) =>
      Run.error ("Translation failed: " ++ e.message)
      return .unfinished
    | .error e => Run.fail e
    | .ok plan =>
      let rules ← match ids with
        | none | some "" => pure []
        | some ids => rulesField plan ids
      let output : Value := .object
        ([("flow_id", plan.flowId), ("subscriptions", .list plan.requestSummaries)] ++ rules)
      match indent with
      | some indent => return .finished (output.jsonLines indent ++ "\n")
      | none => Run.fail .noIndent

def run (lookup read : String → Option String) (args : List String) : Traced Failure Outcome :=
  match parse args with
  | .help => pure .help
  | .misuse => pure .misuse
  | .plan file flowId ids indent =>
    if file.toList.contains '\x00' then Run.fail .unnamableFile
    else showPlan lookup (read file) file flowId ids indent

end EventFlow.CommandLine
