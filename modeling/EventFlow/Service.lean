import EventFlow.Deployment
import EventFlow.Text.Encoding

/-!
The HTTP service: a request is routed, its body is checked, and the flow in it is planned or
deployed.

A body is read as JSON if its content type says so or is not given. Any other body counts as the
text that it is. The body has to be readable before anything else is looked at; then the settings
are read from the environment, and then the body is checked. A flow that has no plan is the client's
fault; any other failure is not answered. Beside its own endpoints the service has pages that
describe it.

The target of a request may have a scheme and an authority in front of its path, and a query and a
fragment behind it. A target that lacks a scheme or an authority is taken relative to the service:
slashes in front of its path are dropped, and the path starts at the root. The segments `.` and `..`
are removed after that, so an empty segment that they leave in front stays. Percent escapes are
undone last.
-/

namespace EventFlow

/-! ### The body -/

namespace Body

/-- The type and the subtype of a content type, in lower case and without parameters. What is not
written as a type and a subtype is plain text. -/
def mediaType (contentType : String) : List Char × List Char :=
  let front := Text.trim (String.ofList (contentType.toList.takeWhile (· != ';')))
  match Text.split '/' (front.toList.map Char.toLower) with
  | [main, sub] => (main, sub)
  | _ => ("text".toList, "plain".toList)

def isJson (headers : Headers) : Bool :=
  match headers.first? "content-type" with
  | none | some "" => true
  | some contentType =>
    let (main, sub) := mediaType contentType
    main == "application".toList && (sub == "json".toList || "+json".toList.isSuffixOf sub)

inductive Error where
  | malformed
  /-- The bytes are in no encoding, or a number is beyond the digit limit. -/
  | undecodable
deriving DecidableEq, Repr

/-- The value that a text writes in JSON. The text may be in any encoding; a mark in front of it
settles that. -/
def readJson (text : String) : Except Error Value :=
  let decoded := match text.toList with
    | '\ufeff' :: rest => some (String.ofList rest)
    | _ => Text.recode? text
  match decoded.map Value.read with
  | some (.ok v) => .ok v
  | some (.error .malformed) => .error .malformed
  | some (.error .overlong) | none => .error .undecodable

def read (headers : Headers) : Option String → Except Error (Option Value)
  | none | some "" => .ok none
  | some text => if isJson headers then (readJson text).map some else .ok (some (.text text))

end Body

/-! ### The target -/

namespace Target

/-- The character that an escape stands for. One that is only a part of a character is shown as a
replacement, as no path has it. -/
def escapedChar? (high low : Char) : Option Char := do
  let n := (← Text.hexValue? high) * 16 + (← Text.hexValue? low)
  return if n < 128 then Char.ofNat n else '\ufffd'

/-- Undoes the percent escapes; a percent sign without two digits behind it stands for itself. -/
def unescape : List Char → List Char
  | '%' :: high :: low :: rest =>
    match escapedChar? high low with
    | some c => c :: unescape rest
    | none => '%' :: unescape (high :: low :: rest)
  | c :: rest => c :: unescape rest
  | [] => []

/-- The segments that are left when `.` stays where it is and `..` goes one up. Nothing is above the
first segment of a path that starts with a slash. -/
def keptSegments (segments : List (List Char)) : List (List Char) :=
  segments.foldl (fun kept segment =>
    if segment = ['.'] then kept
    else if segment = ['.', '.'] then
      if kept = [] ∨ kept = [[]] then kept else kept.dropLast
    else kept ++ [segment]) []

def removeDots (path : List Char) : List Char :=
  Text.join ['/'] (keptSegments (Text.split '/' path))

/-- What stands in front of the query and the fragment of a target. A missing part is empty. -/
structure Parts where
  scheme : List Char
  authority : List Char
  path : List Char
deriving DecidableEq, Repr

def isSchemeChar (c : Char) : Bool :=
  c.isAlphanum || c = '+' || c = '-' || c = '.'

/-- Cuts off a scheme: a colon with nothing in front of it, or a letter and more scheme characters. -/
def cutScheme (cs : List Char) : List Char × List Char :=
  let scheme := cs.takeWhile isSchemeChar
  match cs.dropWhile isSchemeChar with
  | ':' :: rest => if scheme.head?.all Char.isAlpha then (scheme, rest) else ([], cs)
  | _ => ([], cs)

def cutAuthority : List Char → List Char × List Char
  | '/' :: '/' :: rest => (rest.takeWhile (· != '/'), rest.dropWhile (· != '/'))
  | cs => ([], cs)

def Parts.ofTarget (target : String) : Parts :=
  let front := target.toList.takeWhile fun c => c != '#' && c != '?'
  let (scheme, rest) := cutScheme front
  let (authority, path) := cutAuthority rest
  ⟨scheme, authority, path⟩

namespace Parts

def isAbsolute (parts : Parts) : Bool :=
  !parts.scheme.isEmpty && !parts.authority.isEmpty

def isPathOnly (parts : Parts) : Bool :=
  parts.scheme.isEmpty && parts.authority.isEmpty

def rootedPath (parts : Parts) : List Char :=
  if parts.isAbsolute then removeDots parts.path
  else
    let path := if parts.isPathOnly then parts.path else removeDots parts.path
    removeDots ('/' :: path.dropWhile (· == '/'))

end Parts

/-- The path of a target. Escapes are undone once on the way and once on arrival. -/
def path (target : String) : String :=
  match (Parts.ofTarget target).rootedPath with
  | [] => "/"
  | rooted => String.ofList (unescape (unescape rooted))

end Target

/-! ### The answer -/

structure HttpRequest where
  method : String
  target : String
  headers : Headers := []
  /-- The text of the body, if one was sent. -/
  body : Option String := none

structure HttpResponse where
  status : Nat
  body : Value

namespace Service

def name : String := "Flow Rules Service"

inductive Page where
  | reference
  | authorization
  | manual
  | schema
deriving DecidableEq, Repr

inductive Endpoint where
  | health
  | plan
  | deploy
  | page (p : Page)
deriving DecidableEq, Repr

namespace Endpoint

def all : List Endpoint :=
  [.health, .plan, .deploy, .page .reference, .page .authorization, .page .manual, .page .schema]

def path : Endpoint → String
  | .health => "/health"
  | .plan => "/v1/flow/translate"
  | .deploy => "/v1/flow"
  | .page .reference => "/docs"
  | .page .authorization => "/docs/oauth2-redirect"
  | .page .manual => "/redoc"
  | .page .schema => "/openapi.json"

def methods : Endpoint → List String
  | .health => ["GET"]
  | .plan | .deploy => ["POST"]
  | .page _ => ["GET", "HEAD"]

/-- The endpoint at a path; slashes at its end are overlooked. -/
def ofPath? (path : String) : Option Endpoint :=
  match all.find? (·.path == path) with
  | some endpoint => some endpoint
  | none => all.find? (·.path == Text.dropTrailing '/' path)

end Endpoint

def detail (status : Nat) (message : String) : HttpResponse :=
  ⟨status, .object [("detail", .text message)]⟩

def faultValue (fault : Fault) : Value :=
  .object [
    ("loc", .list (fault.path.map fun
      | .name s => .text s
      | .index n => .int n)),
    ("type", .text fault.kind.name)]

def valueAt? : Value → List Key → Option Value
  | v, [] => some v
  | .object fields, .name s :: rest => (Fields.get? fields s).bind (valueAt? · rest)
  | .list items, .index n :: rest => items[n]?.bind (valueAt? · rest)
  | _, _ => none

/-- What the report of a fault quotes: the value at fault, or the one that lacks a field. -/
def quoted (root : Value) (fault : Fault) : Value :=
  let path := if fault.kind = .missing then fault.path.dropLast else fault.path
  (valueAt? root path).getD .null

/-- The answer to a request whose body has faults. A report can only quote finite numbers. -/
def unprocessable (body : Option Value) (faults : List Fault) : Except Failure HttpResponse :=
  let root : Value := match body with
    | some v => .object [("body", v)]
    | none => .object []
  if faults.all fun fault => (quoted root fault).isFinite then
    .ok ⟨422, .list (faults.map faultValue)⟩
  else .error .notFinite

def answer (summary : Checked Value) : Except Failure HttpResponse :=
  match summary with
  | .ok v => .ok ⟨200, v⟩
  | .faulty faults => .error (.misshapen faults)

structure FlowRequest where
  id : String
  flow : List Value

def nonEmptyText : Check String
  | path, .text s => if s = "" then .faulty [⟨path, .textTooShort⟩] else .ok s
  | path, v => Check.text path v

def mapping : Check Value
  | _, .object fields => .ok (.object fields)
  | path, _ => .faulty [⟨path, .notMapping⟩]

def flowRequest : Check FlowRequest :=
  Check.record .notAttributes fun path fields =>
    FlowRequest.mk <$> Check.required path fields "id" nonEmptyText
      <*> Check.optional path fields "flow" [] (Check.items mapping)

def unreadable : Body.Error → HttpResponse
  | .malformed => ⟨422, .list [faultValue ⟨[.name "body"], .notJson⟩]⟩
  | .undecodable => detail 400 "There was an error parsing the body"

def checkBody : Option Value → Checked FlowRequest
  | none => .faulty [⟨[.name "body"], .missing⟩]
  | some v => flowRequest [.name "body"] v

def plan (settings : Settings) (request : FlowRequest) (service : Option String) :
    Traced Failure (Except HttpResponse Plan) := do
  let result ← Run.attempt
    (Plan.ofFlow settings (.list request.flow) (.text request.id) service)
  match result with
  | .ok t => return .ok t
  | .error (.flow e) =>
    Run.warn ("Flow " ++ request.id ++ ": translation failed - " ++ e.message)
    return .error (detail 400 e.message)
  | .error e => Run.fail e

variable {κ : Type}

def deploy (client : Client κ) (settings : Settings) (request : FlowRequest)
    (service servicePath : Option String) : Run κ Failure HttpResponse := do
  match ← Run.lift (plan settings request service) with
  | .error response => return response
  | .ok t =>
    let dispatcher : Dispatcher κ := ⟨settings, client, true⟩
    let deployment ← dispatcher.deployAndClose t (tenantHeaders service servicePath)
    if !deployment.isOk then
      Run.warn ("Flow " ++ request.id ++ ": deployed with " ++
        Text.ofNat deployment.errors.length ++ " errors")
    Run.ofExcept (answer deployment.summary)

def respondWithFlow (client : Client κ) (lookup : String → Option String) (request : HttpRequest)
    (deploys : Bool) : Run κ Failure HttpResponse :=
  match Body.read request.headers request.body with
  | .error e => pure (unreadable e)
  | .ok body => do
    let settings ← Run.ofExcept (Settings.ofEnvironment lookup)
    match checkBody body with
    | .faulty faults => Run.ofExcept (unprocessable body faults)
    | .ok flow =>
      let service := Headers.first? request.headers "fiware-service"
      let servicePath := Headers.first? request.headers "fiware-servicepath"
      if deploys then deploy client settings flow service servicePath
      else match ← Run.lift (plan settings flow service) with
        | .error response => return response
        | .ok t => Run.ofExcept (answer t.summary)

/-- Answers a request. The pages are left to whoever shows them. -/
def respond (client : Client κ) (lookup : String → Option String) (request : HttpRequest) :
    Run κ Failure HttpResponse :=
  match Endpoint.ofPath? (Target.path request.target) with
  | none => pure (detail 404 "Not Found")
  | some endpoint =>
    if request.method ∉ endpoint.methods then pure (detail 405 "Method Not Allowed")
    else match endpoint with
      | .health => pure ⟨200, .object [("status", .text "healthy")]⟩
      | .page _ => pure ⟨200, .null⟩
      | .plan => respondWithFlow client lookup request false
      | .deploy => respondWithFlow client lookup request true

def startup (lookup : String → Option String) : Traced Failure Unit := do
  let settings ← Run.ofExcept (Settings.ofEnvironment lookup)
  Run.info ("Starting " ++ name ++ "...")
  Run.info ("Server running on port " ++ (lookup "PORT").getD "3000")
  Run.info ("RULE_ENGINE_URL: " ++ settings.ruleEngine)
  Run.info ("BROKER_URL: " ++ settings.broker)
  Run.info ("HISTORY_URL: " ++ settings.history)
  Run.info "Ready for requests"

def shutdown : Traced Failure Unit :=
  Run.info ("Shutting down " ++ name ++ "...")

end Service

end EventFlow
