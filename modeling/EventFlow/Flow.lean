import EventFlow.Failure
import EventFlow.Run

/-!
Flows: nodes, the descriptors they are read from, and the graph they make.

What all nodes have is in `Node`; what depends on the type is its `Kind`. An outlet is an output of
a node, and lists the ids of the nodes it is wired to. The type of a descriptor selects the fields
it is checked for. A type that is not known is no fault; the node is then passed over.

The nodes of a graph have distinct ids, and every wire ends at a node of the graph. Both facts are
part of the type, so whoever follows a wire finds its end (`find?_of_wired`).
-/

namespace EventFlow

/-- A degree of latitude or longitude, kept as it was written. -/
inductive Coordinate where
  | number (n : Number)
  | text (s : String)
deriving DecidableEq, Repr

structure Vertex where
  latitude : Coordinate
  longitude : Coordinate
deriving DecidableEq, Repr

structure Branch where
  tag : String
  value : Value := .null
  valueType : Option String := none
  /-- The upper bound of a range. -/
  upper : Value := .null
  upperType : Option String := none

structure Change where
  tag : String := "set"
  /-- The dotted path of the value that is changed. -/
  path : String
  value : Value := .null
  /-- How `value` is to be understood. -/
  valueType : String := "str"

inductive Kind where
  /-- A device that emits events. -/
  | source (deviceId deviceType : String)
  /-- Compares a property; rule `i` leads to outlet `i`. -/
  | switch (property : String) (rules : List Branch)
  /-- Watches a property cross a threshold; rule `i` leads to outlet `i`. -/
  | edge (property : String) (rules : List Branch)
  /-- Tests a position against a drawn shape. -/
  | geofence (points : Option (List Vertex)) (mode filter : Option String)
  | change (rules : List Change)
  | template (field template : String)
  /-- Updates attributes of a device. -/
  | update (deviceId deviceType attributes : String)
  | post (url method body : String)
  | email (recipient sender subject server body : String)
  /-- Forwards events to the history store. -/
  | history
  /-- A type that is passed over. -/
  | unsupported

structure Node where
  id : String
  type : String
  /-- The tab of the editor on which the node stands. -/
  tab : String := ""
  wires : List (List String) := []
  kind : Kind

namespace Node

def outlet (n : Node) (i : Nat) : List String :=
  n.wires.getD i []

/-- Like `outlet`, but a negative number counts from the last outlet; `none` if it counts too far. -/
def outletFromEnd? (n : Node) (i : Int) : Option (List String) :=
  match i with
  | .ofNat k => some (n.outlet k)
  | .negSucc k => if k < n.wires.length then some (n.outlet (n.wires.length - (k + 1))) else none

def isSource (n : Node) : Bool :=
  match n.kind with
  | .source .. => true
  | _ => false

end Node

/-! ### Descriptors -/

namespace Check

/-- A whole number, a floating point number or a text. True and false count as one and zero; any
other value fails as each of the three. -/
def coordinate : Check Coordinate
  | _, .number n => .ok (.number n)
  | _, .bool b => .ok (.number (.int (if b then 1 else 0)))
  | _, .text s => .ok (.text s)
  | path, _ =>
    .faulty [⟨path ++ [.name "int"], .notInteger⟩, ⟨path ++ [.name "float"], .notFloat⟩,
      ⟨path ++ [.name "str"], .notText⟩]

def vertex : Check Vertex :=
  record .notObject fun path fields =>
    Vertex.mk <$> required path fields "latitude" coordinate
      <*> required path fields "longitude" coordinate

def branch : Check Branch :=
  record .notObject fun path fields =>
    Branch.mk <$> required path fields "t" text
      <*> optional path fields "v" .null anything
      <*> optional path fields "vt" none (nullable text)
      <*> optional path fields "v2" .null anything
      <*> optional path fields "v2t" none (nullable text)

def change : Check Change :=
  record .notObject fun path fields =>
    Change.mk <$> optional path fields "t" "set" text
      <*> required path fields "p" text
      <*> optional path fields "to" .null anything
      <*> optional path fields "tot" "str" text

def kind (tag : Value) (fields : Fields Value) : Checked Kind :=
  let deviceId := either [] fields "_device_id" "device_id" "" text
  let deviceType := either [] fields "_device_type" "device_type" "" text
  let property := optional [] fields "property" "" text
  let body := optional [] fields "body" "payload" text
  match tag with
  | .text "device out" => Kind.source <$> deviceId <*> deviceType
  | .text "switch" => Kind.switch <$> property <*> optional [] fields "rules" [] (items branch)
  | .text "edgedetection" =>
    Kind.edge <$> property <*> optional [] fields "rules" [] (items branch)
  | .text "geofence" =>
    Kind.geofence <$> optional [] fields "points" none (nullable (items vertex))
      <*> optional [] fields "mode" none (nullable text)
      <*> optional [] fields "filter" none (nullable text)
  | .text "change" => Kind.change <$> optional [] fields "rules" [] (items change)
  | .text "template" =>
    Kind.template <$> optional [] fields "field" "payload" text
      <*> optional [] fields "template" "" text
  | .text "device in" =>
    Kind.update <$> deviceId <*> deviceType <*> optional [] fields "attrs" "payload" text
  | .text "http request out" =>
    Kind.post <$> optional [] fields "url" "" text
      <*> optional [] fields "method" "POST" text
      <*> body
  | .text "e-mail" =>
    Kind.email <$> optional [] fields "to" "" text
      <*> either [] fields "from" "sender" "" text
      <*> optional [] fields "subject" "" text
      <*> optional [] fields "server" "" text
      <*> body
  | .text "history" => .ok .history
  | _ => .ok .unsupported

def node (tag : Value) (fields : Fields Value) : Checked Node :=
  Node.mk <$> required [] fields "id" text
    <*> required [] fields "type" text
    <*> optional [] fields "z" "" text
    <*> optional [] fields "wires" [] (items (items text))
    <*> kind tag fields

end Check

namespace Node

def ofDescriptor (d : Value) : Except Failure Node :=
  match d with
  | .object fields =>
    let id := (Fields.get? fields "id").getD .null
    if id.isTruthy then
      let tag := (Fields.get? fields "type").getD (.text "")
      match Check.node tag fields with
      | .ok n => .ok n
      | .faulty faults => do
        let shownId ← id.display?
        let shownTag ← tag.display?
        .error (.flow (.invalidNode shownId shownTag faults))
    else do .error (.flow (.missingId (← d.quoted?)))
  | _ => do .error (.flow (.missingId (← d.quoted?)))

end Node

/-! ### Graphs -/

structure Graph where
  nodes : List Node
  distinct : (nodes.map Node.id).Nodup
  wired : ∀ n ∈ nodes, ∀ outlet ∈ n.wires, ∀ target ∈ outlet, target ∈ nodes.map Node.id

namespace Graph

def find? (g : Graph) (id : String) : Option Node :=
  g.nodes.find? (·.id == id)

theorem mem_of_find? {g : Graph} {id : String} {n : Node} (h : g.find? id = some n) :
    n ∈ g.nodes :=
  List.mem_of_find?_eq_some h

theorem id_of_find? {g : Graph} {id : String} {n : Node} (h : g.find? id = some n) : n.id = id := by
  simpa using List.find?_some h

theorem find?_of_wired {g : Graph} {n : Node} {outlet : List String} {target : String}
    (hn : n ∈ g.nodes) (houtlet : outlet ∈ n.wires) (ht : target ∈ outlet) :
    ∃ m, g.find? target = some m := by
  obtain ⟨m, hm, hid⟩ := List.mem_map.1 (g.wired n hn outlet houtlet target ht)
  have : (g.find? target).isSome := List.find?_isSome.2 ⟨m, hm, by simp [hid]⟩
  exact Option.isSome_iff_exists.1 this

def sources (g : Graph) : List Node :=
  g.nodes.filter Node.isSource

abbrev Distinct := { nodes : List Node // (nodes.map Node.id).Nodup }

def Distinct.add (seen : Distinct) (n : Node) (h : n.id ∉ seen.1.map Node.id) : Distinct :=
  ⟨seen.1 ++ [n], by
    rw [List.map_append, List.nodup_append]
    refine ⟨seen.2, by simp, ?_⟩
    intro a ha b hb hab
    simp only [List.map_cons, List.map_nil, List.mem_singleton] at hb
    exact h (hb ▸ hab ▸ ha)⟩

/-- Reads the descriptors one after the other behind the nodes seen so far. -/
def collect : Distinct → List Value → Except Failure Distinct
  | seen, [] => .ok seen
  | seen, d :: rest =>
    match Node.ofDescriptor d with
    | .error e => .error e
    | .ok n =>
      if h : n.id ∈ seen.1.map Node.id then .error (.flow (.duplicateId n.id))
      else collect (seen.add n h) rest

/-- The first wire, by node, outlet and place, that ends at none of the nodes: where it starts and
the id that is missing. -/
def dangling? (nodes : List Node) : Option (String × String) :=
  nodes.findSome? fun n =>
    (n.wires.flatten.find? fun target => !(nodes.map Node.id).contains target).map (n.id, ·)

theorem wired_of_dangling?_eq_none {nodes : List Node} (h : dangling? nodes = none) :
    ∀ n ∈ nodes, ∀ outlet ∈ n.wires, ∀ target ∈ outlet, target ∈ nodes.map Node.id := by
  intro n hn outlet houtlet target ht
  have hnone := List.findSome?_eq_none_iff.1 h n hn
  have hflat : target ∈ n.wires.flatten := List.mem_flatten.2 ⟨outlet, houtlet, ht⟩
  have := List.find?_eq_none.1 (Option.map_eq_none_iff.1 hnone) target hflat
  simpa using this

def ofNodes (nodes : Distinct) : Except Failure Graph :=
  match h : dangling? nodes.1 with
  | some (source, target) => .error (.flow (.danglingWire source target))
  | none => .ok ⟨nodes.1, nodes.2, wired_of_dangling?_eq_none h⟩

def ofDescriptors (descriptors : List Value) : Traced Failure Graph := do
  let nodes ← Run.ofExcept (collect ⟨[], by simp⟩ descriptors)
  Run.debug ("Parsed flow graph with " ++ Text.ofNat nodes.1.length ++ " nodes")
  Run.ofExcept (ofNodes nodes)

end Graph

end EventFlow
