import EventFlow.Proofs.Planning
import EventFlow.Proofs.Reading
import EventFlow.Proofs.Shapes

/-!
The declared shapes of nodes.

What a node is read from is declared here field by field (`Node.declared`): the fields of every node
and, behind them, those of its type. The reader of descriptors passes exactly the descriptors with
these fields, and holds what they give and the defaults for the rest (`Node.toFields`).
-/

namespace EventFlow

/-! ### The table of fields -/

namespace Shape

def vertex : Shape :=
  .record [.required "latitude" .coordinate, .required "longitude" .coordinate]

def branch : Shape :=
  .record [.required "t" .text, .optional "v" .anything .null,
    .optional "vt" (.nullable .text) .null, .optional "v2" .anything .null,
    .optional "v2t" (.nullable .text) .null]

def change : Shape :=
  .record [.optional "t" .text (.text "set"), .required "p" .text, .optional "to" .anything .null,
    .optional "tot" .text (.text "str")]

end Shape

def Kind.declared : String → List (Declared Shape)
  | "device out" =>
    [.aliased "_device_id" "device_id" .text (.text ""),
      .aliased "_device_type" "device_type" .text (.text "")]
  | "switch" | "edgedetection" =>
    [.optional "property" .text (.text ""), .optional "rules" (.items .branch) (.list [])]
  | "geofence" =>
    [.optional "points" (.nullable (.items .vertex)) .null,
      .optional "mode" (.nullable .text) .null, .optional "filter" (.nullable .text) .null]
  | "change" => [.optional "rules" (.items .change) (.list [])]
  | "template" =>
    [.optional "field" .text (.text "payload"), .optional "template" .text (.text "")]
  | "device in" =>
    [.aliased "_device_id" "device_id" .text (.text ""),
      .aliased "_device_type" "device_type" .text (.text ""),
      .optional "attrs" .text (.text "payload")]
  | "http request out" =>
    [.optional "url" .text (.text ""), .optional "method" .text (.text "POST"),
      .optional "body" .text (.text "payload")]
  | "e-mail" =>
    [.optional "to" .text (.text ""), .aliased "from" "sender" .text (.text ""),
      .optional "subject" .text (.text ""), .optional "server" .text (.text ""),
      .optional "body" .text (.text "payload")]
  | _ => []

/-- The types whose nodes are not passed over. -/
def Kind.tags : List String :=
  ["device out", "switch", "edgedetection", "geofence", "change", "template", "device in",
    "http request out", "e-mail", "history"]

theorem Kind.declared_eq_nil {type : String} (h : type ∉ tags) : declared type = [] := by
  rw [declared.eq_def]
  split
  case h_10 => rfl
  all_goals exact absurd (by decide) h

namespace Node

def common : List (Declared Shape) :=
  [.required "id" .text, .required "type" .text, .optional "z" .text (.text ""),
    .optional "wires" (.items (.items .text)) (.list [])]

def declared (type : String) : List (Declared Shape) :=
  common ++ Kind.declared type

/-- No type gives a name of every node another meaning. -/
theorem disjoint_declared (type : String) :
    ∀ f ∈ common, ∀ g ∈ Kind.declared type, ∀ name ∈ f.names, name ∉ g.names := by
  rw [Kind.declared.eq_def]
  split <;> decide

end Node

/-! ### What nodes hold -/

def Value.ofOption {α : Type} (write : α → Value) (a? : Option α) : Value :=
  a?.elim .null write

def Value.ofList {α : Type} (write : α → Value) (as : List α) : Value :=
  .list (as.map write)

def Vertex.toFields (v : Vertex) : Fields Value :=
  [("latitude", v.latitude.toValue), ("longitude", v.longitude.toValue)]

def Branch.toFields (rule : Branch) : Fields Value :=
  [("t", .text rule.tag), ("v", rule.value), ("vt", .ofOption .text rule.valueType),
    ("v2", rule.upper), ("v2t", .ofOption .text rule.upperType)]

def Change.toFields (rule : Change) : Fields Value :=
  [("t", .text rule.tag), ("p", .text rule.path), ("to", rule.value), ("tot", .text rule.valueType)]

namespace Kind

/-- The type of the nodes of a kind, if it is not one that is passed over. -/
def tag? : Kind → Option String
  | .source .. => some "device out"
  | .switch .. => some "switch"
  | .edge .. => some "edgedetection"
  | .geofence .. => some "geofence"
  | .change .. => some "change"
  | .template .. => some "template"
  | .update .. => some "device in"
  | .post .. => some "http request out"
  | .email .. => some "e-mail"
  | .history => some "history"
  | .unsupported => none

def toFields : Kind → Fields Value
  | .source deviceId deviceType =>
    [("device_id", .text deviceId), ("device_type", .text deviceType)]
  | .switch property rules | .edge property rules =>
    [("property", .text property), ("rules", .ofList (.object ·.toFields) rules)]
  | .geofence points mode filter =>
    [("points", .ofOption (.ofList (.object ·.toFields)) points), ("mode", .ofOption .text mode),
      ("filter", .ofOption .text filter)]
  | .change rules => [("rules", .ofList (.object ·.toFields) rules)]
  | .template field text => [("field", .text field), ("template", .text text)]
  | .update deviceId deviceType attributes =>
    [("device_id", .text deviceId), ("device_type", .text deviceType), ("attrs", .text attributes)]
  | .post url method body => [("url", .text url), ("method", .text method), ("body", .text body)]
  | .email recipient sender subject server body =>
    [("to", .text recipient), ("sender", .text sender), ("subject", .text subject),
      ("server", .text server), ("body", .text body)]
  | .history | .unsupported => []

end Kind

def Node.toFields (n : Node) : Fields Value :=
  [("id", .text n.id), ("type", .text n.type), ("z", .text n.tab),
    ("wires", .ofList (.ofList .text) n.wires)] ++ n.kind.toFields

namespace Check

theorem meets_vertex : vertex.Meets .vertex (.object ·.toFields) := by
  refine meets_record fun path fields => ?_
  refine (meets_coordinate.required.map ?_).apply meets_coordinate.required (by decide)
  rintro latitude _ rfl longitude _ rfl
  rfl

theorem meets_branch : branch.Meets .branch (.object ·.toFields) := by
  refine meets_record fun path fields => ?_
  refine ((((meets_text.required.map ?_).apply meets_anything.optional (by decide)).apply
    meets_text.nullable.optional (by decide)).apply meets_anything.optional (by decide)).apply
    meets_text.nullable.optional (by decide)
  rintro tag _ rfl value _ rfl valueType _ rfl upper _ rfl upperType _ rfl
  rfl

theorem meets_change : change.Meets .change (.object ·.toFields) := by
  refine meets_record fun path fields => ?_
  refine (((meets_text.optional.map ?_).apply meets_text.required (by decide)).apply
    meets_anything.optional (by decide)).apply meets_text.optional (by decide)
  rintro tag _ rfl path _ rfl value _ rfl valueType _ rfl
  rfl

def typeOf : Value → String
  | .text type => type
  | _ => ""

theorem covers_kind (tag : Value) (fields : Fields Value) :
    (kind tag fields).Covers [] fields (Kind.declared (typeOf tag)) fun k held =>
      held = k.toFields ∧
        k.tag? = if typeOf tag ∈ Kind.tags then some (typeOf tag) else none := by
  rw [kind.eq_def]
  simp only
  -- One case for each known type, and the last one for all others.
  split
  · refine (meets_text.either.map ?_).apply meets_text.either (by decide)
    rintro deviceId _ rfl deviceType _ rfl
    exact ⟨rfl, rfl⟩
  · refine (meets_text.optional.map ?_).apply meets_branch.items.optional (by decide)
    rintro property _ rfl rules _ rfl
    exact ⟨rfl, rfl⟩
  · refine (meets_text.optional.map ?_).apply meets_branch.items.optional (by decide)
    rintro property _ rfl rules _ rfl
    exact ⟨rfl, rfl⟩
  · refine ((meets_vertex.items.nullable.optional.map ?_).apply
      meets_text.nullable.optional (by decide)).apply meets_text.nullable.optional (by decide)
    rintro points _ rfl mode _ rfl filter _ rfl
    exact ⟨rfl, rfl⟩
  · refine meets_change.items.optional.map ?_
    rintro rules _ rfl
    exact ⟨rfl, rfl⟩
  · refine (meets_text.optional.map ?_).apply meets_text.optional (by decide)
    rintro field _ rfl text _ rfl
    exact ⟨rfl, rfl⟩
  · refine ((meets_text.either.map ?_).apply meets_text.either (by decide)).apply
      meets_text.optional (by decide)
    rintro deviceId _ rfl deviceType _ rfl attributes _ rfl
    exact ⟨rfl, rfl⟩
  · refine ((meets_text.optional.map ?_).apply meets_text.optional (by decide)).apply
      meets_text.optional (by decide)
    rintro url _ rfl method _ rfl body _ rfl
    exact ⟨rfl, rfl⟩
  · refine ((((meets_text.optional.map ?_).apply meets_text.either (by decide)).apply
      meets_text.optional (by decide)).apply meets_text.optional (by decide)).apply
      meets_text.optional (by decide)
    rintro recipient _ rfl sender _ rfl subject _ rfl server _ rfl body _ rfl
    exact ⟨rfl, rfl⟩
  · exact Checked.covers_nil ⟨rfl, rfl⟩
  · have hunknown : typeOf tag ∉ Kind.tags := by
      have hempty : "" ∉ Kind.tags := by decide
      cases tag with
      | text type => simp_all [Kind.tags, typeOf]
      | _ => exact hempty
    rw [Kind.declared_eq_nil hunknown]
    exact Checked.covers_nil ⟨rfl, (if_neg hunknown).symm⟩

theorem covers_node (tag : Value) (fields : Fields Value) :
    (node tag fields).Covers [] fields (Node.declared (typeOf tag)) fun n held =>
      held = n.toFields ∧
        n.kind.tag? = if typeOf tag ∈ Kind.tags then some (typeOf tag) else none := by
  refine ((((meets_text.required.map ?_).apply meets_text.required (by decide)).apply
    meets_text.optional (by decide)).apply meets_text.items.items.optional (by decide)).apply
    (covers_kind tag fields) ?_
  · rintro id _ rfl type _ rfl tab _ rfl wires _ rfl kind _ ⟨rfl, htag⟩
    exact ⟨rfl, htag⟩
  · exact Node.disjoint_declared (typeOf tag)

end Check

/-! ### Descriptors -/

/-- Something counts as the id of a descriptor, whether it is a text or not. -/
def Value.HasId (d : Value) (fields : Fields Value) (id : Value) : Prop :=
  d = .object fields ∧ Fields.get? fields "id" = some id ∧ id.isTruthy = true

namespace Node

variable {d id : Value} {fields : Fields Value} {n : Node} {type : String}

def typeIn (fields : Fields Value) : String :=
  Check.typeOf ((Fields.get? fields "type").getD (.text ""))

theorem texts_of_holdsFields (h : Shape.HoldsFields (declared type) fields n.toFields) :
    Fields.get? fields "id" = some (.text n.id) ∧
      Fields.get? fields "type" = some (.text n.type) := by
  have htext {name s : String} {declared : List (Declared Shape)} {held : Fields Value}
      (h : Shape.HoldsFields (.required name .text :: declared) fields ((name, .text s) :: held)) :
      Fields.get? fields name = some (.text s) ∧ Shape.HoldsFields declared fields held := by
    cases h with
    | given hgiven h hs =>
        rw [Declared.given?_required] at hgiven
        obtain ⟨v, hv, heq⟩ := Option.map_eq_some_iff.1 hgiven
        cases heq
        cases h
        exact ⟨hv, hs⟩
    | default _ hdefault _ => cases hdefault
  obtain ⟨hid, hs⟩ := htext h
  exact ⟨hid, (htext hs).1⟩

theorem ofDescriptor_of_not_hasId (h : ¬ ∃ fields id, d.HasId fields id) :
    ofDescriptor d = d.quoted? >>= fun shown => .error (.flow (.missingId shown)) := by
  cases d with
  | object fields =>
      rw [ofDescriptor]
      simp only
      split
      · next hid =>
          cases hget : Fields.get? fields "id" with
          | none =>
              rw [hget] at hid
              cases hid
          | some id =>
              rw [hget] at hid
              exact absurd ⟨fields, id, rfl, hget, hid⟩ h
      · rfl
  | _ => rfl

/-- A descriptor with an id gives a node that holds what it says, or else a report on all its
faults. -/
theorem ofDescriptor_of_hasId (h : d.HasId fields id) :
    (∃ n, ofDescriptor d = .ok n ∧ Shape.HoldsFields (declared (typeIn fields)) fields n.toFields ∧
      n.kind.tag? = if typeIn fields ∈ Kind.tags then some (typeIn fields) else none) ∨
    ∃ faults, faults ≠ [] ∧ (Shape.record (declared (typeIn fields))).Lists d faults ∧
      ofDescriptor d = (do
        let shownId ← id.display?
        let shownTag ← ((Fields.get? fields "type").getD (.text "")).display?
        .error (.flow (.invalidNode shownId shownTag faults))) := by
  obtain ⟨rfl, hget, hid⟩ := h
  obtain ⟨faults, hfaults, hnode⟩ :=
    Check.covers_node ((Fields.get? fields "type").getD (.text "")) fields
  have hunder : faults.map (Fault.under []) = faults := List.map_id faults
  rw [hunder] at hnode
  rw [ofDescriptor]
  simp only [hget, Option.getD_some, hid, if_true]
  generalize Check.node ((Fields.get? fields "type").getD (.text "")) fields = checked at hnode
  cases hnode with
  | ok h =>
      obtain ⟨_, hheld, rfl, htag⟩ := h
      exact .inl ⟨_, rfl, hheld, htag⟩
  | faulty hne => exact .inr ⟨faults, hne, hfaults, rfl⟩

theorem typeIn_of_text (h : Fields.get? fields "type" = some (.text type)) :
    typeIn fields = type := by
  rw [typeIn, h]
  rfl

/-- What is read has an id that is a text, and is held with the fields of its type. -/
theorem holds_of_ofDescriptor (h : ofDescriptor d = .ok n) :
    ∃ fields, d = .object fields ∧ Fields.get? fields "id" = some (.text n.id) ∧ n.id ≠ "" ∧
      Fields.get? fields "type" = some (.text n.type) ∧
      Shape.HoldsFields (declared n.type) fields n.toFields ∧
      n.kind.tag? = if n.type ∈ Kind.tags then some n.type else none := by
  by_cases hid : ∃ fields id, d.HasId fields id
  · obtain ⟨fields, id, hid⟩ := hid
    obtain ⟨m, hm, hheld, htag⟩ | ⟨faults, -, -, hfaulty⟩ := ofDescriptor_of_hasId hid
    · cases h.symm.trans hm
      obtain ⟨rfl, hget, htruthy⟩ := hid
      obtain ⟨hid, htype⟩ := texts_of_holdsFields hheld
      rw [typeIn_of_text htype] at hheld htag
      cases hget.symm.trans hid
      refine ⟨fields, rfl, hid, fun hempty => ?_, htype, hheld, htag⟩
      rw [hempty] at htruthy
      cases htruthy
    · exact absurd (hfaulty.symm.trans h) (bind_ne_ok fun _ => bind_ne_ok fun _ hok => nomatch hok)
  · rw [ofDescriptor_of_not_hasId hid] at h
    exact absurd h (bind_ne_ok fun _ hok => nomatch hok)

/-- Nodes are read from the declared shapes and from nothing else. A descriptor gives a node if and
only if it is an object with a text for its id, which is not empty, a text for its type, and the
fields of its type, each of them left to its default or given with its shape. The node holds what is
given, in order, and the defaults. Any other descriptor is refused: if nothing counts as its id, for
that reason, and otherwise with the list of all its faults, in the order of the declared fields and
then of the items. Only what is not read from any text may fail otherwise, for a number that is too
long to be shown. -/
theorem ofDescriptor_reads_declared (d : Value) :
    ((∃ n, ofDescriptor d = .ok n) ↔ ∃ fields id type, d = .object fields ∧
      Fields.get? fields "id" = some (.text id) ∧ id ≠ "" ∧
      Fields.get? fields "type" = some (.text type) ∧
      ∀ f ∈ declared type, f.IsAdmitted fields) ∧
    (∀ n, ofDescriptor d = .ok n →
      (Shape.record (declared n.type)).Holds d (.object n.toFields) ∧
      n.kind.tag? = if n.type ∈ Kind.tags then some n.type else none) ∧
    ∀ e, ofDescriptor d = .error e →
      (e = .flow (.missingId d.quoted) ∧ ¬ ∃ fields id, d.HasId fields id) ∨
      (∃ fields id faults, d.HasId fields id ∧ faults ≠ [] ∧
        (Shape.record (declared (typeIn fields))).Lists d faults ∧
        e = .flow (.invalidNode id.display
          ((Fields.get? fields "type").getD (.text "")).display faults)) ∨
      (e = .overlong ∧ ∀ text, Value.read text ≠ .ok d) := by
  refine ⟨⟨?_, ?_⟩, ?_, ?_⟩
  · rintro ⟨n, hn⟩
    obtain ⟨fields, hd, hid, hempty, htype, hheld, -⟩ := holds_of_ofDescriptor hn
    exact ⟨fields, n.id, n.type, hd, hid, hempty, htype,
      Shape.exists_holdsFields_iff.1 ⟨n.toFields, hheld⟩⟩
  · rintro ⟨fields, id, type, rfl, hid, hempty, htype, hadmitted⟩
    obtain ⟨held, hheld⟩ := Shape.exists_holdsFields_iff.2 hadmitted
    rw [← typeIn_of_text htype] at hheld
    have hhas : (Value.object fields).HasId fields (.text id) :=
      ⟨rfl, hid, by simpa [Value.isTruthy] using hempty⟩
    obtain ⟨n, hn, -⟩ | ⟨faults, hne, hfaults, -⟩ := ofDescriptor_of_hasId hhas
    · exact ⟨n, hn⟩
    · -- A fault that is listed is one of something that is not admitted.
      obtain ⟨fault, hfault⟩ := List.exists_mem_of_ne_nil faults hne
      exact absurd (.record hheld) (((hfaults.mem _ _).1 hfault).not_holds (.object held))
  · intro n hn
    obtain ⟨fields, rfl, -, -, -, hheld, htag⟩ := holds_of_ofDescriptor hn
    exact ⟨.record hheld, htag⟩
  · intro e he
    have hoverlong (h : e = .overlong) : ∀ text, Value.read text ≠ .ok d := by
      intro text hread
      subst h
      exact orderly_ofDescriptor d _ he (Value.isWritable_of_read hread)
    by_cases hid : ∃ fields id, d.HasId fields id
    · obtain ⟨fields, id, hid⟩ := hid
      obtain ⟨n, hn, -⟩ | ⟨faults, hne, hfaults, hfaulty⟩ := ofDescriptor_of_hasId hid
      · cases he.symm.trans hn
      · rw [hfaulty] at he
        obtain ⟨_, hshown, rfl⟩ | ⟨hlong, -⟩ := Value.delivers_display id
        · rw [hshown] at he
          obtain ⟨_, htag, rfl⟩ | ⟨hlong, -⟩ :=
            Value.delivers_display ((Fields.get? fields "type").getD (.text ""))
          · rw [htag] at he
            cases he
            exact .inr (.inl ⟨fields, id, faults, hid, hne, hfaults, rfl⟩)
          · rw [hlong] at he
            cases he
            exact .inr (.inr ⟨rfl, hoverlong rfl⟩)
        · rw [hlong] at he
          cases he
          exact .inr (.inr ⟨rfl, hoverlong rfl⟩)
    · rw [ofDescriptor_of_not_hasId hid, Value.quoted?] at he
      split at he
      · cases he
        exact .inl ⟨rfl, hid⟩
      · cases he
        exact .inr (.inr ⟨rfl, hoverlong rfl⟩)

example : ofDescriptor (.object [("id", .text "a"), ("type", .text "geofence"), ("z", .null),
      ("points", .list [.object [("latitude", .null)], .text "p"]),
      ("wires", .list [.list [.text "b", .bool true]])]) =
    .error (.flow (.invalidNode "a" "geofence"
      [⟨[.name "z"], .notText⟩, ⟨[.name "wires", .index 0, .index 1], .notText⟩,
        ⟨[.name "points", .index 0, .name "latitude", .name "int"], .notInteger⟩,
        ⟨[.name "points", .index 0, .name "latitude", .name "float"], .notFloat⟩,
        ⟨[.name "points", .index 0, .name "latitude", .name "str"], .notText⟩,
        ⟨[.name "points", .index 0, .name "longitude"], .missing⟩,
        ⟨[.name "points", .index 1], .notObject⟩])) := rfl

end Node

end EventFlow
