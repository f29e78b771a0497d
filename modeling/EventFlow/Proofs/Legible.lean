import EventFlow.Flow
import EventFlow.Proofs.Live

/-!
Descriptors whose whole numbers are all within the digit limit give nodes that a walk can read.

What a check passes on of a value is a part of that value, so it has a written form if the value has
one. The text that a change rule reads as JSON is the one thing to be asked for besides.
-/

namespace EventFlow

namespace Value

theorem isWritable_of_get? {fields : Fields Value} {name : String} {v : Value}
    (h : fieldsWritable fields = true) (hv : Fields.get? fields name = some v) :
    v.isWritable = true := by
  induction fields with
  | nil => cases hv
  | cons entry rest ih =>
      simp only [fieldsWritable, Bool.and_eq_true] at h
      rw [Fields.get?] at hv
      split at hv
      · cases hv
        exact h.1
      · exact ih h.2 hv

end Value

namespace Checked

variable {α β : Type}

def All (p : α → Prop) : Checked α → Prop
  | .ok a => p a
  | .faulty _ => True

theorem All.map {p : α → Prop} {q : β → Prop} {f : α → β} {x : Checked α} (hx : x.All p)
    (h : ∀ a, p a → q (f a)) : (f <$> x).All q := by
  cases x with
  | ok a => exact h a hx
  | faulty faults => trivial

theorem All.apply {p : α → Prop} {q : β → Prop} {f : Checked (α → β)} {x : Checked α}
    (hf : f.All fun f => ∀ a, p a → q (f a)) (hx : x.All p) : (f <*> x).All q := by
  cases f with
  | ok f =>
      cases x with
      | ok a => exact hf a hx
      | faulty faults => trivial
  | faulty faults =>
      cases x with
      | ok a => trivial
      | faulty more => trivial

theorem all_true (x : Checked α) : x.All fun _ => True := by
  cases x <;> trivial

end Checked

namespace Check

variable {α : Type} {p : α → Prop} {check : Check α}

/-- What passes the check has the property if the value has a written form. -/
def Keeps (check : Check α) (p : α → Prop) : Prop :=
  ∀ path v, v.isWritable = true → (check path v).All p

theorem keeps_anything : anything.Keeps (·.isWritable = true) :=
  fun _ _ h => h

theorem keeps_coordinate : coordinate.Keeps (·.isWritable = true) := by
  intro path v h
  cases v with
  | number n => exact h
  | bool b =>
      have h : Number.isWritable (.int (if b then 1 else 0)) = true := by
        cases b <;> decide +kernel
      exact h
  | text s => rfl
  | null => trivial
  | list items => trivial
  | object fields => trivial

theorem Keeps.nullable (h : check.Keeps p) : (nullable check).Keeps (∀ a ∈ ·, p a) := by
  intro path v hv
  have hsome : ((check path v).map some).All (∀ a ∈ ·, p a) :=
    (h path v hv).map fun a ha b hb => Option.some.inj hb ▸ ha
  cases v with
  | null =>
      intro a ha
      cases ha
  | _ => exact hsome

theorem Keeps.items (h : check.Keeps p) : (items check).Keeps (∀ a ∈ ·, p a) := by
  intro path v hv
  have hfrom (n : Nat) (vs : List Value) (hvs : Value.itemsWritable vs = true) :
      (itemsFrom check path n vs).All (∀ a ∈ ·, p a) := by
    induction vs generalizing n with
    | nil =>
        intro a ha
        cases ha
    | cons v rest ih =>
        simp only [Value.itemsWritable, Bool.and_eq_true] at hvs
        refine ((h (path ++ [.index n]) v hvs.1).map ?_).apply (ih (n + 1) hvs.2)
        intro a ha as has
        exact List.forall_mem_cons.2 ⟨ha, has⟩
  cases v with
  | list vs => exact hfrom 0 vs hv
  | _ => trivial

theorem Keeps.required (h : check.Keeps p) {fields : Fields Value} {name : String}
    {path : List Key} (hfields : Value.fieldsWritable fields = true) :
    (required path fields name check).All p := by
  rw [Check.required]
  split
  · next v hv => exact h _ v (Value.isWritable_of_get? hfields hv)
  · trivial

theorem Keeps.optional (h : check.Keeps p) {fields : Fields Value} {name : String}
    {path : List Key} {default : α} (hfields : Value.fieldsWritable fields = true)
    (hdefault : p default) : (optional path fields name default check).All p := by
  rw [Check.optional]
  split
  · next v hv => exact h _ v (Value.isWritable_of_get? hfields hv)
  · exact hdefault

theorem keeps_vertex : vertex.Keeps (·.isWritable = true) := by
  intro path v hv
  cases v with
  | object fields =>
      refine ((keeps_coordinate.required hv).map ?_).apply (keeps_coordinate.required hv)
      intro latitude hlatitude longitude hlongitude
      rw [Vertex.isWritable, hlatitude, hlongitude]
      rfl
  | _ => trivial

theorem keeps_branch : branch.Keeps (·.isWritable = true) := by
  intro path v hv
  cases v with
  | object fields =>
      refine (((((Checked.all_true _).map ?_).apply
        (keeps_anything.optional hv rfl)).apply (Checked.all_true _)).apply
        (keeps_anything.optional hv rfl)).apply (Checked.all_true _)
      intro tag _ value hvalue _ _ upper hupper _ _
      rw [Branch.isWritable, hvalue, hupper]
      rfl
  | _ => trivial

theorem keeps_change : change.Keeps (·.value.isWritable = true) := by
  intro path v hv
  cases v with
  | object fields =>
      refine ((((Checked.all_true _).map ?_).apply (Checked.all_true _)).apply
        (keeps_anything.optional hv rfl)).apply (Checked.all_true _)
      intro tag _ path _ value hvalue _ _
      exact hvalue
  | _ => trivial

end Check

namespace Kind

/-- The values that a walk reads as they are have a written form. -/
def isWritable : Kind → Bool
  | .switch _ rules | .edge _ rules => rules.all Branch.isWritable
  | .geofence points _ _ => (points.getD []).all Vertex.isWritable
  | .change rules => rules.all (·.value.isWritable)
  | _ => true

def jsonTexts : Kind → List String
  | .change rules => rules.filterMap fun rule =>
    match rule.valueType, rule.value with
    | "json", .text s => some s
    | _, _ => none
  | _ => []

end Kind

/-- Every part of a value is writable if the value is, whatever the type makes of it. -/
theorem Check.all_kind (tag : Value) {fields : Fields Value}
    (h : Value.fieldsWritable fields = true) :
    (kind tag fields).All (·.isWritable = true) := by
  have hrules : (optional [] fields "rules" [] (items branch)).All
      (∀ rule ∈ ·, rule.isWritable = true) :=
    keeps_branch.items.optional h (by simp)
  have hchanges : (optional [] fields "rules" [] (items change)).All
      (∀ rule ∈ ·, rule.value.isWritable = true) :=
    keeps_change.items.optional h (by simp)
  have hpoints : (optional [] fields "points" none (nullable (items vertex))).All
      (∀ points ∈ ·, ∀ v ∈ points, v.isWritable = true) :=
    keeps_vertex.items.nullable.optional h (by simp)
  rw [kind.eq_def]
  simp only
  split
  · exact ((Checked.all_true _).map fun _ _ _ _ => rfl).apply (Checked.all_true _)
  · refine ((Checked.all_true _).map ?_).apply hrules
    intro property _ rules hrules
    exact List.all_eq_true.2 hrules
  · refine ((Checked.all_true _).map ?_).apply hrules
    intro property _ rules hrules
    exact List.all_eq_true.2 hrules
  · refine ((hpoints.map ?_).apply (Checked.all_true _)).apply (Checked.all_true _)
    intro points hpoints mode _ filter _
    cases points with
    | none => rfl
    | some points => exact List.all_eq_true.2 (hpoints points rfl)
  · exact hchanges.map fun rules hrules => List.all_eq_true.2 hrules
  · exact ((Checked.all_true _).map fun _ _ _ _ => rfl).apply (Checked.all_true _)
  · exact (((Checked.all_true _).map fun _ _ _ _ _ _ => rfl).apply (Checked.all_true _)).apply
      (Checked.all_true _)
  · exact (((Checked.all_true _).map fun _ _ _ _ _ _ => rfl).apply (Checked.all_true _)).apply
      (Checked.all_true _)
  · exact (((((Checked.all_true _).map fun _ _ _ _ _ _ _ _ _ _ => rfl).apply
      (Checked.all_true _)).apply (Checked.all_true _)).apply (Checked.all_true _)).apply
      (Checked.all_true _)
  · exact rfl
  · exact rfl

namespace Node

variable {n : Node} {d : Value}

theorem bind_ne_ok {ε α β : Type} {x : Except ε α} {f : α → Except ε β} {b : β}
    (h : ∀ a, f a ≠ .ok b) : (x >>= f) ≠ .ok b := by
  cases x with
  | error e => nofun
  | ok a => exact h a

/-- A node is read from an object that has an id and the shape of its type. -/
theorem ofDescriptor_eq_ok_iff : ofDescriptor d = .ok n ↔ ∃ fields, d = .object fields ∧
    ((Fields.get? fields "id").getD .null).isTruthy = true ∧
    Check.node ((Fields.get? fields "type").getD (.text "")) fields = .ok n := by
  constructor
  · intro h
    cases d with
    | object fields =>
        rw [ofDescriptor] at h
        simp only at h
        split at h
        · next htruthy =>
            split at h
            · next m hm =>
                cases h
                exact ⟨fields, rfl, htruthy, hm⟩
            · exact absurd h (bind_ne_ok fun _ => bind_ne_ok nofun)
        · exact absurd h (bind_ne_ok nofun)
    | _ => exact absurd h (bind_ne_ok nofun)
  · rintro ⟨fields, rfl, htruthy, hnode⟩
    rw [ofDescriptor]
    simp only [htruthy, if_true, hnode]

theorem isWritable_of_ofDescriptor (hd : d.isWritable = true) (h : ofDescriptor d = .ok n) :
    n.kind.isWritable = true := by
  obtain ⟨fields, rfl, -, hnode⟩ := ofDescriptor_eq_ok_iff.1 h
  have hall (tag : Value) : (Check.node tag fields).All (·.kind.isWritable = true) := by
    refine (((((Checked.all_true _).map ?_).apply (Checked.all_true _)).apply
      (Checked.all_true _)).apply (Checked.all_true _)).apply (Check.all_kind tag hd)
    intro id _ type _ tab _ wires _ kind hkind
    exact hkind
  have hkind := hall ((Fields.get? fields "type").getD (.text ""))
  rw [hnode] at hkind
  exact hkind

/-- A node can be read if its values have a written form and its JSON texts hold no number beyond
the digit limit. -/
theorem isLegible_of_isWritable (h : n.kind.isWritable = true)
    (hjson : ∀ s ∈ n.kind.jsonTexts, Value.read s ≠ .error .overlong) : n.isLegible = true := by
  rw [isLegible]
  obtain ⟨id, type, tab, wires, kind⟩ := n
  cases kind with
  | change rules =>
      refine List.all_eq_true.2 fun rule hrule => ?_
      have hvalue : rule.value.isWritable = true := List.all_eq_true.1 h rule hrule
      rw [Change.isLegible.eq_def]
      split
      · exact hvalue
      · next s htype hs =>
          have hs : s ∈ (Kind.change rules).jsonTexts :=
            List.mem_filterMap.2 ⟨rule, hrule, by simp [htype, hs]⟩
          have hread := hjson s hs
          split
          · contradiction
          · rfl
      · rfl
  | _ => exact h

end Node

namespace Graph

variable {g : Graph} {descriptors : List Value}

theorem forall_mem_collect {p : Node → Prop} {seen nodes : Distinct}
    (h : collect seen descriptors = .ok nodes) (hseen : ∀ n ∈ seen.1, p n)
    (hp : ∀ d ∈ descriptors, ∀ n, Node.ofDescriptor d = .ok n → p n) : ∀ n ∈ nodes.1, p n := by
  induction descriptors generalizing seen with
  | nil =>
      cases h
      exact hseen
  | cons d rest ih =>
      rw [collect] at h
      split at h
      · cases h
      · next n hn =>
          split at h
          · cases h
          · refine ih h ?_ fun d' hd' => hp d' (.tail _ hd')
            intro m hm
            obtain hm | hm := List.mem_append.1 hm
            · exact hseen m hm
            · exact List.mem_singleton.1 hm ▸ hp d (.head _) n hn

/-- What holds of the node of every descriptor holds of the nodes of the graph. -/
theorem forall_mem_of_ofDescriptors {p : Node → Prop}
    (h : (ofDescriptors descriptors).outcome = .ok g)
    (hp : ∀ d ∈ descriptors, ∀ n, Node.ofDescriptor d = .ok n → p n) : ∀ n ∈ g.nodes, p n := by
  rw [ofDescriptors, Run.outcome_bind, Run.outcome_ofExcept] at h
  cases hnodes : collect ⟨[], by simp⟩ descriptors with
  | error e =>
      rw [hnodes] at h
      cases h
  | ok nodes =>
      rw [hnodes] at h
      have hg : ofNodes nodes = .ok g := h
      rw [ofNodes] at hg
      split at hg
      · cases hg
      · cases hg
        exact forall_mem_collect hnodes (by simp) hp

/-- Every node can be read if the descriptors have a written form and no JSON text of a change rule
holds a number beyond the digit limit. -/
theorem forall_isLegible (h : (ofDescriptors descriptors).outcome = .ok g)
    (hd : ∀ d ∈ descriptors, d.isWritable = true)
    (hjson : ∀ n ∈ g.nodes, ∀ s ∈ n.kind.jsonTexts, Value.read s ≠ .error .overlong) :
    ∀ n ∈ g.nodes, n.isLegible = true := by
  intro n hn
  have hwritable := forall_mem_of_ofDescriptors h
    (fun d hmem n => Node.isWritable_of_ofDescriptor (hd d hmem)) n hn
  exact Node.isLegible_of_isWritable hwritable (hjson n hn)

end Graph

end EventFlow
