import EventFlow.Flow
import Mathlib.Data.List.Basic

/-!
Declared shapes.

A shape says which values are admitted and as what they are held, what a field is if it is not given
included (`Shape.Holds`), and where a value is at fault (`Shape.Invalid`). Both are said of a value
as a whole. A check meets a shape if it gives what is held, or else lists every fault, in the order
in which the fields are declared and then by index (`Check.Meets`). It is enough that the parts of a
check do: faults that are listed side by side are those of the fields side by side (`Lists.append`).
-/

namespace EventFlow

structure Declared (σ : Type) where
  /-- The name under which it is held. -/
  name : String
  /-- The names under which it may be given. The first one that is there counts. -/
  names : List String
  shape : σ
  /-- What it is if it is not given; `none` if it has to be. -/
  default? : Option Value

inductive Shape where
  | anything
  | text
  /-- A number or a text. True and false count as one and zero. -/
  | coordinate
  | nullable (shape : Shape)
  | items (shape : Shape)
  | record (fields : List (Declared Shape))

namespace Declared

variable {σ : Type}

def required (name : String) (shape : σ) : Declared σ :=
  ⟨name, [name], shape, none⟩

def optional (name : String) (shape : σ) (default : Value) : Declared σ :=
  ⟨name, [name], shape, some default⟩

/-- A field with a name that counts before its own. -/
def aliased (first name : String) (shape : σ) (default : Value) : Declared σ :=
  ⟨name, [first, name], shape, some default⟩

def given? (f : Declared σ) (fields : Fields Value) : Option (String × Value) :=
  f.names.findSome? fun name => (Fields.get? fields name).map fun v => (name, v)

theorem given?_required (name : String) (shape : σ) (fields : Fields Value) :
    (required name shape).given? fields = (Fields.get? fields name).map fun v => (name, v) :=
  List.findSome?_singleton

theorem given?_optional (name : String) (shape : σ) (default : Value) (fields : Fields Value) :
    (optional name shape default).given? fields =
      (Fields.get? fields name).map fun v => (name, v) :=
  List.findSome?_singleton

theorem mem_names_of_given? {f : Declared σ} {fields : Fields Value} {name : String} {v : Value}
    (h : f.given? fields = some (name, v)) : name ∈ f.names := by
  obtain ⟨name', hmem, hname⟩ := List.exists_of_findSome?_eq_some h
  obtain ⟨_, -, heq⟩ := Option.map_eq_some_iff.1 hname
  cases heq
  exact hmem

end Declared

namespace Shape

mutual

/-- A value has the shape, and is held as another one. -/
inductive Holds : Shape → Value → Value → Prop
  | anything {v : Value} : Holds .anything v v
  | text {s : String} : Holds .text (.text s) (.text s)
  | number {n : Number} : Holds .coordinate (.number n) (.number n)
  | flag {b : Bool} : Holds .coordinate (.bool b) (.number (.int (if b then 1 else 0)))
  | numeral {s : String} : Holds .coordinate (.text s) (.text s)
  | null {shape : Shape} : Holds (.nullable shape) .null .null
  | nonnull {shape : Shape} {v w : Value} (hv : v ≠ .null) (h : Holds shape v w) :
    Holds (.nullable shape) v w
  | items {shape : Shape} {vs ws : List Value} (h : HoldsItems shape vs ws) :
    Holds (.items shape) (.list vs) (.list ws)
  | record {declared : List (Declared Shape)} {fields held : Fields Value}
    (h : HoldsFields declared fields held) :
    Holds (.record declared) (.object fields) (.object held)

inductive HoldsItems : Shape → List Value → List Value → Prop
  | nil {shape : Shape} : HoldsItems shape [] []
  | cons {shape : Shape} {v w : Value} {vs ws : List Value} (h : Holds shape v w)
    (hs : HoldsItems shape vs ws) : HoldsItems shape (v :: vs) (w :: ws)

/-- The declared fields are held in order, each as it is given or by its default. -/
inductive HoldsFields : List (Declared Shape) → Fields Value → Fields Value → Prop
  | nil {fields : Fields Value} : HoldsFields [] fields []
  | given {f : Declared Shape} {declared : List (Declared Shape)} {fields held : Fields Value}
    {name : String} {v w : Value} (hgiven : f.given? fields = some (name, v))
    (h : Holds f.shape v w) (hs : HoldsFields declared fields held) :
    HoldsFields (f :: declared) fields ((f.name, w) :: held)
  | default {f : Declared Shape} {declared : List (Declared Shape)} {fields held : Fields Value}
    {w : Value} (hgiven : f.given? fields = none) (hdefault : f.default? = some w)
    (hs : HoldsFields declared fields held) :
    HoldsFields (f :: declared) fields ((f.name, w) :: held)

end

/-- A location inside a value at which it does not have the shape, and what is wrong there. -/
inductive Invalid : Shape → Value → List Key → FaultKind → Prop
  | text {v : Value} (h : ∀ s, v ≠ .text s) : Invalid .text v [] .notText
  /-- What is no coordinate is none of the three things that it may be. -/
  | coordinate {v : Value} {key : String} {kind : FaultKind}
    (h : ∀ w, ¬ Holds .coordinate v w)
    (hkind : (key, kind) ∈ [("int", .notInteger), ("float", .notFloat), ("str", .notText)]) :
    Invalid .coordinate v [.name key] kind
  | nonnull {shape : Shape} {v : Value} {path : List Key} {kind : FaultKind} (hv : v ≠ .null)
    (h : Invalid shape v path kind) : Invalid (.nullable shape) v path kind
  | notList {shape : Shape} {v : Value} (h : ∀ vs, v ≠ .list vs) :
    Invalid (.items shape) v [] .notList
  | item {shape : Shape} {vs : List Value} {i : Nat} {v : Value} {path : List Key}
    {kind : FaultKind} (hv : vs[i]? = some v) (h : Invalid shape v path kind) :
    Invalid (.items shape) (.list vs) (.index i :: path) kind
  | notObject {declared : List (Declared Shape)} {v : Value} (h : ∀ fields, v ≠ .object fields) :
    Invalid (.record declared) v [] .notObject
  | missing {declared : List (Declared Shape)} {fields : Fields Value} {f : Declared Shape}
    {name : String} (hf : f ∈ declared) (hgiven : f.given? fields = none)
    (hdefault : f.default? = none) (hname : f.names.head? = some name) :
    Invalid (.record declared) (.object fields) [.name name] .missing
  | field {declared : List (Declared Shape)} {fields : Fields Value} {f : Declared Shape}
    {name : String} {v : Value} {path : List Key} {kind : FaultKind} (hf : f ∈ declared)
    (hgiven : f.given? fields = some (name, v)) (h : Invalid f.shape v path kind) :
    Invalid (.record declared) (.object fields) (.name name :: path) kind

/-- The declared field that goes by a name, counted from zero, and its shape. -/
def field? (name : String) : List (Declared Shape) → Option (Nat × Shape)
  | [] => none
  | f :: declared =>
    if name ∈ f.names then some (0, f.shape)
    else (field? name declared).map fun part => (part.1 + 1, part.2)

def part? : Shape → Key → Option (Nat × Shape)
  | .nullable shape, key => shape.part? key
  | .items shape, .index i => some (i, shape)
  | .record declared, .name name => field? name declared
  | .coordinate, .name name => (["int", "float", "str"].idxOf? name).map fun i => (i, .anything)
  | _, _ => none

/-- The places along a path. Paths come in the order of their places: first by the fields as they
are declared, then by index. -/
def place : Shape → List Key → List Nat
  | _, [] => []
  | shape, key :: path =>
    match shape.part? key with
    | none => []
    | some (i, part) => i :: part.place path

end Shape

def Fault.under (path : List Key) (fault : Fault) : Fault :=
  ⟨path ++ fault.path, fault.kind⟩

namespace Shape

/-- The faults of a value: all of them and no others, in order and each once. -/
structure Lists (shape : Shape) (v : Value) (faults : List Fault) : Prop where
  mem : ∀ path kind, ⟨path, kind⟩ ∈ faults ↔ shape.Invalid v path kind
  order : faults.Pairwise fun a b => List.Lex (· < ·) (shape.place a.path) (shape.place b.path)

end Shape

def Declared.IsAdmitted (f : Declared Shape) (fields : Fields Value) : Prop :=
  (f.given? fields = none ∧ f.default?.isSome = true) ∨
    ∃ name v w, f.given? fields = some (name, v) ∧ f.shape.Holds v w

namespace Shape

variable {shape : Shape} {declared more : List (Declared Shape)} {fields held : Fields Value}
  {path : List Key} {kind : FaultKind} {name : String} {v : Value}

/-! ### What is held and what is at fault -/

theorem HoldsItems.exists_holds {vs ws : List Value} {i : Nat} (h : HoldsItems shape vs ws)
    (hv : vs[i]? = some v) : ∃ w, shape.Holds v w := by
  induction vs generalizing ws i with
  | nil => simp at hv
  | cons u vs ih =>
      cases h with
      | cons hu hs =>
          cases i with
          | zero =>
              obtain rfl : u = v := by simpa using hv
              exact ⟨_, hu⟩
          | succ i => exact ih hs (by simpa using hv)

theorem exists_holdsFields_iff :
    (∃ held, HoldsFields declared fields held) ↔ ∀ f ∈ declared, f.IsAdmitted fields := by
  induction declared with
  | nil => exact ⟨fun _ f hf => (nomatch hf), fun _ => ⟨[], .nil⟩⟩
  | cons f declared ih =>
      rw [List.forall_mem_cons, ← ih]
      constructor
      · rintro ⟨held, h⟩
        cases h with
        | given hgiven h hs => exact ⟨.inr ⟨_, _, _, hgiven, h⟩, _, hs⟩
        | default hgiven hdefault hs => exact ⟨.inl ⟨hgiven, by simp [hdefault]⟩, _, hs⟩
      · rintro ⟨⟨hgiven, hdefault⟩ | ⟨name, v, w, hgiven, h⟩, held, hs⟩
        · obtain ⟨w, hw⟩ := Option.isSome_iff_exists.1 hdefault
          exact ⟨_, .default hgiven hw hs⟩
        · exact ⟨_, .given hgiven h hs⟩

theorem HoldsFields.append {held' : Fields Value} (h : HoldsFields declared fields held)
    (h' : HoldsFields more fields held') :
    HoldsFields (declared ++ more) fields (held ++ held') := by
  induction declared generalizing held with
  | nil =>
      cases h
      exact h'
  | cons f declared ih =>
      cases h with
      | given hgiven h hs => exact .given hgiven h (ih hs)
      | default hgiven hdefault hs => exact .default hgiven hdefault (ih hs)

/-- What is at fault somewhere does not have the shape. -/
theorem Invalid.not_holds (h : shape.Invalid v path kind) (w : Value) : ¬ shape.Holds v w := by
  induction h generalizing w with
  | text h =>
      rintro ⟨⟩
      exact h _ rfl
  | coordinate h _ => exact h w
  | nonnull hv _ ih =>
      intro hw
      cases hw with
      | null => exact hv rfl
      | nonnull _ hw => exact ih w hw
  | notList h =>
      rintro ⟨⟩
      exact h _ rfl
  | item hv _ ih =>
      intro hw
      cases hw with
      | items hs =>
          obtain ⟨w, hw⟩ := hs.exists_holds hv
          exact ih w hw
  | notObject h =>
      rintro ⟨⟩
      exact h _ rfl
  | missing hf hgiven hdefault _ =>
      intro hw
      cases hw with
      | record hs =>
          obtain ⟨-, hsome⟩ | ⟨_, _, _, hgiven', -⟩ := exists_holdsFields_iff.1 ⟨_, hs⟩ _ hf
          · simp [hdefault] at hsome
          · simp [hgiven] at hgiven'
  | field hf hgiven _ ih =>
      intro hw
      cases hw with
      | record hs =>
          obtain ⟨hnone, -⟩ | ⟨_, _, w, hgiven', hw⟩ := exists_holdsFields_iff.1 ⟨_, hs⟩ _ hf
          · simp [hgiven] at hnone
          · cases hgiven.symm.trans hgiven'
            exact ih w hw

/-! ### The order of the fields -/

theorem Invalid.mono (hsubset : declared ⊆ more)
    (h : (record declared).Invalid (.object fields) path kind) :
    (record more).Invalid (.object fields) path kind := by
  cases h with
  | notObject h => exact absurd rfl (h fields)
  | missing hf hgiven hdefault hname => exact .missing (hsubset hf) hgiven hdefault hname
  | field hf hgiven h => exact .field (hsubset hf) hgiven h

theorem invalid_append_iff : (record (declared ++ more)).Invalid (.object fields) path kind ↔
    (record declared).Invalid (.object fields) path kind ∨
      (record more).Invalid (.object fields) path kind := by
  constructor
  · intro h
    cases h with
    | notObject h => exact absurd rfl (h fields)
    | missing hf hgiven hdefault hname =>
        exact (List.mem_append.1 hf).imp (.missing · hgiven hdefault hname)
          (.missing · hgiven hdefault hname)
    | field hf hgiven h =>
        exact (List.mem_append.1 hf).imp (.field · hgiven h) (.field · hgiven h)
  · rintro (h | h)
    · exact h.mono (List.subset_append_left declared more)
    · exact h.mono (List.subset_append_right declared more)

/-- A fault of an object lies at one of the declared names, or behind it. -/
theorem Invalid.exists_name (h : (record declared).Invalid (.object fields) path kind) :
    ∃ f ∈ declared, ∃ name ∈ f.names, ∃ rest, path = .name name :: rest := by
  cases h with
  | notObject h => exact absurd rfl (h fields)
  | missing hf hgiven hdefault hname => exact ⟨_, hf, _, List.mem_of_mem_head? hname, _, rfl⟩
  | field hf hgiven h => exact ⟨_, hf, _, Declared.mem_names_of_given? hgiven, _, rfl⟩

theorem field?_append : field? name (declared ++ more) =
    (field? name declared).or
      ((field? name more).map fun part => (declared.length + part.1, part.2)) := by
  induction declared with
  | nil => simp [field?]
  | cons f declared ih =>
      rw [List.cons_append, field?, field?, ih]
      split
      · rfl
      · cases field? name declared <;> cases field? name more <;> simp [Nat.add_right_comm]

theorem exists_field? {f : Declared Shape} (hf : f ∈ declared) (hname : name ∈ f.names) :
    ∃ i part, field? name declared = some (i, part) ∧ i < declared.length := by
  induction declared with
  | nil => cases hf
  | cons g declared ih =>
      rw [field?]
      split
      · exact ⟨_, _, rfl, Nat.zero_lt_succ _⟩
      · next hg =>
          obtain rfl | hf := List.mem_cons.1 hf
          · exact absurd hname hg
          · obtain ⟨i, part, hfield, hi⟩ := ih hf
            exact ⟨i + 1, part, by rw [hfield]; rfl, Nat.succ_lt_succ hi⟩

theorem field?_eq_none (h : ∀ f ∈ declared, name ∉ f.names) : field? name declared = none := by
  induction declared with
  | nil => rfl
  | cons f declared ih =>
      obtain ⟨hf, h⟩ := List.forall_mem_cons.1 h
      rw [field?, if_neg hf, ih h]
      rfl

theorem place_nullable : (nullable shape).place path = shape.place path := by
  cases path with
  | nil => rfl
  | cons key rest => rw [place, place, part?]

theorem place_cons {part : Shape} {key : Key} {i : Nat} (h : shape.part? key = some (i, part)) :
    shape.place (key :: path) = i :: part.place path := by
  rw [place, h]

/-! ### Faults that are listed -/

theorem Lists.nil (h : ∀ path kind, ¬ shape.Invalid v path kind) : shape.Lists v [] :=
  ⟨fun path kind => iff_of_false (by simp) (h path kind), .nil⟩

theorem Lists.singleton {fault : Fault}
    (h : ∀ path kind, shape.Invalid v path kind ↔ path = fault.path ∧ kind = fault.kind) :
    shape.Lists v [fault] := by
  refine ⟨fun path kind => ?_, List.pairwise_singleton _ _⟩
  rw [List.mem_singleton, h, Fault.mk.injEq]

theorem mem_map_under {faults : List Fault} {key : Key} :
    ⟨path, kind⟩ ∈ faults.map (Fault.under [key]) ↔
      ∃ rest, path = key :: rest ∧ ⟨rest, kind⟩ ∈ faults := by
  rw [List.mem_map]
  constructor
  · rintro ⟨⟨rest, _⟩, hmem, ⟨⟩⟩
    exact ⟨rest, rfl, hmem⟩
  · rintro ⟨rest, rfl, hmem⟩
    exact ⟨⟨rest, kind⟩, hmem, rfl⟩

theorem pairwise_map_under {part : Shape} {faults : List Fault} {key : Key} {i : Nat}
    (hpart : shape.part? key = some (i, part))
    (h : faults.Pairwise fun a b => List.Lex (· < ·) (part.place a.path) (part.place b.path)) :
    (faults.map (Fault.under [key])).Pairwise fun a b =>
      List.Lex (· < ·) (shape.place a.path) (shape.place b.path) := by
  refine List.pairwise_map.2 (h.imp fun {a b} hab => ?_)
  simp only [Fault.under, List.singleton_append, place_cons hpart]
  exact List.cons_lex_cons_iff.2 (.inr ⟨rfl, hab⟩)

/-- The faults of a field that is given. -/
theorem Lists.field {f : Declared Shape} {faults : List Fault}
    (hgiven : f.given? fields = some (name, v)) (h : f.shape.Lists v faults) :
    (record [f]).Lists (.object fields) (faults.map (Fault.under [.name name])) := by
  have hpart : (record [f]).part? (.name name) = some (0, f.shape) :=
    if_pos (Declared.mem_names_of_given? hgiven)
  refine ⟨fun path kind => ?_, pairwise_map_under hpart h.order⟩
  rw [mem_map_under]
  constructor
  · rintro ⟨rest, rfl, hmem⟩
    exact .field (List.mem_singleton_self f) hgiven ((h.mem rest kind).1 hmem)
  · intro hinvalid
    cases hinvalid with
    | notObject h => exact absurd rfl (h fields)
    | missing hf hnone hdefault hname =>
        rw [List.mem_singleton.1 hf, hgiven] at hnone
        cases hnone
    | field hf hgiven' hinvalid =>
        cases List.mem_singleton.1 hf
        cases hgiven.symm.trans hgiven'
        exact ⟨_, rfl, (h.mem _ _).2 hinvalid⟩

/-- The faults of a field that is not given. -/
theorem Lists.field_none {f : Declared Shape} (hgiven : f.given? fields = none)
    (hname : f.names.head? = some name) : (record [f]).Lists (.object fields)
      (if f.default?.isSome then [] else [⟨[.name name], .missing⟩]) := by
  have hinvalid (path : List Key) (kind : FaultKind) :
      (record [f]).Invalid (.object fields) path kind ↔
        f.default? = none ∧ path = [.name name] ∧ kind = .missing := by
    constructor
    · intro h
      cases h with
      | notObject h => exact absurd rfl (h fields)
      | missing hf _ hdefault hname' =>
          cases List.mem_singleton.1 hf
          cases hname.symm.trans hname'
          exact ⟨hdefault, rfl, rfl⟩
      | field hf hgiven' _ =>
          cases List.mem_singleton.1 hf
          cases hgiven.symm.trans hgiven'
    · rintro ⟨hdefault, rfl, rfl⟩
      exact .missing (List.mem_singleton_self f) hgiven hdefault hname
  split
  · next hdefault =>
      refine .nil fun path kind h => ?_
      rw [((hinvalid path kind).1 h).1] at hdefault
      cases hdefault
  · next hdefault =>
      refine .singleton fun path kind => (hinvalid path kind).trans ?_
      rw [and_iff_right (by simpa using hdefault)]

/-- The faults of some fields and of the fields behind them. -/
theorem Lists.append {faults faults' : List Fault}
    (h : (record declared).Lists (.object fields) faults)
    (h' : (record more).Lists (.object fields) faults')
    (hdisjoint : ∀ f ∈ declared, ∀ g ∈ more, ∀ name ∈ f.names, name ∉ g.names) :
    (record (declared ++ more)).Lists (.object fields) (faults ++ faults') := by
  -- Where a fault lies among all fields, by whether it is one of the first or of the others.
  have hplace (a : Fault) (ha : a ∈ faults) : ∃ i is, i < declared.length ∧
      (record declared).place a.path = i :: is ∧
      (record (declared ++ more)).place a.path = i :: is := by
    obtain ⟨f, hf, name, hname, rest, hpath⟩ := ((h.mem a.path a.kind).1 ha).exists_name
    obtain ⟨i, part, hfield, hi⟩ := exists_field? hf hname
    refine ⟨i, part.place rest, hi, ?_, ?_⟩
    · rw [hpath]
      exact place_cons hfield
    · rw [hpath, place_cons (by rw [part?, field?_append, hfield]; rfl)]
  have hplace' (a : Fault) (ha : a ∈ faults') : ∃ i is,
      (record more).place a.path = i :: is ∧
      (record (declared ++ more)).place a.path = (declared.length + i) :: is := by
    obtain ⟨g, hg, name, hname, rest, hpath⟩ := ((h'.mem a.path a.kind).1 ha).exists_name
    obtain ⟨i, part, hfield, -⟩ := exists_field? hg hname
    have hnone : field? name declared = none :=
      field?_eq_none fun f hf hname' => hdisjoint f hf g hg name hname' hname
    refine ⟨i, part.place rest, ?_, ?_⟩
    · rw [hpath]
      exact place_cons hfield
    · rw [hpath, place_cons (by rw [part?, field?_append, hnone, hfield]; rfl)]
  constructor
  · intro path kind
    rw [List.mem_append, h.mem, h'.mem, invalid_append_iff]
  · refine List.pairwise_append.2 ⟨h.order.imp_of_mem fun {a b} ha hb hab => ?_,
      h'.order.imp_of_mem fun {a b} ha hb hab => ?_, fun a ha b hb => ?_⟩
    · obtain ⟨i, is, -, hi, hi'⟩ := hplace a ha
      obtain ⟨j, js, -, hj, hj'⟩ := hplace b hb
      rwa [hi', hj', ← hi, ← hj]
    · obtain ⟨i, is, hi, hi'⟩ := hplace' a ha
      obtain ⟨j, js, hj, hj'⟩ := hplace' b hb
      rw [hi, hj, List.cons_lex_cons_iff] at hab
      rw [hi', hj', List.cons_lex_cons_iff]
      exact hab.imp (Nat.add_lt_add_left · _) (And.imp_left fun h => by rw [h])
    · obtain ⟨i, is, hi, -, hi'⟩ := hplace a ha
      obtain ⟨j, js, -, hj'⟩ := hplace' b hb
      rw [hi', hj', List.cons_lex_cons_iff]
      exact .inl (by omega)

end Shape

/-! ### Checks that meet a shape -/

def Coordinate.toValue : Coordinate → Value
  | .number n => .number n
  | .text s => .text s

namespace Checked

variable {α β : Type} {p : α → Prop} {q : β → Prop}

/-- What is checked has passed with a property, or reports some faults. -/
inductive Reports (p : α → Prop) : Checked α → List Fault → Prop
  | ok {a : α} (h : p a) : Reports p (.ok a) []
  | faulty {faults : List Fault} (h : faults ≠ []) : Reports p (.faulty faults) faults

theorem Reports.fault (path : List Key) (kind : FaultKind) :
    (Checked.faulty [⟨path, kind⟩]).Reports p ([⟨[], kind⟩].map (Fault.under path)) := by
  simpa [Fault.under] using Reports.faulty (List.cons_ne_nil (⟨path, kind⟩ : Fault) [])

theorem Reports.mono {x : Checked α} {q : α → Prop} {faults : List Fault}
    (hx : x.Reports p faults) (h : ∀ a, p a → q a) : x.Reports q faults := by
  cases hx with
  | ok ha => exact .ok (h _ ha)
  | faulty hfaults => exact .faulty hfaults

theorem Reports.map {x : Checked α} {f : α → β} {faults : List Fault} (hx : x.Reports p faults)
    (h : ∀ a, p a → q (f a)) : (f <$> x).Reports q faults := by
  cases hx with
  | ok ha => exact .ok (h _ ha)
  | faulty hfaults => exact .faulty hfaults

theorem Reports.apply {f : Checked (α → β)} {x : Checked α} {faults more : List Fault}
    (hf : f.Reports (fun f => ∀ a, p a → q (f a)) faults) (hx : x.Reports p more) :
    (f <*> x).Reports q (faults ++ more) := by
  cases hf with
  | ok hf =>
      cases hx with
      | ok ha => exact .ok (hf _ ha)
      | faulty hmore => exact .faulty hmore
  | faulty hfaults =>
      cases hx with
      | ok ha =>
          rw [List.append_nil]
          exact .faulty hfaults
      | faulty hmore => exact .faulty (List.append_ne_nil_of_left_ne_nil hfaults _)

/-- What is checked gives some declared fields with a property, or reports all their faults. -/
def Covers (x : Checked α) (path : List Key) (fields : Fields Value)
    (declared : List (Declared Shape)) (p : α → Fields Value → Prop) : Prop :=
  ∃ faults, (Shape.record declared).Lists (.object fields) faults ∧
    x.Reports (fun a => ∃ held, Shape.HoldsFields declared fields held ∧ p a held)
      (faults.map (Fault.under path))

variable {path : List Key} {fields : Fields Value} {declared more : List (Declared Shape)}

theorem covers_nil {a : α} {p : α → Fields Value → Prop} (h : p a []) :
    (Checked.ok a).Covers path fields [] p := by
  refine ⟨[], .nil fun _ _ hinvalid => ?_, .ok ⟨[], .nil, h⟩⟩
  obtain ⟨f, hf, -⟩ := hinvalid.exists_name
  cases hf

theorem Covers.map {x : Checked α} {f : α → β} {p : α → Fields Value → Prop}
    {q : β → Fields Value → Prop} (hx : x.Covers path fields declared p)
    (h : ∀ a held, p a held → q (f a) held) : (f <$> x).Covers path fields declared q := by
  obtain ⟨faults, hfaults, hx⟩ := hx
  refine ⟨faults, hfaults, hx.map ?_⟩
  rintro a ⟨held, hheld, ha⟩
  exact ⟨held, hheld, h a held ha⟩

theorem Covers.apply {f : Checked (α → β)} {x : Checked α} {p : α → Fields Value → Prop}
    {q : β → Fields Value → Prop}
    (hf : f.Covers path fields declared fun f held =>
      ∀ a held', p a held' → q (f a) (held ++ held'))
    (hx : x.Covers path fields more p)
    (hdisjoint : ∀ f ∈ declared, ∀ g ∈ more, ∀ name ∈ f.names, name ∉ g.names) :
    (f <*> x).Covers path fields (declared ++ more) q := by
  obtain ⟨faults, hfaults, hf⟩ := hf
  obtain ⟨faults', hfaults', hx⟩ := hx
  refine ⟨faults ++ faults', hfaults.append hfaults' hdisjoint, ?_⟩
  rw [List.map_append]
  refine (hf.mono ?_).apply hx
  rintro f ⟨held, hheld, h⟩ a ⟨held', hheld', ha⟩
  exact ⟨held ++ held', hheld.append hheld', h a held' ha⟩

end Checked

namespace Check

variable {α : Type} {check : Check α} {shape : Shape} {write : α → Value} {path : List Key}
  {fields : Fields Value} {name : String}

/-- A check passes what has the shape, which it holds as it is written, and lists the faults of all
else. -/
def Meets (check : Check α) (shape : Shape) (write : α → Value) : Prop :=
  ∀ path v, ∃ faults, shape.Lists v faults ∧
    (check path v).Reports (fun a => shape.Holds v (write a)) (faults.map (Fault.under path))

theorem meets_anything : anything.Meets .anything id :=
  fun _ _ => ⟨[], .nil fun _ _ h => (nomatch h), .ok .anything⟩

theorem meets_text : text.Meets .text .text := by
  intro path v
  cases v with
  | text s => exact ⟨[], .nil fun _ _ h => h.not_holds _ .text, .ok .text⟩
  | _ =>
      refine ⟨[⟨[], .notText⟩], .singleton fun _ _ => ⟨?_, ?_⟩, .fault path .notText⟩
      · rintro ⟨⟩
        exact ⟨rfl, rfl⟩
      · rintro ⟨rfl, rfl⟩
        exact .text (by simp)

theorem meets_coordinate : coordinate.Meets .coordinate Coordinate.toValue := by
  intro path v
  cases v with
  | number n => exact ⟨[], .nil fun _ _ h => h.not_holds _ .number, .ok .number⟩
  | bool b => exact ⟨[], .nil fun _ _ h => h.not_holds _ .flag, .ok .flag⟩
  | text s => exact ⟨[], .nil fun _ _ h => h.not_holds _ .numeral, .ok .numeral⟩
  | _ =>
      refine ⟨[⟨[.name "int"], .notInteger⟩, ⟨[.name "float"], .notFloat⟩,
        ⟨[.name "str"], .notText⟩], ⟨fun _ _ => ⟨?_, ?_⟩, by decide⟩, .faulty (by simp)⟩
      · intro h
        simp only [List.mem_cons, Fault.mk.injEq, List.not_mem_nil, or_false] at h
        obtain ⟨rfl, rfl⟩ | ⟨rfl, rfl⟩ | ⟨rfl, rfl⟩ := h <;>
          exact .coordinate (fun _ hw => nomatch hw) (by decide)
      · intro h
        cases h with
        | coordinate _ hkind => 
            simp only [List.mem_cons, Prod.mk.injEq, List.not_mem_nil, or_false] at hkind
            obtain ⟨rfl, rfl⟩ | ⟨rfl, rfl⟩ | ⟨rfl, rfl⟩ := hkind <;> decide

theorem Meets.nullable (h : check.Meets shape write) :
    (nullable check).Meets (.nullable shape) (·.elim .null write) := by
  intro path v
  by_cases hv : v = .null
  · subst hv
    exact ⟨[], .nil fun _ _ h => h.not_holds _ .null, .ok .null⟩
  · obtain ⟨faults, hfaults, hcheck⟩ := h path v
    have hnullable : Check.nullable check path v = (check path v).map some := by
      cases v with
      | null => exact absurd rfl hv
      | _ => rfl
    refine ⟨faults, ⟨fun rest kind => ?_, ?_⟩, ?_⟩
    · rw [hfaults.mem]
      constructor
      · exact .nonnull hv
      · rintro ⟨⟩
        assumption
    · simpa only [Shape.place_nullable] using hfaults.order
    · rw [hnullable]
      exact hcheck.map fun a ha => .nonnull hv ha

/-- The faults of the items from one on. -/
theorem Meets.itemsFrom (h : check.Meets shape write) (path : List Key) (n : Nat)
    (vs : List Value) : ∃ faults : List Fault,
      (∀ rest kind, ⟨rest, kind⟩ ∈ faults ↔ ∃ i v rest', vs[i]? = some v ∧
        rest = .index (n + i) :: rest' ∧ shape.Invalid v rest' kind) ∧
      (faults.Pairwise fun a b =>
        List.Lex (· < ·) ((Shape.items shape).place a.path) ((Shape.items shape).place b.path)) ∧
      (itemsFrom check path n vs).Reports (fun as => shape.HoldsItems vs (as.map write))
        (faults.map (Fault.under path)) := by
  induction vs generalizing n with
  | nil => exact ⟨[], by simp, .nil, .ok .nil⟩
  | cons v vs ih =>
      obtain ⟨faults, hfaults, hcheck⟩ := h (path ++ [.index n]) v
      obtain ⟨later, hlater, horder, hitems⟩ := ih (n + 1)
      refine ⟨faults.map (Fault.under [.index n]) ++ later, fun rest kind => ?_, ?_, ?_⟩
      · rw [List.mem_append, Shape.mem_map_under, hlater]
        constructor
        · rintro (⟨rest', rfl, hmem⟩ | ⟨i, w, rest', hw, rfl, hinvalid⟩)
          · exact ⟨0, v, rest', rfl, rfl, (hfaults.mem _ _).1 hmem⟩
          · exact ⟨i + 1, w, rest', hw, by rw [Nat.add_right_comm, Nat.add_assoc], hinvalid⟩
        · rintro ⟨i, w, rest', hw, rfl, hinvalid⟩
          cases i with
          | zero =>
              obtain rfl : v = w := by simpa using hw
              exact .inl ⟨rest', rfl, (hfaults.mem _ _).2 hinvalid⟩
          | succ i =>
              exact .inr ⟨i, w, rest', hw, by rw [Nat.add_right_comm, Nat.add_assoc], hinvalid⟩
      · refine List.pairwise_append.2 ⟨Shape.pairwise_map_under rfl hfaults.order, horder, ?_⟩
        intro a ha b hb
        obtain ⟨rest, ha, -⟩ := Shape.mem_map_under.1 ha
        obtain ⟨i, _, rest', -, hb, -⟩ := (hlater b.path b.kind).1 hb
        rw [ha, hb, Shape.place_cons rfl, Shape.place_cons rfl, List.cons_lex_cons_iff]
        exact .inl (by omega)
      · have hfaults' : (faults.map (Fault.under [.index n]) ++ later).map (Fault.under path) =
            faults.map (Fault.under (path ++ [.index n])) ++ later.map (Fault.under path) := by
          simp [Fault.under]
        rw [hfaults']
        exact (hcheck.map fun a ha as has => .cons ha has).apply hitems

theorem Meets.items (h : check.Meets shape write) :
    (items check).Meets (.items shape) (.list <| ·.map write) := by
  intro path v
  cases v with
  | list vs =>
      obtain ⟨faults, hfaults, horder, hitems⟩ := h.itemsFrom path 0 vs
      refine ⟨faults, ⟨fun rest kind => (hfaults rest kind).trans ⟨?_, ?_⟩, horder⟩,
        hitems.mono fun as has => .items has⟩
      · rintro ⟨i, v, rest', hv, rfl, hinvalid⟩
        rw [Nat.zero_add]
        exact .item hv hinvalid
      · intro hinvalid
        cases hinvalid with
        | notList h => exact absurd rfl (h vs)
        | item hv hinvalid => exact ⟨_, _, _, hv, by rw [Nat.zero_add], hinvalid⟩
  | _ =>
      refine ⟨[⟨[], .notList⟩], .singleton fun _ _ => ⟨?_, ?_⟩, .fault path .notList⟩
      · rintro ⟨⟩
        exact ⟨rfl, rfl⟩
      · rintro ⟨rfl, rfl⟩
        exact .notList (by simp)

/-- A field that is given is checked, and is held under its own name. -/
theorem Meets.given {f : Declared Shape} {v : Value} (h : check.Meets f.shape write)
    (hgiven : f.given? fields = some (name, v)) :
    (check (path ++ [.name name]) v).Covers path fields [f]
      (fun a held => held = [(f.name, write a)]) := by
  obtain ⟨faults, hfaults, hcheck⟩ := h (path ++ [.name name]) v
  refine ⟨_, hfaults.field hgiven, ?_⟩
  have hunder : (faults.map (Fault.under [.name name])).map (Fault.under path) =
      faults.map (Fault.under (path ++ [.name name])) := by
    simp [Fault.under]
  rw [hunder]
  exact hcheck.mono fun a ha => ⟨_, .given hgiven ha .nil, rfl⟩

/-- A field that is not given is what it is by default. -/
theorem covers_default {f : Declared Shape} {a : α} (hgiven : f.given? fields = none)
    (hname : f.names.head? = some name) (hdefault : f.default? = some (write a)) :
    (Checked.ok a).Covers path fields [f] (fun a held => held = [(f.name, write a)]) := by
  refine ⟨_, Shape.Lists.field_none hgiven hname, ?_⟩
  rw [hdefault]
  exact .ok ⟨_, .default hgiven hdefault .nil, rfl⟩

theorem Meets.required (h : check.Meets shape write) :
    (required path fields name check).Covers path fields [.required name shape]
      (fun a held => held = [(name, write a)]) := by
  have hgiven := Declared.given?_required name shape fields
  rw [Check.required]
  split
  · next v hv =>
      rw [hv] at hgiven
      exact h.given (f := .required name shape) hgiven
  · next hnone =>
      rw [hnone] at hgiven
      exact ⟨_, Shape.Lists.field_none hgiven rfl, .faulty (List.cons_ne_nil _ _)⟩

theorem Meets.optional (h : check.Meets shape write) {default : α} :
    (optional path fields name default check).Covers path fields
      [.optional name shape (write default)] (fun a held => held = [(name, write a)]) := by
  have hgiven := Declared.given?_optional name shape (write default) fields
  rw [Check.optional]
  split
  · next v hv =>
      rw [hv] at hgiven
      exact h.given (f := .optional name shape (write default)) hgiven
  · next hnone =>
      rw [hnone] at hgiven
      exact covers_default hgiven rfl rfl

theorem Meets.either (h : check.Meets shape write) {first : String} {default : α} :
    (either path fields first name default check).Covers path fields
      [.aliased first name shape (write default)] (fun a held => held = [(name, write a)]) := by
  have hgiven : (Declared.aliased first name shape (write default)).given? fields =
      ((Fields.get? fields first).map fun v => (first, v)).or
        ((Fields.get? fields name).map fun v => (name, v)) := by
    cases hfirst : Fields.get? fields first <;> simp [Declared.given?, Declared.aliased, hfirst]
  rw [Check.either]
  split
  · next v hv =>
      rw [hv] at hgiven
      exact h.given (f := .aliased first name shape (write default)) hgiven
  · next hnone =>
      rw [hnone] at hgiven
      rw [Check.optional]
      split
      · next v hv =>
          rw [hv] at hgiven
          exact h.given (f := .aliased first name shape (write default)) hgiven
      · next hnone =>
          rw [hnone] at hgiven
          exact covers_default hgiven rfl rfl

theorem meets_record {check : List Key → Fields Value → Checked α}
    {declared : List (Declared Shape)} {write : α → Fields Value}
    (h : ∀ path fields, (check path fields).Covers path fields declared
      (fun a held => held = write a)) :
    (record .notObject check).Meets (.record declared) (.object <| write ·) := by
  intro path v
  cases v with
  | object fields =>
      obtain ⟨faults, hfaults, hcheck⟩ := h path fields
      refine ⟨faults, hfaults, hcheck.mono ?_⟩
      rintro a ⟨_, hheld, rfl⟩
      exact .record hheld
  | _ =>
      refine ⟨[⟨[], .notObject⟩], .singleton fun _ _ => ⟨?_, ?_⟩, .fault path .notObject⟩
      · rintro ⟨⟩
        exact ⟨rfl, rfl⟩
      · rintro ⟨rfl, rfl⟩
        exact .notObject (by simp)

end Check

end EventFlow
