import EventFlow.Proofs.InPlace
import Mathlib.Data.List.Induction

/-!
What holds of values that are read.

A value is read from the inside out. What holds of the words, the numbers and the texts of a
spelling and passes from the parts to the list or object around them holds of everything that the
reader has completed (`Reader.Kept.step`), and so of the value that it ends with, at any depth
(`Reader.Kept.of_read`). Such a value names nothing twice, as a name that comes again keeps its
place, and has no whole number beyond the digit limit.
-/

namespace EventFlow

def Token.Holds (P : Value → Prop) : Token → Prop
  | .scalar v => P v
  | _ => True

namespace Reader

structure Kept (limit : Nat) (P : Value → Prop) : Prop where
  word : ∀ entry ∈ Token.words, P entry.2
  number : ∀ {cs rest : List Char} {t : Token},
    Token.scanNumber limit cs = some (t, rest) → t.Holds P
  text : ∀ s, P (.text s)
  list : ∀ {items : List Value}, (∀ v ∈ items, P v) → P (.list items)
  empty : P (.object [])
  put : ∀ {fields : Fields Value} {v : Value} (name : String),
    P (.object fields) → P v → P (.object (Fields.put fields name v))

namespace Kept

variable {limit : Nat} {P : Value → Prop}

/-! ### Tokens -/

theorem of_scanWord (hP : Kept limit P) {cs rest : List Char} {t : Token}
    (h : Token.scanWord cs = some (t, rest)) : t.Holds P := by
  obtain ⟨⟨word, v⟩, hmem, h⟩ := List.exists_of_findSome?_eq_some h
  obtain ⟨_, _, heq⟩ := Option.map_eq_some_iff.1 h
  cases heq
  exact hP.word (word, v) hmem

theorem of_scanOne (hP : Kept limit P) {cs rest : List Char} {t : Token}
    (h : Token.scanOne limit cs = some (t, rest)) : t.Holds P := by
  rw [Token.scanOne.eq_def] at h
  split at h
  case h_1 => cases h
  case h_8 =>
    obtain ⟨_, _, heq⟩ := Option.map_eq_some_iff.1 h
    cases heq
    trivial
  case h_9 =>
    obtain hword | ⟨-, hnumber⟩ := Option.or_eq_some_iff.1 h
    · exact hP.of_scanWord hword
    · exact hP.number hnumber
  all_goals
    cases h
    trivial

theorem of_mem_scan (hP : Kept limit P) {cs : List Char} :
    ∀ t ∈ Token.scan limit cs, t.Holds P := by
  fun_induction Token.scan limit cs with
  | case1 => simp
  | case2 c cs hlayout ih => exact ih
  | case3 c cs hlayout hnone => simp [Token.Holds]
  | case4 c cs hlayout t rest hscan ih =>
      exact List.forall_mem_cons.2 ⟨hP.of_scanOne hscan, ih⟩

end Kept

/-! ### Steps of the reader -/

variable {limit : Nat} {P : Value → Prop}

def Frame.Holds (P : Value → Prop) : Frame → Prop
  | .list items => ∀ v ∈ items, P v
  | .object fields | .member fields _ => P (.object fields)

structure State.Holds (P : Value → Prop) (s : State) : Prop where
  frames : ∀ frame ∈ s.frames, frame.Holds P
  complete : ∀ v, s.expecting = .nothing v → P v

/-- A new frame on top, and no value complete. -/
theorem holds_open {frame : Frame} {frames : List Frame} {expecting : Expecting}
    (hframe : frame.Holds P) (hframes : ∀ frame ∈ frames, frame.Holds P)
    (hopen : ∀ v, expecting ≠ .nothing v) : State.Holds P ⟨frame :: frames, expecting⟩ :=
  ⟨List.forall_mem_cons.2 ⟨hframe, hframes⟩, fun v hv => absurd hv (hopen v)⟩

theorem holds_of_beginMember {t : Token} {frames : List Frame} {s' : State}
    (hframes : ∀ frame ∈ frames, frame.Holds P) (h : beginMember t frames = .ok s') :
    s'.Holds P := by
  rw [beginMember.eq_def] at h
  split at h
  · obtain ⟨hframe, hrest⟩ := List.forall_mem_cons.1 hframes
    split at h
    · cases h
      exact holds_open hframe hrest (by simp)
    · cases h
  · cases h

namespace Kept

variable {s s' : State} {t : Token} {frames : List Frame}

theorem complete (hP : Kept limit P) {v : Value} (hv : P v)
    (hframes : ∀ frame ∈ frames, frame.Holds P) : (Reader.complete v frames).Holds P := by
  cases frames with
  | nil => exact ⟨hframes, fun w hw => by cases hw; exact hv⟩
  | cons frame frames =>
      obtain ⟨hframe, hrest⟩ := List.forall_mem_cons.1 hframes
      cases frame with
      | list items => exact holds_open (List.forall_mem_cons.2 ⟨hv, hframe⟩) hrest (by simp)
      | object fields => exact holds_open hframe hrest (by simp)
      | member fields name => exact holds_open (hP.put name hframe hv) hrest (by simp)

theorem of_beginValue (hP : Kept limit P) (ht : t.Holds P)
    (hframes : ∀ frame ∈ frames, frame.Holds P) (h : beginValue frames t = .ok s') :
    s'.Holds P := by
  cases t with
  | openList =>
      cases h
      exact holds_open (by simp [Frame.Holds]) hframes (by simp)
  | openObject =>
      cases h
      exact holds_open hP.empty hframes (by simp)
  | text s =>
      cases h
      exact hP.complete (hP.text s) hframes
  | scalar v =>
      cases h
      exact hP.complete ht hframes
  | _ => cases h

theorem of_close (hP : Kept limit P) (hframes : ∀ frame ∈ frames, frame.Holds P)
    (h : close t frames = .ok s') : s'.Holds P := by
  rw [close.eq_def] at h
  split at h
  · next items frames =>
      obtain ⟨hframe, hrest⟩ := List.forall_mem_cons.1 hframes
      split at h
      · cases h
        refine hP.complete (hP.list fun v hv => ?_) hrest
        exact hframe v (List.mem_reverse.1 hv)
      · cases h
  · next fields frames =>
      obtain ⟨hframe, hrest⟩ := List.forall_mem_cons.1 hframes
      split at h
      · cases h
        exact hP.complete hframe hrest
      · cases h
  · cases h

theorem step (hP : Kept limit P) (hs : s.Holds P) (ht : t.Holds P)
    (h : Reader.step s t = .ok s') : s'.Holds P := by
  rw [Reader.step.eq_def] at h
  split at h
  · exact hP.of_beginValue ht hs.frames h
  · split at h
    · exact hP.of_close hs.frames h
    · exact hP.of_beginValue ht hs.frames h
  · split at h
    · exact hP.of_close hs.frames h
    · exact holds_of_beginMember hs.frames h
  · exact holds_of_beginMember hs.frames h
  · split at h
    · cases h
      exact ⟨hs.frames, by simp⟩
    · cases h
  · split at h
    · cases h
      exact ⟨hs.frames, by simp⟩
    · cases h
      exact ⟨hs.frames, by simp⟩
    · exact hP.of_close hs.frames h
  · cases h

theorem run (hP : Kept limit P) {ts : List Token} (hs : s.Holds P) (hts : ∀ t ∈ ts, t.Holds P)
    (h : Reader.run s ts = .ok s') : s'.Holds P := by
  induction ts generalizing s with
  | nil =>
      cases h
      exact hs
  | cons t ts ih =>
      obtain ⟨ht, hts⟩ := List.forall_mem_cons.1 hts
      rw [Reader.run] at h
      split at h
      · next hstep => exact ih (hP.step hs ht hstep) hts h
      · cases h

theorem of_read (hP : Kept Numeral.digitLimit P) {text : String} {v : Value}
    (h : Value.read text = .ok v) : P v := by
  rw [Value.read, Value.readWithin] at h
  split at h
  · cases h
  · next s hrun =>
      have hstart : State.Holds P Reader.start := ⟨by simp [Reader.start], by simp [Reader.start]⟩
      have hs : s.Holds P := hP.run hstart hP.of_mem_scan hrun
      split at h
      · next hexpecting =>
          cases h
          exact hs.complete v hexpecting
      · cases h

end Kept

end Reader

namespace Value

/-! ### Names -/

theorem hasDistinctNames_list_iff {items : List Value} :
    (Value.list items).hasDistinctNames = true ↔ ∀ v ∈ items, v.hasDistinctNames = true := by
  rw [hasDistinctNames]
  induction items with
  | nil => simp [itemsDistinct]
  | cons v items ih => simp [itemsDistinct, ih]

theorem hasDistinctNames_object_iff {fields : Fields Value} :
    (Value.object fields).hasDistinctNames = true ↔
      (Fields.names fields).Nodup ∧ ∀ f ∈ fields, f.2.hasDistinctNames = true := by
  have hvalues : fieldsDistinct fields = true ↔ ∀ f ∈ fields, f.2.hasDistinctNames = true := by
    induction fields with
    | nil => simp [fieldsDistinct]
    | cons f fields ih => simp only [fieldsDistinct, Bool.and_eq_true, ih, List.forall_mem_cons]
  rw [hasDistinctNames, Bool.and_eq_true, decide_eq_true_eq, hvalues]

theorem kept_hasDistinctNames (limit : Nat) : Reader.Kept limit (·.hasDistinctNames = true) where
  word := by simp [Token.words, hasDistinctNames, float]
  number h := by
    obtain ⟨⟨parts, _⟩, _, heq⟩ := Option.map_eq_some_iff.1 h
    cases heq
    simp only [Token.Parts.token]
    split
    · split
      · trivial
      · rfl
    · rfl
  text _ := rfl
  list := hasDistinctNames_list_iff.2
  empty := rfl
  put name hfields hv := by
    obtain ⟨hnames, hvalues⟩ := hasDistinctNames_object_iff.1 hfields
    refine hasDistinctNames_object_iff.2 ⟨Fields.nodup_names_put name _ hnames, fun f hf => ?_⟩
    obtain hf | rfl := Fields.mem_of_mem_put hf
    · exact hvalues f hf
    · exact hv

/-- A value that is read names nothing twice. -/
theorem hasDistinctNames_of_read {text : String} {v : Value} (h : read text = .ok v) :
    v.hasDistinctNames = true :=
  (kept_hasDistinctNames Numeral.digitLimit).of_read h

end Value

/-! ### Whole numbers -/

theorem Text.natOfDigits_lt {ds : List Nat} (h : ∀ d ∈ ds, d < 10) :
    natOfDigits ds < 10 ^ ds.length := by
  induction ds using List.reverseRecOn with
  | nil => exact Nat.one_pos
  | append_singleton ds d ih =>
      obtain ⟨hds, hd⟩ := List.forall_mem_append.1 h
      have hd : d < 10 := hd d (List.mem_singleton_self d)
      have hds := ih hds
      rw [natOfDigits, List.foldl_append, List.length_append, Nat.pow_add]
      rw [natOfDigits] at hds
      simp only [List.foldl_cons, List.foldl_nil, List.length_singleton]
      omega

theorem Token.isAsciiDigit_of_scanWhole {cs whole rest : List Char}
    (h : scanWhole cs = some (whole, rest)) : ∀ c ∈ whole, Text.isAsciiDigit c = true := by
  rw [scanWhole.eq_def] at h
  split at h
  · cases h
  · cases h
    exact isRow_zero.2
  · simp only at h
    split at h
    · cases h
    · cases h
      exact List.all_eq_true.1 List.all_takeWhile

/-- A whole number is read only with a number of digits within the limit. -/
theorem Token.natOfDigits_lt_of_scanWhole {cs whole rest : List Char} {limit : Nat}
    (h : scanWhole cs = some (whole, rest)) (hlimit : whole.length ≤ limit) :
    Text.natOfDigits (whole.map (·.toNat - 48)) < Nat.pow 10 limit := by
  have hdigits : ∀ d ∈ whole.map (·.toNat - 48), d < 10 := by
    intro d hd
    obtain ⟨c, hc, rfl⟩ := List.mem_map.1 hd
    have hdigit := isAsciiDigit_of_scanWhole h c hc
    rw [Text.isAsciiDigit, Bool.and_eq_true, decide_eq_true_eq, decide_eq_true_eq] at hdigit
    omega
  calc Text.natOfDigits (whole.map (·.toNat - 48))
      < 10 ^ (whole.map (·.toNat - 48)).length := Text.natOfDigits_lt hdigits
    _ ≤ Nat.pow 10 limit := by
      rw [List.length_map]
      exact Nat.pow_le_pow_right (by omega) hlimit

namespace Value

theorem isWritable_int {n : Int} (h : n.natAbs < Nat.pow 10 Numeral.digitLimit) :
    (Value.int n).isWritable = true := by
  rw [int, isWritable, Number.isWritable, decide_eq_true_eq]
  exact h

theorem itemsWritable_of_forall {items : List Value} (h : ∀ v ∈ items, v.isWritable = true) :
    itemsWritable items = true := by
  induction items with
  | nil => rfl
  | cons v items ih =>
      obtain ⟨hv, hitems⟩ := List.forall_mem_cons.1 h
      rw [itemsWritable, hv, ih hitems]
      rfl

theorem kept_isWritable : Reader.Kept Numeral.digitLimit (·.isWritable = true) where
  word := by simp [Token.words, isWritable, float, Number.isWritable]
  number {cs} _ _ h := by
    obtain ⟨⟨parts, _⟩, hparts, heq⟩ := Option.map_eq_some_iff.1 h
    obtain ⟨⟨whole, after⟩, hwhole, hpart⟩ := Option.map_eq_some_iff.1 hparts
    have habs (negative : Bool) (n : Nat) : (if negative then -(n : Int) else n).natAbs = n := by
      cases negative <;> simp
    cases heq
    cases hpart
    simp only [Token.Parts.token]
    split
    · next hinteger =>
        split
        · trivial
        · next hlimit =>
            rw [Bool.and_eq_true, Option.isNone_iff_eq_none] at hinteger
            refine isWritable_int ?_
            rw [habs, hinteger.1, Option.getD_none, List.append_nil]
            exact Token.natOfDigits_lt_of_scanWhole hwhole (Nat.le_of_not_lt hlimit)
    · rfl
  text _ := rfl
  list := itemsWritable_of_forall
  empty := rfl
  put _ := fieldsWritable_put

/-- A value that is read holds no whole number beyond the digit limit. -/
theorem isWritable_of_read {text : String} {v : Value} (h : read text = .ok v) :
    v.isWritable = true :=
  kept_isWritable.of_read h

end Value

end EventFlow
