import EventFlow.Proofs.Placeholders
import EventFlow.Proofs.Projection

/-!
Resolving a value in place.

Lists and objects are resolved in their spelling, as one template. If each text in a value closes
its placeholders, and has nothing in them that is escaped between quotes, this comes to resolving
each text by itself, and the names are found in the order of the texts (`resolve_in_place`). Where
no text has a placeholder, the value is spelled and read back, and nothing changes.
-/

namespace EventFlow

namespace Names

theorem addAll_addAll (names seen more : List String) :
    addAll names (addAll seen more) = addAll (addAll names seen) more := by
  induction more generalizing seen with
  | nil => rfl
  | cons name more ih =>
      have hadd : addAll names (add seen name) = add (addAll names seen) name := by
        rw [add]
        split
        · next h => rw [add, if_pos (mem_addAll.2 (.inr h))]
        · rw [addAll_append]
          rfl
      change addAll names (addAll (add seen name) more) = addAll (add (addAll names seen) name) more
      rw [ih, hadd]

/-- Repetitions can be dropped in each part. -/
theorem addAll_flatMap {α : Type} (names : List String) (f : α → List String) (xs : List α) :
    addAll names (xs.flatMap fun x => addAll [] (f x)) = addAll names (xs.flatMap f) := by
  induction xs generalizing names with
  | nil => rfl
  | cons x xs ih =>
      rw [List.flatMap_cons, List.flatMap_cons, addAll_append, addAll_append, addAll_addAll, ih]
      rfl

end Names

namespace Fields

variable {α : Type}

theorem put_eq_append {fields : Fields α} {key : String} (h : key ∉ names fields) (a : α) :
    put fields key a = fields ++ [(key, a)] := by
  induction fields with
  | nil => rfl
  | cons field fields ih =>
      obtain ⟨hkey, hfields⟩ := not_or.1 (mt List.mem_cons.2 h)
      rw [put, if_neg (Ne.symm hkey), ih hfields, List.cons_append]

theorem foldl_put_eq_append {before entries : Fields α} (h : (names (before ++ entries)).Nodup) :
    entries.foldl (fun fields e => put fields e.1 e.2) before = before ++ entries := by
  induction entries generalizing before with
  | nil => exact (List.append_nil before).symm
  | cons e entries ih =>
      have hnew : e.1 ∉ names before := by
        rw [names, List.map_append, List.map_cons, List.nodup_append] at h
        exact fun he => h.2.2 e.1 he e.1 List.mem_cons_self rfl
      have hrest : before ++ e :: entries = (before ++ [e]) ++ entries := by simp
      rw [List.foldl_cons, put_eq_append hnew, hrest]
      exact ih (hrest ▸ h)

/-- Fields with different names are left as they are. -/
theorem ofEntries_of_nodup {entries : List (String × α)} (h : (names entries).Nodup) :
    ofEntries entries = entries :=
  foldl_put_eq_append h

end Fields

namespace Text

theorem dropWhile_congr {p q : Char → Bool} {cs : List Char} (h : ∀ c ∈ cs, p c = q c) :
    cs.dropWhile p = cs.dropWhile q := by
  induction cs with
  | nil => rfl
  | cons c cs ih =>
      obtain ⟨hc, hcs⟩ := List.forall_mem_cons.1 h
      rw [List.dropWhile_cons, List.dropWhile_cons, hc, ih hcs]

theorem trimWhile_congr {p q : Char → Bool} {cs : List Char} (h : ∀ c ∈ cs, p c = q c) :
    trimWhile p cs = trimWhile q cs := by
  have hrest : ∀ c ∈ (cs.dropWhile q).reverse, p c = q c := by
    intro c hc
    exact h c ((List.dropWhile_suffix q).subset (List.mem_reverse.1 hc))
  rw [trimWhile, trimWhile, dropWhile_congr h, dropEndWhile, dropEndWhile, dropWhile_congr hrest]

def isPlain (c : Char) : Bool :=
  c != '\x22' && c != '\\' && decide (0x20 ≤ c.toNat)

theorem escapeChar_of_isPlain {c : Char} (h : isPlain c = true) : escapeChar c = [c] := by
  simp only [isPlain, Bool.and_eq_true, bne_iff_ne, decide_eq_true_eq] at h
  obtain ⟨⟨hquote, hbackslash⟩, hc⟩ := h
  rcases escapeChar_marks c with ⟨hself, -⟩ | ⟨hcontrol | rfl | rfl, -⟩
  · exact hself
  · omega
  · exact absurd rfl hquote
  · exact absurd rfl hbackslash

theorem isPlainBlank_of_isPlain {c : Char} (h : isPlain c = true) :
    isPlainBlank c = isBlank c := by
  simp only [isPlain, Bool.and_eq_true] at h
  rw [isPlainBlank, h.2, Bool.and_true]

end Text

namespace Template

/-- A text closes its placeholders, and nothing in them is escaped between quotes. -/
structure IsContained (s : String) : Prop where
  closes : closes s.toList = true
  plain : ∀ body, Piece.placeholder body ∈ pieces s.toList → ∀ c ∈ body, Text.isPlain c = true

def referred (cs : List Char) : List String :=
  (pieces cs).flatMap fun piece => piece.name?.toList

theorem referred_nil : referred [] = [] := by
  rw [referred, pieces_of_none rfl]
  rfl

theorem names_resolve (s : String) :
    (resolve s).names = Names.addAll [] (referred s.toList) := by
  rw [resolve, referred, List.filterMap_eq_flatMap_toList]

namespace IsContained

variable {s : String} (h : IsContained s)

include h

theorem resolveQuoted_eq : resolveQuoted s = (resolve s).value := by
  refine congrArg String.ofList (List.flatMap_congr fun piece hpiece => ?_)
  cases piece with
  | plain text => rfl
  | placeholder body =>
      have hbody := h.plain body hpiece
      rw [Piece.writeQuoted, Piece.write, quotedName, name,
        Text.trimWhile_congr fun c hc => Text.isPlainBlank_of_isPlain (hbody c hc)]

theorem referred_escape : referred (s.toList.flatMap Text.escapeChar) = referred s.toList := by
  rw [referred, pieces_escape, List.flatMap_map]
  refine List.flatMap_congr fun piece hpiece => ?_
  cases piece with
  | plain text => rfl
  | placeholder body =>
      have hbody : body.flatMap Text.escapeChar = body := by
        rw [List.flatMap_congr fun c hc => Text.escapeChar_of_isPlain (h.plain body hpiece c hc)]
        exact List.flatMap_singleton' body
      rw [Piece.escape, hbody]

end IsContained

theorem referred_append_of_notMem {cs : List Char} (h : '\x7b' ∉ cs) (rest : List Char) :
    referred (cs ++ rest) = referred rest :=
  gathered_append_of_notMem (fun _ _ => rfl) h rest

theorem referred_cons {c : Char} (h : c ≠ '\x7b') (rest : List Char) :
    referred (c :: rest) = referred rest := by
  have hc : '\x7b' ∉ [c] := by simpa using h.symm
  exact referred_append_of_notMem hc rest

theorem referred_brace {rest : List Char} (h : rest.head? ≠ some '\x7b') :
    referred ('\x7b' :: rest) = referred rest :=
  gathered_brace (fun _ _ => rfl) h

theorem referred_doubleQuoted {s : String} (h : IsContained s) (rest : List Char) :
    referred (Text.doubleQuoted s ++ rest) = referred s.toList ++ referred rest := by
  have hconfined : isConfined s rest = true := by rw [isConfined, h.closes, Bool.true_or]
  rw [← h.referred_escape]
  exact gathered_doubleQuoted (fun _ _ => rfl) hconfined

theorem cutAtPair_eq_none {c : Char} {cs : List Char} (h : ¬ [c, c] <:+: cs) :
    cutAtPair c cs = none := by
  refine Option.eq_none_iff_forall_ne_some.2 fun cut hcut => h ⟨cut.1, cut.2, ?_⟩
  rw [eq_of_cutAtPair hcut]
  simp

/-- A text without an opening pair is one plain piece. -/
theorem pieces_of_no_pair {s : String} (h : ¬ ['\x7b', '\x7b'] <:+: s.toList) :
    pieces s.toList = [.plain s.toList] := by
  apply pieces_of_none
  rw [nextPlaceholder, cutAtPair_eq_none h]
  rfl

theorem isContained_of_no_pair {s : String} (h : ¬ ['\x7b', '\x7b'] <:+: s.toList) :
    IsContained s := by
  have hpieces := pieces_of_no_pair h
  refine ⟨?_, fun body hbody => ?_⟩
  · simp [Template.closes, hpieces, Piece.isClosed, cutAtPair_eq_none h]
  · simp [hpieces] at hbody

theorem resolve_of_no_pair {s : String} (h : ¬ ['\x7b', '\x7b'] <:+: s.toList) :
    resolve s = ⟨s, []⟩ := by
  simp only [resolve, pieces_of_no_pair h, List.flatMap_singleton]
  exact congrArg (Resolved.mk · []) String.ofList_toList

end Template

namespace Value

open EventFlow.Template

/-! ### The texts of a value -/

mutual

/-- The names and what is neither a list nor an object, in the order in which they are written. -/
def leaves : Value → List Value
  | .list items => itemsLeaves items
  | .object fields => fieldsLeaves fields
  | v => [v]

def itemsLeaves : List Value → List Value
  | [] => []
  | v :: rest => v.leaves ++ itemsLeaves rest

def fieldsLeaves : List (String × Value) → List Value
  | [] => []
  | (k, v) :: rest => .text k :: (v.leaves ++ fieldsLeaves rest)

end

section Leaves

variable {k : String} {v leaf : Value} {fields : List (String × Value)}

theorem mem_fieldsLeaves_of_value (h : leaf ∈ v.leaves) : leaf ∈ fieldsLeaves ((k, v) :: fields) :=
  List.mem_cons_of_mem _ (List.mem_append_left _ h)

theorem mem_fieldsLeaves_of_rest (h : leaf ∈ fieldsLeaves fields) :
    leaf ∈ fieldsLeaves ((k, v) :: fields) :=
  List.mem_cons_of_mem _ (List.mem_append_right _ h)

end Leaves

def text? : Value → Option String
  | .text s => some s
  | _ => none

def texts (v : Value) : List String :=
  v.leaves.filterMap text?

mutual

/-- The value with `f` applied to its texts and names. Where names become equal, the last value
stands at the place of the first. -/
def replaceTexts (f : String → String) : Value → Value
  | .text s => .text (f s)
  | .list items => .list (replaceItems f items)
  | .object fields => .object (Fields.ofEntries (replaceFields f fields))
  | v => v

def replaceItems (f : String → String) : List Value → List Value
  | [] => []
  | v :: rest => v.replaceTexts f :: replaceItems f rest

def replaceFields (f : String → String) : List (String × Value) → List (String × Value)
  | [] => []
  | (k, v) :: rest => (f k, v.replaceTexts f) :: replaceFields f rest

end

theorem mem_texts {v : Value} {s : String} : s ∈ v.texts ↔ .text s ∈ v.leaves := by
  rw [texts, List.mem_filterMap]
  constructor
  · rintro ⟨leaf, hleaf, hs⟩
    cases leaf <;> cases hs
    exact hleaf
  · exact fun h => ⟨.text s, h, rfl⟩

mutual

/-- Where each text closes its placeholders, none of them reaches from one text into another. -/
theorem isConfined_of_closes {v : Value}
    (h : ∀ s, .text s ∈ v.leaves → closes s.toList = true) (rest : List Char) :
    v.isConfined rest = true := by
  cases v with
  | text s => rw [isConfined, Template.isConfined, h s List.mem_cons_self, Bool.true_or]
  | list items => exact itemsConfined_of_closes h _
  | object fields => exact fieldsConfined_of_closes h _
  | _ => rfl

theorem itemsConfined_of_closes {items : List Value}
    (h : ∀ s, .text s ∈ itemsLeaves items → closes s.toList = true) (rest : List Char) :
    itemsConfined rest items = true := by
  cases items with
  | nil => rfl
  | cons v items =>
      rw [itemsConfined, Bool.and_eq_true]
      exact ⟨isConfined_of_closes (fun s hs => h s (List.mem_append_left _ hs)) _,
        itemsConfined_of_closes (fun s hs => h s (List.mem_append_right _ hs)) _⟩

theorem fieldsConfined_of_closes {fields : List (String × Value)}
    (h : ∀ s, .text s ∈ fieldsLeaves fields → closes s.toList = true) (rest : List Char) :
    fieldsConfined rest fields = true := by
  cases fields with
  | nil => rfl
  | cons field fields =>
      obtain ⟨k, v⟩ := field
      rw [fieldsConfined, Bool.and_eq_true, Bool.and_eq_true, Template.isConfined,
        h k List.mem_cons_self, Bool.true_or]
      exact ⟨⟨rfl, isConfined_of_closes (fun s hs => h s (mem_fieldsLeaves_of_value hs)) _⟩,
        fieldsConfined_of_closes (fun s hs => h s (mem_fieldsLeaves_of_rest hs)) _⟩

end

def referredBy (leaves : List Value) : List String :=
  (leaves.filterMap text?).flatMap fun s => referred s.toList

theorem referredBy_append (leaves more : List Value) :
    referredBy (leaves ++ more) = referredBy leaves ++ referredBy more := by
  rw [referredBy, List.filterMap_append, List.flatMap_append, referredBy, referredBy]

theorem referredBy_text (s : String) : referredBy [.text s] = referred s.toList :=
  List.append_nil _

theorem referredBy_field (k : String) (v : Value) (fields : List (String × Value)) :
    referredBy (fieldsLeaves ((k, v) :: fields)) =
      (referred k.toList ++ referredBy v.leaves) ++ referredBy (fieldsLeaves fields) := by
  rw [fieldsLeaves, ← List.singleton_append, referredBy_append, referredBy_append,
    referredBy_text, List.append_assoc]

/-- A name refers to what it refers to as a text. -/
theorem referred_member {key : String} (h : IsContained key) (rest : List Char) :
    referred (jsonSpelling.text key ++ ':' :: ' ' :: rest) =
      referred key.toList ++ referred rest := by
  rw [jsonSpelling, referred_doubleQuoted h, referred_cons (by decide), referred_cons (by decide)]

mutual

/-- The names in the spelling of a value are those in its texts, in their order. -/
theorem referred_write {v : Value} (h : ∀ s, .text s ∈ v.leaves → IsContained s)
    (rest : List Char) :
    referred (write jsonSpelling v ++ rest) = referredBy v.leaves ++ referred rest := by
  cases v with
  | null => exact referred_append_of_notMem (by decide) rest
  | bool b => cases b <;> exact referred_append_of_notMem (by decide) rest
  | number n => exact referred_append_of_notMem (n.notMem_write (by decide) (by decide)) rest
  | text s =>
      have hleaves : referredBy (Value.text s).leaves = referred s.toList := referredBy_text s
      rw [hleaves]
      exact referred_doubleQuoted (h s List.mem_cons_self) rest
  | list items =>
      simp only [write, leaves, List.cons_append, List.append_assoc, List.nil_append]
      rw [referred_cons (by decide)]
      cases items with
      | nil => exact referred_cons (by decide) rest
      | cons v items =>
          simp only [writeItems, Text.join_cons_eq, List.append_assoc]
          rw [referred_write (fun s hs => h s (List.mem_append_left _ hs)),
            referred_writeItems (fun s hs => h s (List.mem_append_right _ hs)),
            referred_cons (by decide), itemsLeaves, referredBy_append, List.append_assoc]
  | object fields =>
      simp only [write, leaves, List.cons_append, List.append_assoc, List.nil_append]
      cases fields with
      | nil =>
          rw [referred_brace (by simp [writeFields, Text.join])]
          exact referred_cons (by decide) rest
      | cons field fields =>
          obtain ⟨k, v⟩ := field
          simp only [writeFields, Text.join_cons_eq, List.append_assoc, List.cons_append]
          -- A quote follows the brace, so the two texts around it cannot make it a pair.
          rw [referred_brace (by simp [jsonSpelling, Text.doubleQuoted]),
            referred_member (h k List.mem_cons_self),
            referred_write (fun s hs => h s (mem_fieldsLeaves_of_value hs)),
            referred_writeFields (fun s hs => h s (mem_fieldsLeaves_of_rest hs)),
            referred_cons (by decide), referredBy_field, List.append_assoc, List.append_assoc]

theorem referred_writeItems {items : List Value}
    (h : ∀ s, .text s ∈ itemsLeaves items → IsContained s) (rest : List Char) :
    referred (Text.following (writeItems jsonSpelling items) ++ rest) =
      referredBy (itemsLeaves items) ++ referred rest := by
  cases items with
  | nil => rfl
  | cons v items =>
      simp only [writeItems, Text.following_cons, List.cons_append, List.append_assoc]
      rw [referred_cons (by decide), referred_cons (by decide),
        referred_write (fun s hs => h s (List.mem_append_left _ hs)),
        referred_writeItems (fun s hs => h s (List.mem_append_right _ hs)), itemsLeaves,
        referredBy_append, List.append_assoc]

theorem referred_writeFields {fields : List (String × Value)}
    (h : ∀ s, .text s ∈ fieldsLeaves fields → IsContained s) (rest : List Char) :
    referred (Text.following (writeFields jsonSpelling fields) ++ rest) =
      referredBy (fieldsLeaves fields) ++ referred rest := by
  cases fields with
  | nil => rfl
  | cons field fields =>
      obtain ⟨k, v⟩ := field
      simp only [writeFields, Text.following_cons, List.cons_append, List.append_assoc]
      rw [referred_cons (by decide), referred_cons (by decide),
        referred_member (h k List.mem_cons_self),
        referred_write (fun s hs => h s (mem_fieldsLeaves_of_value hs)),
        referred_writeFields (fun s hs => h s (mem_fieldsLeaves_of_rest hs)),
        referredBy_field, List.append_assoc, List.append_assoc]

end

/-! ### Reading back -/

/-- Whether a leaf is read from its spelling as it is. -/
def Survives (leaf : Value) : Prop :=
  read leaf.json = .ok leaf

theorem reread_number {n : Number} (hwritable : n.isWritable = true)
    (hfloats : ∀ x, n = .float x → Survives (.float x)) : n.reread = n := by
  cases n with
  | int n => exact Number.reread_int hwritable
  | float x =>
      have hread : Except.ok (Value.float x).reread = .ok (Value.float x) :=
        (read_json rfl).symm.trans (hfloats x rfl)
      exact Value.number.inj (Except.ok.inj hread)

mutual

theorem reread_mapTexts {f g : String → String} {v : Value} (hwritable : v.isWritable = true)
    (hfloats : ∀ x, Value.float x ∈ v.leaves → Survives (.float x))
    (htexts : ∀ s, .text s ∈ v.leaves → g s = f s) :
    (v.mapTexts g).reread = v.replaceTexts f := by
  cases v with
  | null => rfl
  | bool b => rfl
  | number n =>
      have hn := reread_number hwritable fun x hx => hfloats x (hx ▸ List.mem_cons_self)
      exact congrArg Value.number hn
  | text s => exact congrArg Value.text (htexts s List.mem_cons_self)
  | list items => exact congrArg Value.list (reread_mapItems hwritable hfloats htexts)
  | object fields =>
      exact congrArg (fun fields => Value.object (Fields.ofEntries fields))
        (reread_mapFields hwritable hfloats htexts)

theorem reread_mapItems {f g : String → String} {items : List Value}
    (hwritable : itemsWritable items = true)
    (hfloats : ∀ x, Value.float x ∈ itemsLeaves items → Survives (.float x))
    (htexts : ∀ s, .text s ∈ itemsLeaves items → g s = f s) :
    rereadItems (mapItems g items) = replaceItems f items := by
  cases items with
  | nil => rfl
  | cons v items =>
      rw [itemsWritable, Bool.and_eq_true] at hwritable
      rw [mapItems, rereadItems, replaceItems,
        reread_mapTexts hwritable.1 (fun x hx => hfloats x (List.mem_append_left _ hx))
          (fun s hs => htexts s (List.mem_append_left _ hs)),
        reread_mapItems hwritable.2 (fun x hx => hfloats x (List.mem_append_right _ hx))
          (fun s hs => htexts s (List.mem_append_right _ hs))]

theorem reread_mapFields {f g : String → String} {fields : List (String × Value)}
    (hwritable : fieldsWritable fields = true)
    (hfloats : ∀ x, Value.float x ∈ fieldsLeaves fields → Survives (.float x))
    (htexts : ∀ s, .text s ∈ fieldsLeaves fields → g s = f s) :
    rereadFields (mapFields g fields) = replaceFields f fields := by
  cases fields with
  | nil => rfl
  | cons field fields =>
      obtain ⟨k, v⟩ := field
      rw [fieldsWritable, Bool.and_eq_true] at hwritable
      rw [mapFields, rereadFields, replaceFields, htexts k List.mem_cons_self,
        reread_mapTexts hwritable.1 (fun x hx => hfloats x (mem_fieldsLeaves_of_value hx))
          (fun s hs => htexts s (mem_fieldsLeaves_of_value hs)),
        reread_mapFields hwritable.2 (fun x hx => hfloats x (mem_fieldsLeaves_of_rest hx))
          (fun s hs => htexts s (mem_fieldsLeaves_of_rest hs))]

end

mutual

def hasDistinctNames : Value → Bool
  | .list items => itemsDistinct items
  | .object fields => decide (Fields.names fields).Nodup && fieldsDistinct fields
  | _ => true

def itemsDistinct : List Value → Bool
  | [] => true
  | v :: rest => v.hasDistinctNames && itemsDistinct rest

def fieldsDistinct : List (String × Value) → Bool
  | [] => true
  | (_, v) :: rest => v.hasDistinctNames && fieldsDistinct rest

end

mutual

theorem replaceTexts_eq_self {f : String → String} {v : Value}
    (hdistinct : v.hasDistinctNames = true) (h : ∀ s, .text s ∈ v.leaves → f s = s) :
    v.replaceTexts f = v := by
  cases v with
  | null => rfl
  | bool b => rfl
  | number n => rfl
  | text s => exact congrArg Value.text (h s List.mem_cons_self)
  | list items => exact congrArg Value.list (replaceItems_eq_self hdistinct h)
  | object fields =>
      rw [hasDistinctNames, Bool.and_eq_true, decide_eq_true_eq] at hdistinct
      rw [replaceTexts, replaceFields_eq_self hdistinct.2 h, Fields.ofEntries_of_nodup hdistinct.1]

theorem replaceItems_eq_self {f : String → String} {items : List Value}
    (hdistinct : itemsDistinct items = true) (h : ∀ s, .text s ∈ itemsLeaves items → f s = s) :
    replaceItems f items = items := by
  cases items with
  | nil => rfl
  | cons v items =>
      rw [itemsDistinct, Bool.and_eq_true] at hdistinct
      rw [replaceItems,
        replaceTexts_eq_self hdistinct.1 (fun s hs => h s (List.mem_append_left _ hs)),
        replaceItems_eq_self hdistinct.2 (fun s hs => h s (List.mem_append_right _ hs))]

theorem replaceFields_eq_self {f : String → String} {fields : List (String × Value)}
    (hdistinct : fieldsDistinct fields = true)
    (h : ∀ s, .text s ∈ fieldsLeaves fields → f s = s) : replaceFields f fields = fields := by
  cases fields with
  | nil => rfl
  | cons field fields =>
      obtain ⟨k, v⟩ := field
      rw [fieldsDistinct, Bool.and_eq_true] at hdistinct
      rw [replaceFields, h k List.mem_cons_self,
        replaceTexts_eq_self hdistinct.1 (fun s hs => h s (mem_fieldsLeaves_of_value hs)),
        replaceFields_eq_self hdistinct.2 (fun s hs => h s (mem_fieldsLeaves_of_rest hs))]

end

/-! ### Resolving -/

theorem resolve_of_contained {v : Value}
    (hv : (∃ items, v = .list items) ∨ ∃ fields, v = .object fields)
    (hwritable : v.isWritable = true)
    (hfloats : ∀ x, Value.float x ∈ v.leaves → Survives (.float x))
    (h : ∀ s ∈ v.texts, IsContained s) :
    v.resolve = .ok ⟨v.replaceTexts fun s => (Template.resolve s).value,
      Names.addAll [] (v.texts.flatMap fun s => (Template.resolve s).names)⟩ := by
  have hcontained : ∀ s, .text s ∈ v.leaves → IsContained s := fun s hs => h s (mem_texts.2 hs)
  have hvalue : (v.mapTexts resolveQuoted).reread =
      v.replaceTexts fun s => (Template.resolve s).value :=
    reread_mapTexts hwritable hfloats fun s hs => (hcontained s hs).resolveQuoted_eq
  -- Repetitions within a text are dropped with all the others.
  have hnames : (Template.resolve v.json).names =
      Names.addAll [] (v.texts.flatMap fun s => (Template.resolve s).names) := by
    have hreferred := referred_write hcontained []
    rw [List.append_nil, referred_nil, List.append_nil] at hreferred
    simp only [names_resolve]
    rw [Names.addAll_flatMap, json, String.toList_ofList, hreferred]
    rfl
  rw [resolve_nested hv hwritable
    (isConfined_of_closes (fun s hs => (hcontained s hs).closes) []), hvalue, hnames]

/-- A list or an object is resolved like its texts and names, one by one, if they close their
placeholders and nothing in these is escaped. Nothing happens to it if there are none. -/
theorem resolve_in_place {v : Value}
    (hv : (∃ items, v = .list items) ∨ ∃ fields, v = .object fields)
    (hwritable : v.isWritable = true)
    (hfloats : ∀ x, Value.float x ∈ v.leaves → Survives (.float x)) :
    ((∀ s ∈ v.texts, IsContained s) →
      v.resolve = .ok ⟨v.replaceTexts fun s => (Template.resolve s).value,
        Names.addAll [] (v.texts.flatMap fun s => (Template.resolve s).names)⟩) ∧
    ((∀ s ∈ v.texts, ¬ ['\x7b', '\x7b'] <:+: s.toList) → v.hasDistinctNames = true →
      v.resolve = .ok ⟨v, []⟩) := by
  refine ⟨resolve_of_contained hv hwritable hfloats, fun hplain hdistinct => ?_⟩
  have hresolve : ∀ s ∈ v.texts, Template.resolve s = ⟨s, []⟩ :=
    fun s hs => resolve_of_no_pair (hplain s hs)
  have hvalue : (v.replaceTexts fun s => (Template.resolve s).value) = v :=
    replaceTexts_eq_self hdistinct fun s hs => by rw [hresolve s (mem_texts.2 hs)]
  have hnames : (v.texts.flatMap fun s => (Template.resolve s).names) = [] :=
    List.flatMap_eq_nil_iff.2 fun s hs => by rw [hresolve s hs]
  rw [resolve_of_contained hv hwritable hfloats fun s hs => isContained_of_no_pair (hplain s hs),
    hvalue, hnames]
  rfl

def meetingNames : Value :=
  .object [("\x7b\x7bm.k\x7d\x7d", .list [.float (.ofDecimal false 15 (-1))]),
    ("$\x7bk\x7d", .null)]

theorem resolve_in_place_meetingNames :
    meetingNames.isWritable = true ∧ (∀ s ∈ meetingNames.texts, IsContained s) ∧
    meetingNames.resolve = .ok ⟨.object [("$\x7bk\x7d", .null)], ["k"]⟩ := by
  have hfloats : ∀ x, Value.float x ∈ meetingNames.leaves → Survives (.float x) := by
    intro x hx
    have hreread : (Number.float (.ofDecimal false 15 (-1))).reread =
        .float (.ofDecimal false 15 (-1)) := by decide +kernel
    obtain rfl : x = .ofDecimal false 15 (-1) := by
      simpa [meetingNames, leaves, itemsLeaves, fieldsLeaves, float] using hx
    exact (read_json rfl).trans (congrArg (fun n => Except.ok (Value.number n)) hreread)
  have hv : (∃ items, meetingNames = .list items) ∨ ∃ fields, meetingNames = .object fields :=
    .inr ⟨_, rfl⟩
  have htexts : meetingNames.texts = ["\x7b\x7bm.k\x7d\x7d", "$\x7bk\x7d"] := rfl
  have hnext : nextPlaceholder "\x7b\x7bm.k\x7d\x7d".toList = some ([], "m.k".toList, []) := rfl
  have hfirst : pieces "\x7b\x7bm.k\x7d\x7d".toList =
      [.plain [], .placeholder "m.k".toList, .plain []] := by
    rw [pieces_of_some hnext, pieces_of_none rfl]
  have hsecond : pieces "$\x7bk\x7d".toList = [.plain "$\x7bk\x7d".toList] := pieces_of_none rfl
  have hcontained : ∀ s ∈ meetingNames.texts, IsContained s := by
    rw [htexts, List.forall_mem_cons, List.forall_mem_singleton]
    refine ⟨⟨by rw [closes, hfirst]; rfl, ?_⟩, by rw [closes, hsecond]; rfl, ?_⟩
    · rw [hfirst]
      intro body hbody
      obtain rfl : body = "m.k".toList := by simpa using hbody
      have hplain : "m.k".toList.all Text.isPlain = true := rfl
      exact List.all_eq_true.1 hplain
    · rw [hsecond]
      intro body hbody
      simp at hbody
  have hresolve : Template.resolve "\x7b\x7bm.k\x7d\x7d" = ⟨"$\x7bk\x7d", ["k"]⟩ := by
    rw [Template.resolve, hfirst]
    rfl
  have hresolve' : Template.resolve "$\x7bk\x7d" = ⟨"$\x7bk\x7d", []⟩ := by
    rw [Template.resolve, hsecond]
    rfl
  have hvalue : (meetingNames.replaceTexts fun s => (Template.resolve s).value) =
      .object [("$\x7bk\x7d", .null)] := by
    simp only [meetingNames, replaceTexts, replaceFields, hresolve, hresolve']
    rfl
  have hnames : (meetingNames.texts.flatMap fun s => (Template.resolve s).names) = ["k"] := by
    simp [htexts, hresolve, hresolve']
  refine ⟨rfl, hcontained, ?_⟩
  rw [(resolve_in_place hv rfl hfloats).1 hcontained, hvalue, hnames]
  rfl

end Value

end EventFlow
