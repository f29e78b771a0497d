import EventFlow.Proofs.Numerals
import EventFlow.Value.Reader

/-!
Reading back what is written.

Wherever the `json` spelling of a value stands, the reader takes it as one value (`run_write`). What
it reads is the value itself but for its floating point numbers, which are those that their spelling
is read as, and for the names that an object repeats (`read_json`).
-/

namespace EventFlow

namespace Text

theorem isSurrogate_toNat (c : Char) :
    isHighSurrogate c.toNat = false ∧ isLowSurrogate c.toNat = false := by
  have hvalid : c.toNat < 0xd800 ∨ 0xdfff < c.toNat ∧ c.toNat < 0x110000 := c.valid
  simp only [isHighSurrogate, isLowSurrogate, Bool.and_eq_false_iff, decide_eq_false_iff_not]
  omega

/-- A character is one unit unless two are needed, and units that are characters stand for these. -/
theorem charsOfUnits_map_toNat (cs : List Char) : charsOfUnits (cs.map Char.toNat) = cs := by
  induction cs with
  | nil => rfl
  | cons c cs ih =>
      obtain ⟨hhigh, hlow⟩ := isSurrogate_toNat c
      cases cs with
      | nil => simp [charsOfUnits, hhigh, hlow]
      | cons d ds =>
          rw [List.map_cons] at ih
          simp [charsOfUnits, hhigh, hlow, ih]

end Text

namespace Token

theorem hex4?_hexDigits {n : Nat} (h : n < 0x20) :
    ∃ a b c d, Text.hexDigits 4 n = [a, b, c, d] ∧ hex4? a b c d = some n := by
  have hall : ∀ n < 0x20,
      Text.hexDigits 4 n =
        ['0', '0', (Text.hexDigits 4 n).getD 2 '0', (Text.hexDigits 4 n).getD 3 '0'] ∧
      hex4? '0' '0' ((Text.hexDigits 4 n).getD 2 '0') ((Text.hexDigits 4 n).getD 3 '0') =
        some n := by
    decide
  exact ⟨_, _, _, _, hall n h⟩

/-- A letter behind a backslash stands for one character. -/
theorem scanQuoted_escape {e char : Char} (cs : List Char) (he : e ≠ 'u')
    (h : escape? e = some char) :
    scanQuoted ('\\' :: e :: cs) = (scanQuoted cs).map fun r => (char.toNat :: r.1, r.2) := by
  rw [scanQuoted, h]
  · cases scanQuoted cs <;> rfl
  · rintro _ _ _ _ _ rfl -
    exact he rfl

theorem scanQuoted_hex {a b c d : Char} {unit : Nat} (cs : List Char)
    (h : hex4? a b c d = some unit) :
    scanQuoted ('\\' :: 'u' :: a :: b :: c :: d :: cs) =
      (scanQuoted cs).map fun r => (unit :: r.1, r.2) := by
  rw [scanQuoted, h]
  cases scanQuoted cs <;> rfl

/-- The characters that are written with a letter behind a backslash, and the letters. -/
def escapes : List (Char × Char) :=
  [('\x22', '\x22'), ('\\', '\\'), ('\n', 'n'), ('\r', 'r'), ('\t', 't'), ('\x0c', 'f'),
    ('\x08', 'b')]

/-- A character stands for itself, has a letter, or is a control character and is written by its
number. -/
theorem escapeChar_cases (c : Char) :
    (Text.escapeChar c = [c] ∧ 0x20 ≤ c.toNat ∧ c ≠ '\x22' ∧ c ≠ '\\') ∨
      (∃ e, (c, e) ∈ escapes ∧ Text.escapeChar c = ['\\', e]) ∨
      (c.toNat < 0x20 ∧ Text.escapeChar c = '\\' :: 'u' :: Text.hexDigits 4 c.toNat) := by
  by_cases h : c ∈ escapes.map Prod.fst
  · obtain ⟨⟨c, e⟩, he, rfl⟩ := List.mem_map.1 h
    refine .inr (.inl ⟨e, he, ?_⟩)
    have hall : ∀ pair ∈ escapes, Text.escapeChar pair.1 = ['\\', pair.2] := by decide
    exact hall (c, e) he
  · simp only [escapes, List.map_cons, List.map_nil, List.mem_cons, not_or] at h
    obtain ⟨hquote, hback, hn, hr, ht, hf, hb, -⟩ := h
    rw [Text.escapeChar, if_neg hquote, if_neg hback, if_neg hn, if_neg hr, if_neg ht, if_neg hf,
      if_neg hb]
    by_cases hcontrol : c.toNat < 0x20
    · exact .inr (.inr ⟨hcontrol, if_pos hcontrol⟩)
    · exact .inl ⟨if_neg hcontrol, not_lt.1 hcontrol, hquote, hback⟩

/-- A character is read back from its escaped form. -/
theorem scanQuoted_escapeChar (c : Char) (cs : List Char) :
    scanQuoted (Text.escapeChar c ++ cs) =
      (scanQuoted cs).map fun r => (c.toNat :: r.1, r.2) := by
  rcases escapeChar_cases c with ⟨hself, hplain, hquote, hback⟩ | ⟨e, he, hletter⟩ | ⟨hc, hhex⟩
  · rw [hself, List.singleton_append, scanQuoted, if_neg (by simp [hplain, hback])]
    · cases scanQuoted cs <;> rfl
    · exact hquote
    · rintro _ _ _ _ _ rfl -
      exact hback rfl
    · rintro _ _ rfl -
      exact hback rfl
  · have hall : ∀ pair ∈ escapes, pair.2 ≠ 'u' ∧ escape? pair.2 = some pair.1 := by decide
    obtain ⟨hu, hescape⟩ := hall (c, e) he
    rw [hletter]
    exact scanQuoted_escape cs hu hescape
  · obtain ⟨a, b, d, e, hdigits, hunit⟩ := hex4?_hexDigits hc
    rw [hhex, hdigits]
    exact scanQuoted_hex cs hunit

theorem scanQuoted_flatMap (cs rest : List Char) :
    scanQuoted (cs.flatMap Text.escapeChar ++ '\x22' :: rest) = some (cs.map Char.toNat, rest) := by
  induction cs with
  | nil => simp [scanQuoted]
  | cons c cs ih => simp [scanQuoted_escapeChar, ih]

/-- A text in double quotes is read back. -/
theorem scanOne_doubleQuoted (limit : Nat) (s : String) (rest : List Char) :
    scanOne limit (Text.doubleQuoted s ++ rest) = some (.text s, rest) := by
  have hquoted := scanQuoted_flatMap s.toList rest
  show (scanQuoted (s.toList.flatMap Text.escapeChar ++ ['\x22'] ++ rest)).map _ = _
  rw [List.append_assoc, List.singleton_append, hquoted]
  simp [Text.charsOfUnits_map_toNat]

/-! ### The tokens of a spelling -/

theorem scanOne_layout {limit : Nat} {c : Char} (cs : List Char) (hc : isLayout c = true) :
    scanOne limit (c :: cs) = none := by
  simp only [isLayout, Bool.or_eq_true, beq_iff_eq] at hc
  rcases hc with ((rfl | rfl) | rfl) | rfl <;> rfl

/-- The token that stands at the front of a text is its first one. -/
theorem scan_of_scanOne {limit : Nat} {cs rest : List Char} {t : Token}
    (h : scanOne limit cs = some (t, rest)) : scan limit cs = t :: scan limit rest := by
  cases cs with
  | nil => cases h
  | cons c cs =>
      have hc : ¬ isLayout c = true := by
        intro hc
        rw [scanOne_layout cs hc] at h
        cases h
      rw [scan, if_neg hc]
      split
      · next hnone =>
          rw [h] at hnone
          cases hnone
      · next hsome =>
          rw [h] at hsome
          cases hsome
          rfl

@[simp] theorem scan_space (limit : Nat) (cs : List Char) :
    scan limit (' ' :: cs) = scan limit cs := by
  rw [scan, if_pos (by decide)]

@[simp] theorem scan_openList (limit : Nat) (cs : List Char) :
    scan limit ('[' :: cs) = .openList :: scan limit cs :=
  scan_of_scanOne rfl

@[simp] theorem scan_closeList (limit : Nat) (cs : List Char) :
    scan limit (']' :: cs) = .closeList :: scan limit cs :=
  scan_of_scanOne rfl

@[simp] theorem scan_openObject (limit : Nat) (cs : List Char) :
    scan limit ('\x7b' :: cs) = .openObject :: scan limit cs :=
  scan_of_scanOne rfl

@[simp] theorem scan_closeObject (limit : Nat) (cs : List Char) :
    scan limit ('\x7d' :: cs) = .closeObject :: scan limit cs :=
  scan_of_scanOne rfl

@[simp] theorem scan_colon (limit : Nat) (cs : List Char) :
    scan limit (':' :: cs) = .colon :: scan limit cs :=
  scan_of_scanOne rfl

@[simp] theorem scan_comma (limit : Nat) (cs : List Char) :
    scan limit (',' :: cs) = .comma :: scan limit cs :=
  scan_of_scanOne rfl

@[simp] theorem scan_doubleQuoted (limit : Nat) (s : String) (rest : List Char) :
    scan limit (Text.doubleQuoted s ++ rest) = .text s :: scan limit rest :=
  scan_of_scanOne (scanOne_doubleQuoted limit s rest)

end Token

namespace Text

def following (pieces : List (List Char)) : List Char :=
  pieces.flatMap (',' :: ' ' :: ·)

@[simp] theorem following_nil : following [] = [] :=
  rfl

@[simp] theorem following_cons (piece : List Char) (pieces : List (List Char)) :
    following (piece :: pieces) = ',' :: ' ' :: (piece ++ following pieces) := by
  simp [following]

theorem join_cons_eq (piece : List Char) (pieces : List (List Char)) :
    join [',', ' '] (piece :: pieces) = piece ++ following pieces := by
  induction pieces generalizing piece with
  | nil => simp [join]
  | cons next pieces ih =>
      rw [join_cons _ _ (List.cons_ne_nil next pieces), ih]
      simp

end Text

namespace Value

mutual

def reread : Value → Value
  | .number n => .number n.reread
  | .list items => .list (rereadItems items)
  | .object fields => .object (Fields.ofEntries (rereadFields fields))
  | v => v

def rereadItems : List Value → List Value
  | [] => []
  | v :: rest => v.reread :: rereadItems rest

def rereadFields : List (String × Value) → List (String × Value)
  | [] => []
  | (k, v) :: rest => (k, v.reread) :: rereadFields rest

end

end Value

namespace Reader

open EventFlow.Value
open EventFlow.Token

/-- Neither a comma nor a closing bracket goes on with a number. -/
theorem ends_following (pieces : List (List Char)) {c : Char} (hc : c = ']' ∨ c = '\x7d')
    (rest : List Char) : Spelled.Ends (Text.following pieces ++ c :: rest) := by
  cases pieces with
  | nil =>
      rintro _ ⟨⟩
      rcases hc with rfl | rfl <;> decide
  | cons piece pieces =>
      rintro _ ⟨⟩
      decide

theorem run_cons {s s' : State} {t : Token} (ts : List Token) (h : step s t = .ok s') :
    run s (t :: ts) = run s' ts := by
  rw [run, h]

/-- Where a value is expected, any token but the end of a list must begin one. -/
theorem step_value {e : Expecting} (he : e = .value ∨ e = .firstItem) (frames : List Frame)
    {t : Token} (ht : t ≠ .closeList) : step ⟨frames, e⟩ t = beginValue frames t := by
  rcases he with rfl | rfl
  · rfl
  · cases t <;> first | rfl | exact absurd rfl ht

theorem run_scanned {e : Expecting} (he : e = .value ∨ e = .firstItem) (frames : List Frame)
    {cs rest : List Char} {t : Token} {v : Value}
    (h : scanOne Numeral.digitLimit cs = some (t, rest))
    (ht : beginValue frames t = .ok (complete v frames)) :
    run ⟨frames, e⟩ (scan Numeral.digitLimit cs) =
      run (complete v frames) (scan Numeral.digitLimit rest) := by
  have hne : t ≠ .closeList := by
    rintro rfl
    cases ht
  rw [scan_of_scanOne h]
  exact run_cons _ ((step_value he frames hne).trans ht)

/-- A member is read up to its end if its value is. -/
theorem run_member {e : Expecting} (he : e = .name ∨ e = .firstName) (before : Fields Value)
    (frames : List Frame) (key : String) {cs rest : List Char} {v : Value}
    (hv : run ⟨.member before key :: frames, .value⟩ (scan Numeral.digitLimit cs) =
      run (complete v (.member before key :: frames)) (scan Numeral.digitLimit rest)) :
    run ⟨.object before :: frames, e⟩
        (scan Numeral.digitLimit (jsonSpelling.text key ++ ':' :: ' ' :: cs)) =
      run ⟨.object (Fields.put before key v) :: frames, .separator⟩
        (scan Numeral.digitLimit rest) := by
  have hname : step ⟨.object before :: frames, e⟩ (.text key) =
      .ok ⟨.member before key :: frames, .colon⟩ := by
    rcases he with rfl | rfl <;> rfl
  rw [jsonSpelling, scan_doubleQuoted, run_cons _ hname, scan_colon, run_cons _ rfl, scan_space, hv]
  rfl

mutual

/-- Where a value is expected its spelling is read to the end, and nothing beyond it. -/
theorem run_write {v : Value} (h : v.isWritable = true) {e : Expecting}
    (he : e = .value ∨ e = .firstItem) (frames : List Frame) {rest : List Char}
    (hrest : Spelled.Ends rest) :
    run ⟨frames, e⟩ (scan Numeral.digitLimit (write jsonSpelling v ++ rest)) =
      run (complete v.reread frames) (scan Numeral.digitLimit rest) := by
  cases v with
  | null => exact run_scanned he frames rfl rfl
  | bool b => cases b <;> exact run_scanned he frames rfl rfl
  | number n => exact run_scanned he frames (Number.scanOne_write h hrest) rfl
  | text s => exact run_scanned he frames (scanOne_doubleQuoted _ s rest) rfl
  | list items =>
      have hopen : step ⟨frames, e⟩ .openList = .ok ⟨.list [] :: frames, .firstItem⟩ :=
        step_value he frames (by simp)
      simp only [write, List.cons_append, List.append_assoc, List.nil_append, scan_openList]
      rw [run_cons _ hopen]
      cases items with
      | nil =>
          simp only [writeItems, Text.join, List.nil_append, scan_closeList]
          exact run_cons _ rfl
      | cons v items =>
          simp only [isWritable, itemsWritable, Bool.and_eq_true] at h
          rw [writeItems, Text.join_cons_eq, List.append_assoc,
            run_write h.1 (.inr rfl) _ (ends_following _ (.inl rfl) rest), complete,
            run_writeItems h.2]
          rfl
  | object fields =>
      have hopen : step ⟨frames, e⟩ .openObject = .ok ⟨.object [] :: frames, .firstName⟩ :=
        step_value he frames (by simp)
      simp only [write, List.cons_append, List.append_assoc, List.nil_append, scan_openObject]
      rw [run_cons _ hopen]
      cases fields with
      | nil =>
          simp only [writeFields, Text.join, List.nil_append, scan_closeObject]
          exact run_cons _ rfl
      | cons field fields =>
          simp only [isWritable, fieldsWritable, Bool.and_eq_true] at h
          rw [writeFields, Text.join_cons_eq, List.append_assoc, List.append_assoc,
            List.cons_append, List.cons_append,
            run_member (.inr rfl) [] frames field.1
              (run_write h.1 (.inl rfl) _ (ends_following _ (.inr rfl) rest)),
            run_writeFields h.2]
          rfl

/-- Behind an item the list is read to its end. -/
theorem run_writeItems {items : List Value} (h : itemsWritable items = true) (before : List Value)
    (frames : List Frame) (rest : List Char) :
    run ⟨.list before :: frames, .separator⟩
        (scan Numeral.digitLimit
          (Text.following (writeItems jsonSpelling items) ++ ']' :: rest)) =
      run (complete (.list (before.reverse ++ rereadItems items)) frames)
        (scan Numeral.digitLimit rest) := by
  cases items with
  | nil =>
      rw [rereadItems, List.append_nil]
      exact (congrArg _ (scan_closeList _ rest)).trans (run_cons _ rfl)
  | cons v items =>
      rw [itemsWritable, Bool.and_eq_true] at h
      have hcomma : step ⟨.list before :: frames, .separator⟩ .comma =
          .ok ⟨.list before :: frames, .value⟩ := rfl
      simp only [writeItems, Text.following_cons, List.cons_append, List.append_assoc, scan_comma,
        scan_space]
      rw [run_cons _ hcomma, run_write h.1 (.inl rfl) _ (ends_following _ (.inl rfl) rest),
        complete, run_writeItems h.2, rereadItems, List.reverse_cons, List.append_assoc]
      rfl

theorem run_writeFields {fields : List (String × Value)} (h : fieldsWritable fields = true)
    (before : Fields Value) (frames : List Frame) (rest : List Char) :
    run ⟨.object before :: frames, .separator⟩
        (scan Numeral.digitLimit
          (Text.following (writeFields jsonSpelling fields) ++ '\x7d' :: rest)) =
      run (complete
          (.object ((rereadFields fields).foldl (fun fs e => Fields.put fs e.1 e.2) before)) frames)
        (scan Numeral.digitLimit rest) := by
  cases fields with
  | nil => exact (congrArg _ (scan_closeObject _ rest)).trans (run_cons _ rfl)
  | cons field fields =>
      rw [fieldsWritable, Bool.and_eq_true] at h
      have hcomma : step ⟨.object before :: frames, .separator⟩ .comma =
          .ok ⟨.object before :: frames, .name⟩ := rfl
      simp only [writeFields, Text.following_cons, List.cons_append, List.append_assoc, scan_comma,
        scan_space]
      rw [run_cons _ hcomma, run_member (.inl rfl) before frames field.1
          (run_write h.1 (.inl rfl) _ (ends_following _ (.inr rfl) rest)), run_writeFields h.2]
      rfl

end

end Reader

namespace Value

/-- The spelling of a value is read. -/
theorem read_json {v : Value} (h : v.isWritable = true) : read v.json = .ok v.reread := by
  have hends : Token.Spelled.Ends [] := nofun
  have hrun := Reader.run_write h (.inl rfl) [] hends
  rw [List.append_nil] at hrun
  rw [read, readWithin, json, String.toList_ofList, Reader.start, hrun]
  simp [Token.scan, Reader.run, Reader.complete]

theorem fieldsWritable_put {fields : Fields Value} {key : String} {v : Value}
    (h : fieldsWritable fields = true) (hv : v.isWritable = true) :
    fieldsWritable (Fields.put fields key v) = true := by
  induction fields with
  | nil => simp [Fields.put, fieldsWritable, hv]
  | cons field fields ih =>
      simp only [fieldsWritable, Bool.and_eq_true] at h
      rw [Fields.put]
      split
      · simp [fieldsWritable, hv, h.2]
      · simp [fieldsWritable, h.1, ih h.2]

theorem fieldsWritable_ofEntries {entries : List (String × Value)}
    (h : fieldsWritable entries = true) : fieldsWritable (Fields.ofEntries entries) = true := by
  suffices hfold : ∀ fields, fieldsWritable fields = true →
      fieldsWritable (entries.foldl (fun fs e => Fields.put fs e.1 e.2) fields) = true from
    hfold [] rfl
  induction entries with
  | nil => exact fun _ hfields => hfields
  | cons entry entries ih =>
      simp only [fieldsWritable, Bool.and_eq_true] at h
      exact fun fields hfields => ih h.2 _ (fieldsWritable_put hfields h.1)

mutual

theorem isWritable_reread {v : Value} (h : v.isWritable = true) : v.reread.isWritable = true := by
  cases v with
  | number n => exact Number.isWritable_reread h
  | list items => exact itemsWritable_reread h
  | object fields => exact fieldsWritable_ofEntries (fieldsWritable_reread h)
  | _ => rfl

theorem itemsWritable_reread {items : List Value} (h : itemsWritable items = true) :
    itemsWritable (rereadItems items) = true := by
  cases items with
  | nil => rfl
  | cons v items =>
      simp only [itemsWritable, rereadItems, Bool.and_eq_true] at h ⊢
      exact ⟨isWritable_reread h.1, itemsWritable_reread h.2⟩

theorem fieldsWritable_reread {fields : List (String × Value)} (h : fieldsWritable fields = true) :
    fieldsWritable (rereadFields fields) = true := by
  cases fields with
  | nil => rfl
  | cons field fields =>
      simp only [fieldsWritable, rereadFields, Bool.and_eq_true] at h ⊢
      exact ⟨isWritable_reread h.1, fieldsWritable_reread h.2⟩

end

end Value

end EventFlow
