/-!
Names without repetition and ordered fields: both keep the order in which a name first appeared.

`put` keeps the place of a name that is there already and adds a new one at the end, so a list
built by `put` names nothing twice.
-/

namespace EventFlow

namespace Names

/-- Adds a name at the end unless it is there already. -/
def add (names : List String) (name : String) : List String :=
  if name ∈ names then names else names ++ [name]

def addAll (names more : List String) : List String :=
  more.foldl add names

@[simp] theorem mem_add {names : List String} {name x : String} :
    x ∈ add names name ↔ x ∈ names ∨ x = name := by
  rw [add]
  split
  · next h => exact ⟨.inl, fun hx => hx.elim id fun he => he ▸ h⟩
  · simp

theorem nodup_add {names : List String} (name : String) (h : names.Nodup) :
    (add names name).Nodup := by
  rw [add]
  split
  · exact h
  · next hn =>
    rw [List.nodup_append]
    refine ⟨h, by simp, ?_⟩
    intro a ha b hb hab
    rw [List.mem_singleton] at hb
    exact hn (hb ▸ hab ▸ ha)

end Names

abbrev Fields (α : Type) := List (String × α)

namespace Fields

variable {α : Type}

def get? : Fields α → String → Option α
  | [], _ => none
  | (k, v) :: rest, key => if k = key then some v else get? rest key

def put : Fields α → String → α → Fields α
  | [], key, value => [(key, value)]
  | (k, v) :: rest, key, value =>
    if k = key then (key, value) :: rest else (k, v) :: put rest key value

def names (fields : Fields α) : List String :=
  fields.map Prod.fst

/-- Fields from entries that may repeat a name: the last value wins, at the first one's place. -/
def ofEntries (entries : List (String × α)) : Fields α :=
  entries.foldl (fun fields e => put fields e.1 e.2) []

@[simp] theorem get?_put_self (fields : Fields α) (key : String) (value : α) :
    get? (put fields key value) key = some value := by
  induction fields with
  | nil => simp [put, get?]
  | cons e rest ih => by_cases h : e.1 = key <;> simp [put, get?, h, ih]

theorem get?_put_of_ne (fields : Fields α) {key other : String} (value : α) (h : other ≠ key) :
    get? (put fields key value) other = get? fields other := by
  induction fields with
  | nil => simp [put, get?, h.symm]
  | cons e rest ih =>
    by_cases he : e.1 = key
    · have : key ≠ other := h.symm
      simp [put, get?, he, this]
    · by_cases ho : e.1 = other
      · have : other ≠ key := h
        simp [put, get?, ho, this]
      · simp [put, get?, he, ho, ih]

theorem mem_of_mem_put {fields : Fields α} {key : String} {value : α} {e : String × α}
    (h : e ∈ put fields key value) : e ∈ fields ∨ e = (key, value) := by
  induction fields with
  | nil => exact .inr (List.mem_singleton.1 h)
  | cons e' rest ih =>
    rw [put] at h
    split at h
    · cases h with
      | head => exact .inr rfl
      | tail _ h => exact .inl (.tail _ h)
    · cases h with
      | head => exact .inl (.head _)
      | tail _ h => exact (ih h).imp_left (.tail _)

theorem names_put (fields : Fields α) (key : String) (value : α) :
    names (put fields key value) = Names.add (names fields) key := by
  induction fields with
  | nil => rfl
  | cons e rest ih =>
    by_cases h : e.1 = key
    · simp [put, names, Names.add, h]
    · have hput : names (put (e :: rest) key value) = e.1 :: names (put rest key value) := by
        simp [put, names, h]
      have hcons : names (e :: rest) = e.1 :: names rest := rfl
      rw [hput, ih, hcons]
      by_cases hmem : key ∈ names rest
      · rw [Names.add, if_pos hmem, Names.add, if_pos (List.mem_cons_of_mem _ hmem)]
      · have hnew : key ∉ e.1 :: names rest := by simp [hmem, Ne.symm h]
        rw [Names.add, if_neg hmem, Names.add, if_neg hnew, List.cons_append]

theorem nodup_names_put {fields : Fields α} (key : String) (value : α)
    (h : (names fields).Nodup) : (names (put fields key value)).Nodup := by
  rw [names_put]
  exact Names.nodup_add key h

end Fields

end EventFlow
