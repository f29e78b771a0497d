import EventFlow.Rule

/-!
What writing a rule does to its draft.

The templates of an action are resolved from what the draft stores, so neither the action nor the
names it refers to depend on what the draft projects already (`oblivious_actionOfDraft`). Writing
the rule adds those names at the end of the projected ones, as a second writing would, and leaves
all else as it is (`write_eq`).
-/

namespace EventFlow

namespace Names

theorem prefix_addAll (names more : List String) : names <+: addAll names more := by
  induction more generalizing names with
  | nil => exact List.prefix_rfl
  | cons name more ih =>
      refine List.IsPrefix.trans ?_ (ih (add names name))
      rw [add]
      split
      · exact List.prefix_rfl
      · exact List.prefix_append names [name]

theorem mem_addAll {names more : List String} {x : String} :
    x ∈ addAll names more ↔ x ∈ names ∨ x ∈ more := by
  induction more generalizing names with
  | nil => simp [addAll]
  | cons name more ih =>
      refine ih.trans ?_
      rw [mem_add, List.mem_cons, or_assoc]

theorem addAll_append (names xs ys : List String) :
    addAll names (xs ++ ys) = addAll (addAll names xs) ys :=
  List.foldl_append

theorem addAll_eq_self {names more : List String} (h : ∀ x ∈ more, x ∈ names) :
    addAll names more = names := by
  induction more with
  | nil => rfl
  | cons name more ih =>
      obtain ⟨hname, hmore⟩ := List.forall_mem_cons.1 h
      change addAll (add names name) more = names
      rw [add, if_pos hname, ih hmore]

/-- Names that have been added once are not added again. -/
theorem addAll_addAll_self (names more : List String) :
    addAll (addAll names more) more = addAll names more :=
  addAll_eq_self fun _ hx => mem_addAll.2 (.inr hx)

end Names

namespace Run

variable {σ ε α β : Type} {x : Run σ ε α} {s : σ}

theorem bind_of_ok {a : α} (f : α → Run σ ε β) (h : (x s).outcome = .ok a) :
    ((x >>= f) s).state = (f a (x s).state).state ∧
      ((x >>= f) s).outcome = (f a (x s).state).outcome := by
  change (Run.bind x f s).state = _ ∧ (Run.bind x f s).outcome = _
  rw [Run.bind, h]
  exact ⟨rfl, rfl⟩

theorem bind_of_error {e : ε} (f : α → Run σ ε β) (h : (x s).outcome = .error e) :
    ((x >>= f) s).state = (x s).state ∧ ((x >>= f) s).outcome = .error e := by
  change (Run.bind x f s).state = _ ∧ (Run.bind x f s).outcome = _
  rw [Run.bind, h]
  exact ⟨rfl, rfl⟩

end Run

theorem Template.ne_empty_of_mem_names {template name : String}
    (h : name ∈ (resolve template).names) : name ≠ "" := by
  obtain h | h := Names.mem_addAll.1 h
  · cases h
  · obtain ⟨piece, -, hname⟩ := List.mem_filterMap.1 h
    cases piece with
    | plain text => cases hname
    | placeholder body =>
        rw [Piece.name?] at hname
        split at hname
        · cases hname
        · next hbody =>
            cases hname
            intro hempty
            exact hbody (by simpa using congrArg String.toList hempty)

/-- A name that is referred to is not empty. -/
theorem Value.ne_empty_of_mem_names {v : Value} {r : Resolved Value} (h : v.resolve = .ok r)
    {name : String} (hname : name ∈ r.names) : name ≠ "" := by
  cases v with
  | text s =>
      cases h
      exact Template.ne_empty_of_mem_names hname
  | list entries | object entries =>
      rw [resolve, json?] at h
      split at h
      · simp only [bind, Except.bind] at h
        split at h
        · cases h
          exact Template.ne_empty_of_mem_names hname
        · cases h
      · cases h
  | _ =>
      cases h
      cases hname

namespace Rule

variable {α β : Type}

/-- Only adds projected names, none of them empty, and neither these nor the outcome depend on the
ones before. -/
def Oblivious (x : Run Draft Failure α) : Prop :=
  ∀ d : Draft, ∃ (names : List String) (outcome : Except Failure α), (∀ name ∈ names, name ≠ "") ∧
    ∀ projected,
      (x { d with projected := projected }).state =
          { d with projected := Names.addAll projected names } ∧
        (x { d with projected := projected }).outcome = outcome

namespace Oblivious

theorem pure (a : α) : Oblivious (Pure.pure a) :=
  fun _ => ⟨[], .ok a, by simp, fun _ => ⟨rfl, rfl⟩⟩

theorem fail (e : Failure) : Oblivious (Run.fail e : Run Draft Failure α) :=
  fun _ => ⟨[], .error e, by simp, fun _ => ⟨rfl, rfl⟩⟩

theorem ofExcept (x : Except Failure α) : Oblivious (Run.ofExcept x) :=
  fun _ => ⟨[], x, by simp, fun _ => ⟨rfl, rfl⟩⟩

theorem note (level : Log.Level) (message : String) : Oblivious (Run.note level message) :=
  fun _ => ⟨[], .ok (), by simp, fun _ => ⟨rfl, rfl⟩⟩

theorem bind {x : Run Draft Failure α} {f : α → Run Draft Failure β} (hx : Oblivious x)
    (hf : ∀ a, Oblivious (f a)) : Oblivious (x >>= f) := by
  intro d
  obtain ⟨names, outcome, hnames, h⟩ := hx d
  cases outcome with
  | error e =>
      refine ⟨names, .error e, hnames, fun projected => ?_⟩
      obtain ⟨hstate, houtcome⟩ := h projected
      obtain ⟨hs, ho⟩ := Run.bind_of_error f houtcome
      exact ⟨hs.trans hstate, ho⟩
  | ok a =>
      obtain ⟨more, outcome, hmore, h'⟩ := hf a d
      refine ⟨names ++ more, outcome, List.forall_mem_append.2 ⟨hnames, hmore⟩, fun projected => ?_⟩
      obtain ⟨hstate, houtcome⟩ := h projected
      obtain ⟨hs, ho⟩ := Run.bind_of_ok f houtcome
      rw [hs, ho, hstate, Names.addAll_append]
      exact h' (Names.addAll projected names)

/-- Reading the draft does no harm if the projected names are not looked at. -/
theorem get_bind {f : Draft → Run Draft Failure α}
    (hread : ∀ d projected, f { d with projected := projected } = f d)
    (hf : ∀ d, Oblivious (f d)) : Oblivious (Run.get >>= f) := by
  intro d
  obtain ⟨names, outcome, hnames, h⟩ := hf d d
  refine ⟨names, outcome, hnames, fun projected => ?_⟩
  obtain ⟨hs, ho⟩ := Run.bind_of_ok (x := Run.get) (s := { d with projected := projected }) f rfl
  rw [hs, ho]
  change (f { d with projected := projected } { d with projected := projected }).state = _ ∧
    (f { d with projected := projected } { d with projected := projected }).outcome = _
  rw [hread]
  exact h projected

end Oblivious

theorem oblivious_resolve (v : Value) : Oblivious (resolve v) := by
  intro d
  cases hr : v.resolve with
  | error e =>
      rw [resolve, hr]
      exact Oblivious.fail e d
  | ok resolved =>
      refine ⟨resolved.names, .ok resolved.value, fun _ => Value.ne_empty_of_mem_names hr, ?_⟩
      rw [resolve, hr]
      exact fun _ => ⟨rfl, rfl⟩

theorem oblivious_warn (message : String) : Oblivious (warn message) :=
  .get_bind (fun _ _ => rfl) fun _ => .note _ _

theorem oblivious_stored (path warning : String) : Oblivious (stored path warning) := by
  refine .get_bind (fun _ _ => rfl) fun d => ?_
  dsimp only
  split
  · exact .bind (oblivious_warn _) fun _ => .pure _
  · exact .bind (oblivious_resolve _) fun _ => .pure _

theorem oblivious_updateAction (entityId entityType attributes : String) :
    Oblivious (updateAction entityId entityType attributes) := by
  refine .bind (oblivious_stored _ _) fun v => ?_
  cases v with
  | none => exact .pure _
  | some v =>
      dsimp only
      split
      · exact .pure _
      · exact .fail _
      · exact .bind (oblivious_warn _) fun _ => .pure _

theorem oblivious_given (text placeholder name : String) :
    Oblivious (given text placeholder name) := by
  rw [given]
  split
  · refine .bind (oblivious_stored _ _) fun v => ?_
    cases v with
    | none => exact .pure _
    | some v => exact .bind (.ofExcept _) fun _ => .pure _
  · exact .pure _

theorem oblivious_headers : Oblivious headers := by
  refine .get_bind (fun _ _ => rfl) fun d => ?_
  dsimp only
  split
  · exact .pure _
  · refine .bind (oblivious_resolve _) fun resolved => ?_
    split
    · exact .pure _
    · exact .fail _
    · exact .bind (.note _ _) fun _ => .pure _

theorem oblivious_postAction (url method body : String) :
    Oblivious (postAction url method body) := by
  refine .bind (oblivious_stored _ _) fun content => ?_
  cases content with
  | none => exact .pure _
  | some content =>
      refine .bind (oblivious_given _ _ _) fun url => ?_
      cases url with
      | none => exact .pure _
      | some url =>
          refine .bind (oblivious_given _ _ _) fun method => ?_
          cases method with
          | none => exact .pure _
          | some method =>
              refine .bind oblivious_headers fun headers => ?_
              exact .bind (.ofExcept _) fun _ => .pure _

theorem oblivious_emailAction (recipient sender subject server body : String) :
    Oblivious (emailAction recipient sender subject server body) := by
  refine .bind (oblivious_stored _ _) fun content => ?_
  cases content with
  | none => exact .pure _
  | some content =>
      refine .bind (oblivious_resolve _) fun subject => ?_
      exact .bind (.ofExcept _) fun _ => .pure _

theorem oblivious_actionOfDraft : Oblivious actionOfDraft := by
  refine .get_bind (fun _ _ => rfl) fun d => ?_
  split
  · exact oblivious_updateAction _ _ _
  · exact oblivious_postAction _ _ _
  · exact oblivious_emailAction _ _ _ _ _
  · exact .pure _
  · exact .pure _

/-- Writing projects the names of the action, none of them empty, and with an action there is a
rule. -/
theorem exists_write_eq (d : Draft) :
    ∃ (names : List String) (action : Except Failure (Option RuleAction)),
      (∀ name ∈ names, name ≠ "") ∧ ∀ projected,
        let written := { d with projected := Names.addAll projected names }
        (write { d with projected := projected }).state = written ∧
          (write { d with projected := projected }).outcome =
            action.map (·.map fun a => ⟨d.name, patternText written, a⟩) := by
  obtain ⟨names, action, hnames, h⟩ := oblivious_actionOfDraft d
  refine ⟨names, action, hnames, fun projected => ?_⟩
  obtain ⟨hstate, houtcome⟩ := h projected
  cases action with
  | error e =>
      obtain ⟨hs, ho⟩ := Run.bind_of_error _ houtcome
      exact ⟨hs.trans hstate, ho⟩
  | ok action =>
      obtain ⟨hs, ho⟩ := Run.bind_of_ok _ houtcome
      rw [hstate] at hs ho
      cases action with
      | none => exact ⟨hs, ho⟩
      | some a => exact ⟨hs, ho⟩

theorem write_eq (d : Draft) :
    ∃ (names : List String) (action : Except Failure (Option RuleAction)), ∀ projected,
      let written := { d with projected := Names.addAll projected names }
      (write { d with projected := projected }).state = written ∧
        (write { d with projected := projected }).outcome =
          action.map (·.map fun a => ⟨d.name, patternText written, a⟩) := by
  obtain ⟨names, action, -, h⟩ := exists_write_eq d
  exact ⟨names, action, h⟩

theorem ne_empty_of_mem_write {d : Draft} {name : String}
    (h : name ∈ (write d).state.projected) : name ∈ d.projected ∨ name ≠ "" := by
  obtain ⟨names, action, hnames, hwrite⟩ := exists_write_eq d
  have hstate : (write d).state = { d with projected := Names.addAll d.projected names } :=
    (hwrite d.projected).1
  rw [hstate] at h
  exact (Names.mem_addAll.1 h).imp_right (hnames name)

end Rule

end EventFlow
