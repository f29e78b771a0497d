import EventFlow.Proofs.Course
import EventFlow.Proofs.Reading

/-!
What comes of writing a rule.

Writing a rule looks up the stored values that its task needs, resolves them, and shows or reads
them. It does not fail if the values are fit for that (`Draft.isLegible`): no whole number beyond
the digit limit is written or read, and no text inside a list or an object leaves a placeholder
open. Where it does not fail, there is a rule if the values that the task cannot do without are
stored, and those of an update are or spell an object (`Task.IsEquipped`). What is stored as headers
is never asked for.
-/

namespace EventFlow

namespace Rule

/-- What a task needs a stored value for. -/
inductive Use where
  /-- Its text goes into a message. -/
  | shown
  /-- It goes into a message as it is, or what it spells if it is a text. -/
  | taken
deriving DecidableEq

def Use.suits : Use → Value → Bool
  | .shown, v => v.isResolvable && v.isWritable
  | .taken, .text s =>
    match Value.read (Template.resolve s).value with
    | .error .overlong => false
    | _ => true
  | .taken, v => v.isResolvable

end Rule

def Task.needs : Task → List (Rule.Use × String)
  | .update _ _ attributes => [(.taken, attributes)]
  | .post url method body =>
    (.shown, body) :: (.taken, "headers") ::
      ((if url = storedUrl then [(.shown, "url")] else []) ++
        if method = storedMethod then [(.shown, "method")] else [])
  | .email _ _ _ _ body => [(.shown, body)]
  | .history => []

/-- Whether every stored value that the task of a draft needs is fit for it. -/
def Draft.isLegible (d : Draft) : Bool :=
  (d.action.elim [] (·.task.needs)).all fun need => need.1.suits (d.memory.get need.2)

namespace Value

/-- The value, once it is resolved, is an object with these fields or a text that spells it. -/
def ResolvesTo (v : Value) (fields : Fields Value) : Prop :=
  ∃ r, v.resolve = .ok r ∧
    (r.value = .object fields ∨ ∃ s, r.value = .text s ∧ read s = .ok (.object fields))

end Value

/-- Whether the stored values are there that a task cannot do without. -/
def Task.IsEquipped (m : Memory) : Task → Prop
  | .update _ _ attributes =>
    m.get attributes ≠ .null ∧ ∃ fields, (m.get attributes).ResolvesTo fields
  | .post url method body =>
    m.get body ≠ .null ∧ (url = storedUrl → m.get "url" ≠ .null) ∧
      (method = storedMethod → m.get "method" ≠ .null)
  | .email _ _ _ _ body => m.get body ≠ .null
  | .history => False

/-- What a task comes to: an action if it is equipped, and for an update one that lists the fields
of the object that is stored. -/
structure Task.Gives (m : Memory) (task : Task) (action? : Option RuleAction) : Prop where
  isSome_iff : action?.isSome = true ↔ task.IsEquipped m
  attributes : ∀ entityId entityType path, task = .update entityId entityType path →
    ∀ action ∈ action?, ∃ fields, (m.get path).ResolvesTo fields ∧
      action.parameters = [("id", .text entityId), ("type", .text entityType),
        ("isPattern", .bool false), ("attributes", Rule.attributeList fields)]

def Draft.IsEquipped (d : Draft) : Prop :=
  ∃ action, d.action = some action ∧ action.task.IsEquipped d.memory

def Draft.Gives (d : Draft) (action? : Option RuleAction) : Prop :=
  (d.action.map Action.task).elim (action? = none) fun task => task.Gives d.memory action?

def Failure.IsUnread (f : Failure) : Prop :=
  f = .malformed ∨ f = .overlong

namespace Value

theorem isUnread_of_json? {v : Value} {f : Failure} (h : v.json? = .error f) : f.IsUnread := by
  rw [json?] at h
  split at h
  · cases h
  · cases h
    exact .inr rfl

/-- A value is resolved, to an object only by reading one, or what it needs is not read. -/
theorem resolve_ends (v : Value) :
    (∃ r, v.resolve = .ok r ∧ ∀ fields, r.value = .object fields → ∃ s, read s = .ok r.value) ∨
      ∃ f, v.resolve = .error f ∧ f.IsUnread := by
  cases v with
  | list entries | object entries =>
      rw [resolve]
      rcases hjson : json? _ with e | text
      · exact .inr ⟨e, rfl, isUnread_of_json? hjson⟩
      · simp only [bind, Except.bind]
        split
        · next w hread => exact .inl ⟨_, rfl, fun _ _ => ⟨_, hread⟩⟩
        · next e _ =>
            refine .inr ⟨_, rfl, ?_⟩
            cases e
            · exact .inl rfl
            · exact .inr rfl
  | _ => exact .inl ⟨_, rfl, fun _ h => by cases h⟩

theorem isUnread_of_resolve {v : Value} {f : Failure} (h : v.resolve = .error f) : f.IsUnread := by
  obtain ⟨r, hr, -⟩ | ⟨f', hf, hunread⟩ := resolve_ends v
  · rw [h] at hr
    cases hr
  · rw [h] at hf
    cases hf
    exact hunread

theorem isNull_iff {v : Value} : v.isNull = true ↔ v = .null := by
  cases v <;> simp [isNull]

theorem ResolvesTo.exists_read {v : Value} {fields : Fields Value} (h : v.ResolvesTo fields) :
    ∃ s, read s = .ok (.object fields) := by
  obtain ⟨r, hr, hobject | ⟨s, -, hread⟩⟩ := h
  · obtain ⟨r', hr', hread⟩ | ⟨f, hf, -⟩ := resolve_ends v
    · obtain rfl : r = r' := Except.ok.inj (hr.symm.trans hr')
      exact hobject ▸ hread fields hobject
    · rw [hr] at hf
      cases hf
  · exact ⟨s, hread⟩

theorem ResolvesTo.nodup_names {v : Value} {fields : Fields Value} (h : v.ResolvesTo fields) :
    (Fields.names fields).Nodup := by
  obtain ⟨s, hs⟩ := h.exists_read
  exact (hasDistinctNames_object_iff.1 (hasDistinctNames_of_read hs)).1

end Value

namespace Task

variable {m : Memory} {task : Task}

theorem gives_none (h : ¬ task.IsEquipped m) : task.Gives m none :=
  ⟨iff_of_false Bool.false_ne_true h, fun _ _ _ _ _ hmem => by cases hmem⟩

theorem gives_some {action : RuleAction} (h : task.IsEquipped m)
    (hupdate : ∀ entityId entityType path, task ≠ .update entityId entityType path) :
    task.Gives m (some action) :=
  ⟨iff_of_true rfl h, fun _ _ _ heq => absurd heq (hupdate _ _ _)⟩

/-- What the task of a node that posts cannot do without, said of the node. -/
theorem isEquipped_of_post {url method body : String}
    (h : ofKind? (.post url method body) = some task) :
    task.IsEquipped m ↔ m.get body ≠ .null ∧
      (url = "" ∨ url = storedUrl → m.get "url" ≠ .null) ∧
      (method = "use" ∨ method = storedMethod → m.get "method" ≠ .null) := by
  have hplaceholder {text unset placeholder : String} :
      (if text = unset then placeholder else text) = placeholder ↔
        text = unset ∨ text = placeholder := by
    split
    · next hunset => simp [hunset]
    · next hunset => simp [hunset]
  cases h
  rw [IsEquipped, hplaceholder, hplaceholder]

end Task

namespace Draft

variable {d : Draft} {action? : Option RuleAction}

theorem Gives.isSome_iff (h : d.Gives action?) : action?.isSome = true ↔ d.IsEquipped := by
  rw [Gives] at h
  rw [IsEquipped]
  cases haction : d.action with
  | none =>
      rw [haction] at h
      simp [show action? = none from h]
  | some action =>
      rw [haction] at h
      simpa using Task.Gives.isSome_iff h

theorem Gives.task {action : Action} (h : d.Gives action?) (haction : d.action = some action) :
    action.task.Gives d.memory action? := by
  rw [Gives, haction] at h
  exact h

end Draft

namespace Rule

variable {α β : Type} {m : Memory} {fit : Prop}

/-- Whether it ends well or not, the stored values stay, and it ends well if they are fit. -/
def Ends (m : Memory) (fit : Prop) (x : Run Draft Failure α) (Q : α → Prop) : Prop :=
  ∀ d : Draft, d.memory = m → (x d).state.memory = m ∧
    ((∃ a, (x d).outcome = .ok a ∧ Q a) ∨ ¬ fit ∧ ∃ f, (x d).outcome = .error f ∧ f.IsUnread)

namespace Ends

variable {Q : α → Prop} {R : β → Prop}

theorem pure {a : α} (h : Q a) : Ends m fit (Pure.pure a) Q :=
  fun _ hd => ⟨hd, .inl ⟨a, rfl, h⟩⟩

theorem note (level : Log.Level) (message : String) :
    Ends m fit (Run.note level message) fun _ => True :=
  fun _ hd => ⟨hd, .inl ⟨(), rfl, trivial⟩⟩

theorem ofExcept {x : Except Failure α} (hok : ∀ a, x = .ok a → Q a)
    (herror : ∀ f, x = .error f → ¬ fit ∧ f.IsUnread) : Ends m fit (Run.ofExcept x) Q := by
  rintro d hd
  refine ⟨hd, ?_⟩
  cases x with
  | ok a => exact .inl ⟨a, rfl, hok a rfl⟩
  | error f => exact .inr ⟨(herror f rfl).1, f, rfl, (herror f rfl).2⟩

theorem overlong (h : ¬ fit) : Ends m fit (Run.fail .overlong) Q :=
  fun _ hd => ⟨hd, .inr ⟨h, _, rfl, .inr rfl⟩⟩

theorem bind {x : Run Draft Failure α} {f : α → Run Draft Failure β} (hx : Ends m fit x Q)
    (hf : ∀ a, Q a → Ends m fit (f a) R) : Ends m fit (x >>= f) R := by
  intro d hd
  obtain ⟨hmemory, ⟨a, ha, hQ⟩ | ⟨hfit, e, he, hunread⟩⟩ := hx d hd
  · obtain ⟨hs, ho⟩ := Run.bind_of_ok f ha
    rw [hs, ho]
    exact hf a hQ _ hmemory
  · obtain ⟨hs, ho⟩ := Run.bind_of_error f he
    rw [hs, ho]
    exact ⟨hmemory, .inr ⟨hfit, e, rfl, hunread⟩⟩

theorem get_bind {f : Draft → Run Draft Failure α}
    (hf : ∀ d : Draft, d.memory = m → Ends m fit (f d) Q) : Ends m fit (Run.get >>= f) Q := by
  intro d hd
  obtain ⟨hs, ho⟩ := Run.bind_of_ok (x := Run.get) (s := d) f rfl
  rw [hs, ho]
  exact hf d hd d hd

end Ends

theorem ends_warn (message : String) : Ends m fit (warn message) fun _ => True :=
  .get_bind fun _ _ => .note _ _

theorem ends_resolve {v : Value} (hv : fit → v.isResolvable = true) :
    Ends m fit (resolve v) fun w => ∃ r, v.resolve = .ok r ∧ r.value = w := by
  refine .bind (Q := fun r => v.resolve = .ok r)
    (.ofExcept (fun _ h => h) fun f hf => ⟨fun h => ?_, ?_⟩)
    fun r hr d hd => ⟨hd, .inl ⟨r.value, rfl, r, hr, rfl⟩⟩
  · obtain ⟨r, hr, -⟩ := Value.exists_resolve_eq (hv h)
    rw [hf] at hr
    cases hr
  · exact Value.isUnread_of_resolve hf

/-- What looking up a stored value comes to: nothing if it is null, and else the resolved value. -/
def Found (v : Value) : Option Value → Prop
  | none => v = .null
  | some w => v ≠ .null ∧ ∃ r, v.resolve = .ok r ∧ r.value = w

theorem ends_stored {path warning : String} (hv : fit → (m.get path).isResolvable = true) :
    Ends m fit (stored path warning) (Found (m.get path)) := by
  refine .get_bind fun d hd => ?_
  dsimp only
  rw [hd]
  split
  · next hnull => exact .bind (ends_warn _) fun _ _ => .pure (Value.isNull_iff.1 hnull)
  · next hnull =>
      have hset : m.get path ≠ .null := fun h => hnull (Value.isNull_iff.2 h)
      exact .bind (ends_resolve hv) fun w hw => .pure ⟨hset, hw⟩

/-- What is fit to be shown has a text once it is resolved. -/
theorem ends_asText {v w : Value} (hv : fit → Use.suits .shown v = true)
    (hw : ∃ r, v.resolve = .ok r ∧ r.value = w) :
    Ends m fit (Run.ofExcept (asText w)) fun _ => True := by
  obtain ⟨r, hr, rfl⟩ := hw
  refine .ofExcept (fun _ _ => trivial) fun f hf => ⟨fun h => ?_, ?_⟩
  · obtain ⟨hresolvable, hwritable⟩ := Bool.and_eq_true_iff.1 (hv h)
    obtain ⟨r', hr', hkeeps, -⟩ := Value.exists_resolve_eq hresolvable
    obtain rfl : r = r' := Except.ok.inj (hr.symm.trans hr')
    rw [asText.eq_def] at hf
    split at hf
    · cases hf
    · cases hf
    · rw [Value.json?, if_pos (hkeeps hwritable)] at hf
      cases hf
  · rw [asText.eq_def] at hf
    split at hf
    · cases hf
    · cases hf
    · exact Value.isUnread_of_json? hf

theorem isResolvable_of_suits {use : Use} {v : Value} (h : use.suits v = true) :
    v.isResolvable = true := by
  cases use with
  | shown => exact (Bool.and_eq_true_iff.1 h).1
  | taken =>
      cases v with
      | text s => rfl
      | _ => exact h

/-- What is fit to be taken is not too long to be read once it is resolved. -/
theorem readText_ne_overlong {v w : Value} (hv : Use.suits .taken v = true)
    (hw : ∃ r, v.resolve = .ok r ∧ r.value = w) : readText w ≠ .error .overlong := by
  obtain ⟨r, hr, rfl⟩ := hw
  rw [readText.eq_def]
  split
  · next s hs =>
      obtain ⟨r', hr', -, htext⟩ := Value.exists_resolve_eq (isResolvable_of_suits hv)
      obtain rfl : r = r' := Except.ok.inj (hr.symm.trans hr')
      obtain ⟨template, rfl, rfl⟩ := htext s hs
      intro hread
      rw [Use.suits, hread] at hv
      cases hv
  · exact nofun

theorem ends_given {text placeholder name : String}
    (hv : fit → text = placeholder → Use.suits .shown (m.get name) = true) :
    Ends m fit (given text placeholder name) fun given? =>
      given?.isSome = true ↔ (text = placeholder → m.get name ≠ .null) := by
  rw [given]
  split
  · next htext =>
      have hv : fit → Use.suits .shown (m.get name) = true := fun h => hv h htext
      refine .bind (ends_stored fun h => isResolvable_of_suits (hv h)) fun found hfound => ?_
      cases found with
      | none => exact .pure (iff_of_false Bool.false_ne_true fun h => h htext hfound)
      | some w =>
          obtain ⟨hset, hw⟩ := hfound
          exact .bind (ends_asText hv hw) fun _ _ => .pure (iff_of_true rfl fun _ => hset)
  · next htext => exact .pure (iff_of_true rfl fun h => absurd h htext)

theorem ends_headers (hv : fit → Use.suits .taken (m.get "headers") = true) :
    Ends m fit headers fun _ => True := by
  refine .get_bind fun d hd => ?_
  dsimp only
  rw [hd]
  split
  · exact .pure trivial
  · refine .bind (ends_resolve fun h => isResolvable_of_suits (hv h)) fun w hw => ?_
    split
    · exact .pure trivial
    · next hread => exact .overlong fun h => readText_ne_overlong (hv h) hw hread
    · exact .bind (.note _ _) fun _ _ => .pure trivial

theorem readText_eq_object_iff {v : Value} {fields : Fields Value} :
    readText v = .ok (.object fields) ↔
      v = .object fields ∨ ∃ s, v = .text s ∧ Value.read s = .ok (.object fields) := by
  cases v <;> simp [readText]

theorem ends_updateAction {entityId entityType attributes : String}
    (hv : fit → Use.suits .taken (m.get attributes) = true) :
    Ends m fit (updateAction entityId entityType attributes)
      (Task.Gives m (.update entityId entityType attributes)) := by
  refine .bind (ends_stored fun h => isResolvable_of_suits (hv h)) fun found hfound => ?_
  cases found with
  | none => exact .pure (Task.gives_none fun h => h.1 hfound)
  | some w =>
      obtain ⟨hset, r, hr, rfl⟩ := hfound
      dsimp only
      split
      · next fields hread =>
          have hobject : (m.get attributes).ResolvesTo fields :=
            ⟨r, hr, readText_eq_object_iff.1 hread⟩
          refine .pure ⟨iff_of_true rfl ⟨hset, fields, hobject⟩, ?_⟩
          rintro _ _ _ ⟨⟩ _ ⟨⟩
          exact ⟨fields, hobject, rfl⟩
      · next hread => exact .overlong fun h => readText_ne_overlong (hv h) ⟨r, hr, rfl⟩ hread
      · next hother _ =>
          refine .bind (ends_warn _) fun _ _ => .pure (Task.gives_none ?_)
          rintro ⟨-, fields, r', hr', hobject⟩
          obtain rfl : r = r' := Except.ok.inj (hr.symm.trans hr')
          exact hother fields (readText_eq_object_iff.2 hobject)

theorem ends_postAction {url method body : String}
    (hv : fit → ∀ need ∈ (Task.post url method body).needs, need.1.suits (m.get need.2) = true) :
    Ends m fit (postAction url method body) (Task.Gives m (.post url method body)) := by
  have hbody (h : fit) : Use.suits .shown (m.get body) = true :=
    hv h (.shown, body) (by simp [Task.needs])
  have hurl (h : fit) (hstored : url = Task.storedUrl) : Use.suits .shown (m.get "url") = true :=
    hv h (.shown, "url") (by simp [Task.needs, hstored])
  have hmethod (h : fit) (hstored : method = Task.storedMethod) :
      Use.suits .shown (m.get "method") = true :=
    hv h (.shown, "method") (by simp [Task.needs, hstored])
  have hheaders (h : fit) : Use.suits .taken (m.get "headers") = true :=
    hv h (.taken, "headers") (by simp [Task.needs])
  refine .bind (ends_stored fun h => isResolvable_of_suits (hbody h)) fun found hfound => ?_
  cases found with
  | none => exact .pure (Task.gives_none fun h => h.1 hfound)
  | some content =>
      obtain ⟨hset, hcontent⟩ := hfound
      refine .bind (ends_given hurl) fun url? hurl? => ?_
      cases url? with
      | none => exact .pure (Task.gives_none fun h => by cases hurl?.2 h.2.1)
      | some url' =>
          refine .bind (ends_given hmethod) fun method? hmethod? => ?_
          cases method? with
          | none => exact .pure (Task.gives_none fun h => by cases hmethod?.2 h.2.2)
          | some method' =>
              refine .bind (ends_headers hheaders) fun headers _ => ?_
              refine .bind (ends_asText hbody hcontent) fun _ _ => .pure (Task.gives_some ?_ ?_)
              · exact ⟨hset, hurl?.1 rfl, hmethod?.1 rfl⟩
              · simp

theorem ends_emailAction {recipient sender subject server body : String}
    (hv : fit → Use.suits .shown (m.get body) = true) :
    Ends m fit (emailAction recipient sender subject server body)
      (Task.Gives m (.email recipient sender subject server body)) := by
  refine .bind (ends_stored fun h => isResolvable_of_suits (hv h)) fun found hfound => ?_
  cases found with
  | none => exact .pure (Task.gives_none fun h => h hfound)
  | some content =>
      obtain ⟨hset, hcontent⟩ := hfound
      refine .bind (ends_resolve fun _ => rfl) fun subject _ => ?_
      exact .bind (ends_asText hv hcontent) fun _ _ => .pure (Task.gives_some hset (by simp))

theorem actionOfDraft_ends (d : Draft) :
    (∃ action?, (actionOfDraft d).outcome = .ok action? ∧ d.Gives action?) ∨
      ¬ d.isLegible = true ∧ ∃ f, (actionOfDraft d).outcome = .error f ∧ f.IsUnread := by
  rw [actionOfDraft, (Run.bind_of_ok (x := Run.get) (s := d) _ rfl).2]
  simp only [Draft.Gives]
  cases haction : d.action with
  | none => exact .inl ⟨none, rfl, rfl⟩
  | some action =>
      have hneeds (h : d.isLegible = true) :
          ∀ need ∈ action.task.needs, need.1.suits (d.memory.get need.2) = true := by
        rw [Draft.isLegible, haction] at h
        exact List.all_eq_true.1 h
      obtain ⟨endpoint, task⟩ := action
      cases task with
      | update entityId entityType attributes =>
          exact (ends_updateAction (fun h => hneeds h _ (.head _)) d rfl).2
      | post url method body => exact (ends_postAction hneeds d rfl).2
      | email recipient sender subject server body =>
          exact (ends_emailAction (fun h => hneeds h _ (.head _)) d rfl).2
      | history => exact .inl ⟨none, rfl, Task.gives_none id⟩

/-- The rule of a legible draft is written; that of another is written, or what it needs is not
read. -/
theorem write_ends (d : Draft) :
    (∃ rule?, (write d).outcome = .ok rule? ∧ d.Gives (rule?.map Rule.action)) ∨
      d.isLegible = false ∧ ∃ f, (write d).outcome = .error f ∧ f.IsUnread := by
  obtain ⟨action?, haction, hgives⟩ | ⟨hfit, f, hf, hunread⟩ := actionOfDraft_ends d
  · rw [write, (Run.bind_of_ok _ haction).2]
    cases action? with
    | none => exact .inl ⟨none, rfl, hgives⟩
    | some action => exact .inl ⟨_, rfl, hgives⟩
  · exact .inr ⟨Bool.eq_false_iff.2 hfit, f, (Run.bind_of_error _ hf).2, hunread⟩

end Rule

namespace Gate

variable {d : Draft} {rule? : Option Rule}

theorem gives_of_release (hready : d.stage = .ready) (h : (release d).outcome = .ok rule?) :
    d.Gives (rule?.map Rule.action) := by
  rw [(release_of_ready hready).1] at h
  obtain ⟨written?, hok, hgives⟩ | ⟨-, f, hf, -⟩ := Rule.write_ends d
  · rw [hok] at h
    cases h
    exact hgives
  · rw [hf] at h
    cases h

theorem isSome_iff_of_release (hready : d.stage = .ready)
    (h : (release d).outcome = .ok rule?) : rule?.isSome = true ↔ d.IsEquipped := by
  rw [← (gives_of_release hready h).isSome_iff, Option.isSome_map]

theorem stage_of_release (hready : d.stage = .ready) (h : (release d).outcome = .ok rule?) :
    (release d).state.stage = if rule?.isSome then .emitted else .ready := by
  obtain ⟨names, action, hstate, houtcome⟩ := exists_release_eq hready
  rw [hstate]
  rw [h] at houtcome
  cases action with
  | error e => cases houtcome
  | ok action? =>
      cases houtcome
      cases action? with
      | none => exact Draft.stage_eq_ready_iff.2 ⟨rfl, (Draft.stage_eq_ready_iff.1 hready).2⟩
      | some action => rfl

/-- Where releasing a ready draft does not fail, it gives a rule just if the draft is equipped, and
only then is the draft done. For a node that posts this is said of its own address and method, and
what is stored besides them and the content, headers too, does not decide it. An update lists each
field of the object that is stored once, in the order of that object. -/
theorem release_gives_rule_iff_equipped (hready : d.stage = .ready)
    (h : (release d).outcome = .ok rule?) :
    (rule?.isSome = true ↔ d.IsEquipped) ∧
    ((release d).state.stage = if rule?.isSome then .emitted else .ready) ∧
    (∀ settings n url method body, n.kind = .post url method body →
      d.action = Action.ofNode? settings n →
      (rule?.isSome = true ↔ d.memory.get body ≠ .null ∧
        (url = "" ∨ url = Task.storedUrl → d.memory.get "url" ≠ .null) ∧
        (method = "use" ∨ method = Task.storedMethod → d.memory.get "method" ≠ .null))) ∧
    (∀ endpoint url method body, d.action = some ⟨endpoint, .post url method body⟩ →
      ∀ (m : Memory) (other? : Option Rule),
        (∀ path ∈ [body, "url", "method"], m.get path = d.memory.get path) →
        (release { d with memory := m }).outcome = .ok other? → other?.isSome = rule?.isSome) ∧
    ∀ rule ∈ rule?, ∀ endpoint entityId entityType path,
      d.action = some ⟨endpoint, .update entityId entityType path⟩ →
      ∃ fields, (d.memory.get path).ResolvesTo fields ∧ (Fields.names fields).Nodup ∧
        rule.action.parameters = [("id", .text entityId), ("type", .text entityType),
          ("isPattern", .bool false),
          ("attributes",
            .list (fields.map fun f => .object [("name", .text f.1), ("value", f.2)]))] := by
  have hequipped := isSome_iff_of_release hready h
  refine ⟨hequipped, stage_of_release hready h, ?_, ?_, ?_⟩
  · intro settings n url method body hkind haction
    rw [Action.ofNode?, hkind] at haction
    rw [hequipped, Draft.IsEquipped, haction]
    simp only [Task.ofKind?, Option.map_some, Option.some.injEq, exists_eq_left']
    exact Task.isEquipped_of_post rfl
  · intro endpoint url method body haction m other? hsame hother
    -- the headers of `m` are free, but the draft with it is ready as well
    have hother := isSome_iff_of_release (d := { d with memory := m }) hready hother
    rw [Bool.eq_iff_iff, hequipped, hother]
    simp only [Draft.IsEquipped, haction, Option.some.injEq, exists_eq_left', Task.IsEquipped]
    rw [hsame body (by simp), hsame "url" (by simp), hsame "method" (by simp)]
  · intro rule hrule endpoint entityId entityType path haction
    have hgives := (gives_of_release hready h).task haction
    obtain ⟨fields, hfields, hparameters⟩ :=
      hgives.attributes entityId entityType path rfl rule.action (Option.mem_map_of_mem _ hrule)
    exact ⟨fields, hfields, hfields.nodup_names, hparameters⟩

/-- A name that the stored text repeats is updated once: at its first place, to its last value. -/
theorem release_gives_rule_iff_equipped_repeatedName :
    let d : Draft := {
      memory := [("payload",
        .text "\x7b\"t\": \"\", \"u\": \"on\", \"t\": \"\x7b\x7bmsg.t\x7d\x7d\"\x7d")]
      pattern := .single [] "a"
      action := some ⟨"", .update "room" "Room" "payload"⟩
      name := "rule" }
    d.stage = .ready ∧ ∃ text, (release d).outcome = .ok (some ⟨"rule", text, "update", "",
        [("id", .text "room"), ("type", .text "Room"), ("isPattern", .bool false),
          ("attributes", .list [.object [("name", .text "t"), ("value", .text "$\x7bt\x7d")],
            .object [("name", .text "u"), ("value", .text "on")]])]⟩) ∧
      d.IsEquipped ∧ (release d).state.stage = .emitted := by
  intro d
  have hready : d.stage = .ready := rfl
  refine ⟨hready, _, (and_iff_left_of_imp fun houtcome => ?_).2 (by with_unfolding_all rfl)⟩
  obtain ⟨hequipped, hstage, -⟩ := release_gives_rule_iff_equipped hready houtcome
  exact ⟨hequipped.1 rfl, hstage⟩

end Gate

end EventFlow
