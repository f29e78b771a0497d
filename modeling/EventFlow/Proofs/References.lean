import EventFlow.Proofs.Rewriting
import EventFlow.Proofs.Watching

/-!
The names that a rule projects.

Writing a rule resolves the templates of its task one after the other, and each time the names that
are referred to join the projected ones (`Projects`). So a rule that comes of it has a column for
each name in its templates, once and where it is seen first, behind the columns that the draft had
already (`write_projects`).
-/

namespace EventFlow

namespace Value

open EventFlow.Template

/-- The names that a value refers to, with repetitions. A list or an object is one template, its
spelling. -/
def references : Value → List String
  | .text s => referred s.toList
  | .list items => referred (Value.list items).json.toList
  | .object fields => referred (Value.object fields).json.toList
  | _ => []

/-- Resolving lists the names that are referred to, without repetitions. -/
theorem names_of_resolve {v : Value} {r : Resolved Value} (h : v.resolve = .ok r) :
    r.names = Names.addAll [] v.references := by
  cases v with
  | text s =>
      cases h
      exact names_resolve s
  | list entries | object entries =>
      rw [resolve, json?] at h
      split at h
      · simp only [bind, Except.bind] at h
        split at h
        · cases h
          exact names_resolve _
        · cases h
      · cases h
  | _ =>
      cases h
      rfl

/-- The references in the texts of a value, if it is a text or its texts hold their placeholders. -/
theorem references_eq_texts {v : Value}
    (h : (∃ s, v = .text s) ∨ ∀ s ∈ v.texts, IsContained s) :
    v.references = v.texts.flatMap fun s => referred s.toList := by
  obtain ⟨s, rfl⟩ | h := h
  · exact (List.append_nil _).symm
  · have hcontained : ∀ s, .text s ∈ v.leaves → IsContained s := fun s hs => h s (mem_texts.2 hs)
    have hwrite := referred_write hcontained []
    rw [List.append_nil, referred_nil, List.append_nil] at hwrite
    cases v with
    | text s => exact (List.append_nil _).symm
    | list entries | object entries =>
        rw [references, json, String.toList_ofList, hwrite]
        rfl
    | _ => rfl

end Value

namespace Template

theorem mem_referred {cs body : List Char} (h : .placeholder body ∈ pieces cs)
    (hname : name body ≠ []) : String.ofList (name body) ∈ referred cs := by
  refine List.mem_flatMap.2 ⟨_, h, ?_⟩
  simp [Piece.name?, hname]

end Template

/-- The values that a task resolves for a rule, in this order. -/
def Task.templates (m : Memory) : Task → List Value
  | .update _ _ attributes => [m.get attributes]
  | .post url method body =>
    m.get body :: ((if url = storedUrl then [m.get "url"] else []) ++
      ((if method = storedMethod then [m.get "method"] else []) ++
        if (m.get "headers").isNull then [] else [m.get "headers"]))
  | .email _ _ subject _ body => [m.get body, .text subject]
  | .history => []

def Draft.templates (d : Draft) : List Value :=
  (d.action.map Action.task).elim [] (Task.templates d.memory)

def Draft.references (d : Draft) : List String :=
  d.templates.flatMap Value.references

namespace Rule

variable {α β : Type} {m : Memory} {vs ws : List Value}

/-- A result with the property `P` comes only after `vs` have been resolved. Their names are what is
added to the projected ones, and nothing else is changed. -/
def Projects (m : Memory) (vs : List Value) (x : Run Draft Failure α) (P : α → Prop) : Prop :=
  ∀ d : Draft, d.memory = m → ∀ a, (x d).outcome = .ok a → P a →
    (x d).state = { d with projected := Names.addAll d.projected (vs.flatMap Value.references) }

namespace Projects

variable {P : α → Prop} {Q : β → Prop}

theorem pure (a : α) : Projects m [] (Pure.pure a) P :=
  fun _ _ _ _ _ => rfl

theorem ofExcept (x : Except Failure α) : Projects m [] (Run.ofExcept x) P :=
  fun _ _ _ _ _ => rfl

theorem note (level : Log.Level) (message : String) (P : Unit → Prop) :
    Projects m [] (Run.note level message) P :=
  fun _ _ _ _ _ => rfl

theorem never {x : Run Draft Failure α} (h : ∀ d a, (x d).outcome = .ok a → ¬ P a) :
    Projects m vs x P :=
  fun d _ a ha hP => absurd hP (h d a ha)

theorem fail (e : Failure) : Projects m vs (Run.fail e : Run Draft Failure α) P :=
  .never fun _ _ ha => by cases ha

/-- What has not the property on the way must not lead to a result that has it. -/
theorem bind {x : Run Draft Failure α} {f : α → Run Draft Failure β} (hx : Projects m vs x P)
    (hf : ∀ a, P a → Projects m ws (f a) Q)
    (hnever : ∀ a, ¬ P a → ∀ d b, (f a d).outcome = .ok b → ¬ Q b) :
    Projects m (vs ++ ws) (x >>= f) Q := by
  intro d hd b hb hQ
  cases ha : (x d).outcome with
  | error e =>
      rw [(Run.bind_of_error f ha).2] at hb
      cases hb
  | ok a =>
      obtain ⟨hstate, houtcome⟩ := Run.bind_of_ok f ha
      rw [houtcome] at hb
      by_cases hP : P a
      · have hfirst := hx d hd a ha hP
        have hmemory : (x d).state.memory = m := by rw [hfirst, hd]
        rw [hstate, hf a hP _ hmemory b hb hQ, hfirst, List.flatMap_append, Names.addAll_append]
      · exact absurd hQ (hnever a hP _ b hb)

theorem andThen {x : Run Draft Failure α} {f : α → Run Draft Failure β}
    (hx : Projects m vs x fun _ => True) (hf : ∀ a, Projects m ws (f a) Q) :
    Projects m (vs ++ ws) (x >>= f) Q :=
  .bind hx (fun a _ => hf a) fun _ h => absurd trivial h

theorem andLast {x : Run Draft Failure α} {f : α → Run Draft Failure β}
    (hx : Projects m vs x fun _ => True) (hf : ∀ a, Projects m [] (f a) Q) :
    Projects m vs (x >>= f) Q := by
  rw [← List.append_nil vs]
  exact hx.andThen hf

/-- Nothing comes of what is not found. -/
theorem found {x : Run Draft Failure (Option α)} {f : Option α → Run Draft Failure (Option β)}
    (hx : Projects m vs x fun a => a.isSome = true) (hnone : f none = Pure.pure none)
    (hf : ∀ a, Projects m ws (f (some a)) fun b => b.isSome = true) :
    Projects m (vs ++ ws) (x >>= f) fun b => b.isSome = true := by
  refine .bind hx (fun a ha => ?_) fun a ha d b hb => ?_
  · obtain ⟨a, rfl⟩ := Option.isSome_iff_exists.1 ha
    exact hf a
  · obtain rfl : a = none := by simpa using ha
    rw [hnone] at hb
    cases hb
    simp

theorem get_bind {f : Draft → Run Draft Failure α}
    (hf : ∀ d : Draft, d.memory = m → Projects m vs (f d) P) :
    Projects m vs (Run.get >>= f) P := by
  intro d hd a ha hP
  obtain ⟨hs, ho⟩ := Run.bind_of_ok (x := Run.get) (s := d) f rfl
  rw [ho] at ha
  rw [hs]
  exact hf d hd d hd a ha hP

end Projects

theorem projects_resolve (v : Value) : Projects m [v] (resolve v) fun _ => True := by
  intro d _ w hw _
  cases hr : v.resolve with
  | error e =>
      rw [resolve, hr] at hw
      cases hw
  | ok r =>
      have hstate : (resolve v d).state =
          { d with projected := Names.addAll d.projected r.names } := by
        rw [resolve, hr]
        rfl
      rw [hstate, Value.names_of_resolve hr, Names.addAll_addAll, List.flatMap_singleton]
      rfl

theorem projects_warn (message : String) : Projects m [] (warn message) fun _ => True :=
  .get_bind fun _ _ => .note _ _ _

theorem projects_stored (path warning : String) :
    Projects m [m.get path] (stored path warning) fun found => found.isSome = true := by
  refine .get_bind fun d hd => ?_
  dsimp only
  rw [hd]
  split
  · exact .never fun d a ha => by
      cases ha
      simp
  · exact .andThen (projects_resolve _) fun _ => .pure _

theorem projects_updateAction (entityId entityType attributes : String) :
    Projects m (Task.templates m (.update entityId entityType attributes))
      (updateAction entityId entityType attributes) fun action => action.isSome = true := by
  refine .found (projects_stored attributes _) rfl fun v => ?_
  dsimp only
  split
  · exact .pure _
  · exact .fail _
  · exact .andThen (projects_warn _) fun _ => .pure _

theorem projects_given (text placeholder name : String) :
    Projects m (if text = placeholder then [m.get name] else []) (given text placeholder name)
      fun found => found.isSome = true := by
  rw [given]
  split
  · refine .found (projects_stored _ _) rfl fun v => ?_
    exact .andThen (.ofExcept _) fun _ => .pure _
  · exact .pure _

theorem projects_headers :
    Projects m (if (m.get "headers").isNull then [] else [m.get "headers"]) headers
      fun _ => True := by
  refine .get_bind fun d hd => ?_
  dsimp only
  rw [hd]
  split
  · exact .pure _
  · refine .andThen (projects_resolve _) fun resolved => ?_
    split
    · exact .pure _
    · exact .fail _
    · exact .andThen (.note _ _ _) fun _ => .pure _

theorem projects_postAction (url method body : String) :
    Projects m (Task.templates m (.post url method body)) (postAction url method body)
      fun action => action.isSome = true := by
  refine .found (projects_stored body _) rfl fun content => ?_
  refine .found (projects_given url Task.storedUrl "url") rfl fun url => ?_
  refine .found (projects_given method Task.storedMethod "method") rfl fun method => ?_
  refine .andLast projects_headers fun headers => ?_
  exact .andThen (.ofExcept _) fun _ => .pure _

theorem projects_emailAction (recipient sender subject server body : String) :
    Projects m (Task.templates m (.email recipient sender subject server body))
      (emailAction recipient sender subject server body) fun action => action.isSome = true := by
  refine .found (projects_stored body _) rfl fun content => ?_
  refine .andThen (projects_resolve (.text subject)) fun subject => ?_
  exact .andThen (.ofExcept _) fun _ => .pure _

/-- An action comes only after all templates of the draft have been resolved. -/
theorem projects_actionOfDraft (d : Draft) {action : RuleAction}
    (h : (actionOfDraft d).outcome = .ok (some action)) :
    (actionOfDraft d).state = { d with projected := Names.addAll d.projected d.references } := by
  obtain ⟨hs, ho⟩ := Run.bind_of_ok (x := Run.get) (s := d) _ rfl
  rw [actionOfDraft, ho] at h
  rw [actionOfDraft, hs, Draft.references, Draft.templates]
  cases htask : d.action.map Action.task with
  | none =>
      simp only [htask] at h
      cases h
  | some task =>
      simp only [htask, Option.elim_some] at h ⊢
      cases task with
      | update entityId entityType attributes => exact projects_updateAction _ _ _ d rfl _ h rfl
      | post url method body => exact projects_postAction _ _ _ d rfl _ h rfl
      | email recipient sender subject server body =>
          exact projects_emailAction _ _ _ _ _ d rfl _ h rfl
      | history => cases h

/-- A rule is written from the draft as its action has left it. -/
theorem write_eq_some {d : Draft} {rule : Rule} (h : (write d).outcome = .ok (some rule)) :
    let written := { d with projected := Names.addAll d.projected d.references }
    (write d).state = written ∧ rule.text = patternText written := by
  cases ha : (actionOfDraft d).outcome with
  | error e =>
      have ho : (write d).outcome = .error e := (Run.bind_of_error _ ha).2
      rw [ho] at h
      cases h
  | ok action =>
      obtain ⟨hs, ho⟩ : (write d).state = _ ∧ (write d).outcome = _ := Run.bind_of_ok _ ha
      cases action with
      | none =>
          rw [ho] at h
          cases h
      | some action =>
          rw [projects_actionOfDraft d ha] at hs ho
          rw [ho] at h
          cases h
          exact ⟨hs, rfl⟩

/-- A rule has a column for its name and one for each projected name. These are the ones that the
draft projects already and then those that its templates refer to, each where it is seen first; what
a text or the texts of a value refer to is among them. -/
theorem write_projects {d : Draft} {rule : Rule} (hd : d.projected.Nodup)
    (h : (write d).outcome = .ok (some rule)) :
    let projected := (write d).state.projected
    rule.text = "select *, " ++ Text.joinWith ", " (("\"" ++ d.name ++ "\" as ruleName") ::
        projected.map fun v => (if d.isPaired then "ev2" else "ev") ++ "." ++ v ++ "? as " ++ v) ++
      " from pattern [" ++ events d.pattern ++ "]" ∧
    projected.Nodup ∧
    projected = d.projected ++ (d.references.filter (· ∉ d.projected)).eraseDups ∧
    ∀ v ∈ d.templates, ((∃ s, v = .text s) ∨ ∀ s ∈ v.texts, Template.IsContained s) →
      ∀ s ∈ v.texts, ∀ body, .placeholder body ∈ Template.pieces s.toList →
        Template.name body ≠ [] → String.ofList (Template.name body) ∈ projected := by
  obtain ⟨hstate, htext⟩ := write_eq_some h
  dsimp only
  rw [hstate]
  refine ⟨htext, Names.nodup_addAll _ hd, Names.addAll_eq_append _ _, ?_⟩
  intro v hv hcontained s hs body hbody hname
  refine Names.mem_addAll.2 (.inr (List.mem_flatMap.2 ⟨v, hv, ?_⟩))
  rw [Value.references_eq_texts hcontained]
  exact List.mem_flatMap.2 ⟨s, hs, Template.mem_referred hbody hname⟩

def storedPost : Draft where
  memory := [("payload", .text "{{msg.value}} {{unit}}"),
    ("url", .text "http://{{host}}/{{unit}}")]
  pattern := .paired [] [] "a" "b"
  action := some ⟨"", .post Task.storedUrl "POST" "payload"⟩
  name := "rule"
  projected := ["t", "host"]

theorem write_projects_storedPost : ∃ rule, (write storedPost).outcome = .ok (some rule) ∧
    rule.text = "select *, \"rule\" as ruleName, ev2.t? as t, ev2.host? as host, " ++
      "ev2.value? as value, ev2.unit? as unit from pattern [every ev = " ++
      "iotEvent(cast(subscriptionId?, String) = \"a\") -> ev2 = " ++
      "iotEvent(cast(subscriptionId?, String) = \"b\")]" ∧
    (write storedPost).state.projected =
      ["t", "host"] ++ (storedPost.references.filter (· ∉ ["t", "host"])).eraseDups := by
  obtain ⟨rule, hrule⟩ : ∃ rule, (write storedPost).outcome = .ok (some rule) :=
    ⟨_, by with_unfolding_all rfl⟩
  have hprojects := write_projects (by decide) hrule
  refine ⟨rule, hrule, ?_, hprojects.2.2.1⟩
  rw [hprojects.1]
  with_unfolding_all rfl

end Rule

end EventFlow
