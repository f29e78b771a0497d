import EventFlow.Proofs.Labels

/-!
Stretches: the steps that a draft takes before it is copied.

Drafts that store the same shared object do the same with it until they are copied, since that part
of their ways is the same. So there is a last state of every shared object, which each of them leads
to; a `Layout` has it, and the path at which the object is stored. A draft that finds an object in
its last state does to it what it would have done to a new one, with one exception: if it writes
below a place before another shared object is stored there again, it writes into that object
(`Overtaken`).
-/

namespace EventFlow

open EventFlow.Tree

namespace Step

/-- What a step writes, with an object of a change rule as the rule has it. -/
def write? : Step → Option Tree.Write
  | .store path v => some (Text.segments path, .ofValue v)
  | .share path key fields => some (Text.segments path, .object (some key) (Tree.ofFields fields))
  | _ => none

def writes (steps : List Step) : List Tree.Write :=
  steps.filterMap write?

/-- The object of a change rule that a step stores. -/
def key? : Step → Option LiteralKey
  | .share _ key _ => some key
  | _ => none

/-- A shared object is stored; something is written below it; then another shared object is stored
between the two. -/
def Overtaken (key : LiteralKey) (steps : List Step) : Prop :=
  ∃ outer fields step write inner key' fields',
    List.Sublist [.share outer key fields, step, .share inner key' fields'] steps ∧
      step.write? = some write ∧ Beyond (Text.segments outer) (Text.segments inner) ∧
        Beyond (Text.segments inner) write.1

end Step

open Step

/-- Where each shared object is stored, and what it is in the end. -/
structure Layout where
  place : LiteralKey → List String
  final : LiteralKey → Tree

namespace Layout

variable {L : Layout} {ws : List Write} {p q r : List String} {t x x' : Tree}

/-- Every object that the steps store is what the layout says after the steps behind it. -/
def Fits (L : Layout) : List Step → Prop
  | [] => True
  | .share path key fields :: steps =>
    (L.place key = Text.segments path ∧
      L.final key = run (beneath (Text.segments path) (writes steps))
        (.object (some key) (ofFields fields))) ∧ L.Fits steps
  | _ :: steps => L.Fits steps

/-- The object lies at its place and will come to its last state. -/
def Due (L : Layout) (ws : List Write) (p : List String) (key : LiteralKey)
    (fields : Fields Tree) : Prop :=
  L.place key = p ∧ run (beneath p ws) (.object (some key) fields) = L.final key

def Done (L : Layout) (p : List String) (key : LiteralKey) (fields : Fields Tree) : Prop :=
  L.place key = p ∧ .object (some key) fields = L.final key

/-- A write drops the objects below it, so they are in their last state. -/
theorem done_of_isPrefix (hq : q <+: p) (h : t.All (L.Due ((q, x) :: ws)) p) : t.All L.Done p := by
  refine h.mono fun r key fields hr hdue => ?_
  obtain ⟨hplace, hrun⟩ := hdue
  rw [beneath_cons_of_isPrefix (hq.trans hr)] at hrun
  exact ⟨hplace, hrun⟩

theorem due_of_apart (hq : Apart p q) (h : t.All (L.Due ((q, x) :: ws)) p) :
    t.All (L.Due ws) p := by
  refine h.mono fun r key fields hr hdue => ?_
  obtain ⟨hplace, hrun⟩ := hdue
  obtain ⟨s, rfl⟩ := hr
  rw [beneath_cons_of_apart (apart_append hq s)] at hrun
  exact ⟨hplace, hrun⟩

/-- What is due stays due when the write is made, and also when the place gets at once what the
other writes will make of it. -/
theorem due_write (h : t.All (L.Due ((p ++ q, x) :: ws)) p) (hx : x'.All (L.Due ws) (p ++ q))
    (hsame : run (beneath (p ++ q) ws) x' = run (beneath (p ++ q) ws) x) :
    (t.write q x').All (L.Due ws) p := by
  refine all_write h hx ?_ ?_
  · rintro r key fields hr ⟨hplace, hrun⟩
    rw [beneath_cons_of_apart hr] at hrun
    exact ⟨hplace, hrun⟩
  · rintro r rest key fields rfl hrest hget ⟨hplace, hrun⟩
    refine ⟨hplace, ?_⟩
    rw [← List.append_assoc, beneath_cons_append hrest] at hrun
    have hlabel : ((t.get r).write rest x').label = some key := by
      obtain ⟨name, names, rfl⟩ := List.exists_cons_of_ne_nil hrest
      rw [hget]
      rfl
    rw [← get_of_label hlabel, hget, ← hrun]
    refine run_write_congr ?_
    rw [← beneath_append, List.append_assoc]
    exact hsame

theorem Fits.tail {step : Step} {steps : List Step} (h : L.Fits (step :: steps)) :
    L.Fits steps := by
  cases step with
  | share path key fields => exact h.2
  | _ => exact h

/-- Whatever a step writes is due after it. -/
theorem Fits.due {step : Step} {steps : List Step} (h : L.Fits (step :: steps))
    (hstep : step.write? = some (q, x)) : x.All (L.Due (writes steps)) q := by
  cases step with
  | store path v =>
      cases hstep
      exact all_of_isPlain _ _ (isPlain_ofValue v)
  | share path key fields =>
      cases hstep
      refine ⟨fun key' hkey => ?_, allFields_of_isPlain _ _ (isPlainFields_ofFields fields)⟩
      cases hkey
      exact ⟨h.1.1, h.1.2.symm⟩
  | _ => cases hstep

/-- What is stored at a place is not changed by writes up to the one that stores it, unless they lie
beyond the place. -/
theorem beneath_append_cons (h : ∀ w ∈ ws, ¬ Beyond p w.1) (ws' : List Write) :
    beneath p (ws ++ (p, x) :: ws') = [] := by
  induction ws with
  | nil => exact beneath_cons_of_isPrefix List.prefix_rfl
  | cons w ws ih =>
      obtain ⟨q, y⟩ := w
      rw [List.cons_append]
      obtain hq | ⟨r, hr, rfl⟩ | hq := prefix_or_append_or_apart p q
      · exact beneath_cons_of_isPrefix hq
      · refine absurd ⟨List.prefix_append p r, ?_⟩ (h _ (.head _))
        simpa using hr
      · rw [beneath_cons_of_apart hq]
        exact ih fun w hw => h w (.tail _ hw)

/-- The object is not changed by the steps if it is in its last state before them. -/
def Kept (L : Layout) (steps : List Step) (p : List String) (key : LiteralKey)
    (_fields : Fields Tree) : Prop :=
  run (beneath p (writes steps)) (L.final key) = L.final key

/-- An object that a step stores is kept by the steps around it, if none before it writes beyond its
place. -/
theorem all_kept_of_write? {done todo : List Step} {step : Step} (hstep : step.write? = some (q, x))
    (hdone : ∀ path key fields, step = .share path key fields ∧ q = Text.segments path →
      ∀ w ∈ writes done, ¬ Beyond q w.1) :
    x.All (L.Kept (done ++ step :: todo)) q := by
  cases step with
  | store path v =>
      cases hstep
      exact all_of_isPlain _ _ (isPlain_ofValue v)
  | share path key fields =>
      have hwrites : writes (done ++ .share path key fields :: todo) =
          writes done ++ (q, x) :: writes todo := by
        rw [writes, List.filterMap_append, List.filterMap_cons_some hstep]
        rfl
      cases hstep
      refine ⟨fun key' _ => ?_, allFields_of_isPlain _ _ (isPlainFields_ofFields fields)⟩
      rw [Kept, hwrites, beneath_append_cons (hdone path key fields ⟨rfl, rfl⟩)]
      rfl
  | _ => cases hstep

/-- The objects that the steps store beneath a path come to their last state, and the steps would
not change them again. -/
theorem all_run_beneath (done : List Step) {todo : List Step} (hfits : L.Fits todo)
    (hclear : ∀ mid path key fields rest, todo = mid ++ .share path key fields :: rest →
      Beyond p (Text.segments path) → ∀ w ∈ writes (done ++ mid), ¬ Beyond (Text.segments path) w.1)
    (hdue : t.All (L.Due (writes todo)) p) (hkept : t.All (L.Kept (done ++ todo)) p) :
    (run (beneath p (writes todo)) t).All L.Done p ∧
      (run (beneath p (writes todo)) t).All (L.Kept (done ++ todo)) p := by
  -- The steps taken so far are kept, as `Kept` is about all of them.
  induction todo generalizing done t with
  | nil => exact ⟨hdue, hkept⟩
  | cons step todo ih =>
      have hsplit : done ++ step :: todo = (done ++ [step]) ++ todo := by simp
      have hclear' : ∀ mid path key fields rest, todo = mid ++ .share path key fields :: rest →
          Beyond p (Text.segments path) →
          ∀ w ∈ writes ((done ++ [step]) ++ mid), ¬ Beyond (Text.segments path) w.1 := by
        intro mid path key fields rest htodo
        rw [List.append_assoc, List.singleton_append]
        exact hclear (step :: mid) path key fields rest (by rw [htodo]; rfl)
      cases hstep : step.write? with
      | none =>
          have hwrites : writes (step :: todo) = writes todo := List.filterMap_cons_none hstep
          rw [hwrites] at hdue ⊢
          rw [hsplit] at hkept ⊢
          exact ih (done ++ [step]) hfits.tail hclear' hdue hkept
      | some w =>
          obtain ⟨q, x⟩ := w
          have hwrites : writes (step :: todo) = (q, x) :: writes todo :=
            List.filterMap_cons_some hstep
          rw [hwrites] at hdue ⊢
          obtain hq | ⟨r, hr, rfl⟩ | hq := prefix_or_append_or_apart p q
          · rw [beneath_cons_of_isPrefix hq]
            exact ⟨done_of_isPrefix hq hdue, hkept⟩
          · rw [beneath_cons_append hr]
            have hbeyond : Beyond p (p ++ r) := ⟨List.prefix_append p r, by simpa using hr⟩
            have hx : x.All (L.Kept (done ++ step :: todo)) (p ++ r) :=
              all_kept_of_write? hstep fun path key fields hshare => by
                obtain ⟨rfl, hpath⟩ := hshare
                have hdone := hclear [] path key fields todo rfl (hpath ▸ hbeyond)
                rwa [List.append_nil, ← hpath] at hdone
            have hkept' := all_write hkept hx (fun _ _ _ _ => id) (fun _ _ _ _ _ _ _ => id)
            rw [hsplit] at hkept' ⊢
            have hdue' := due_write hdue (hfits.due hstep) rfl
            exact ih (done ++ [step]) hfits.tail hclear' hdue' hkept'
          · rw [beneath_cons_of_apart hq]
            rw [hsplit] at hkept ⊢
            exact ih (done ++ [step]) hfits.tail hclear' (due_of_apart hq hdue) hkept

/-- What is in the last state of an object is in its own last state, and is still there after the
steps that follow, if they start with the object in that state. -/
theorem Fits.all_final {path : String} {key : LiteralKey} {fields : Fields Value}
    {steps : List Step} (h : L.Fits (.share path key fields :: steps))
    (hsteps : ¬ Overtaken key (.share path key fields :: steps)) :
    (L.final key).All L.Done (Text.segments path) ∧
      (L.final key).All (L.Kept steps) (Text.segments path) := by
  rw [h.1.2]
  refine all_run_beneath [] h.2 ?_ (h.due rfl) ?_
  · intro mid inner key' fields' rest hrest hinner w hw hbeyond
    obtain ⟨step, hstep, hwrite⟩ := List.mem_filterMap.1 hw
    refine hsteps ⟨path, fields, step, w, inner, key', fields', ?_, hwrite, hinner, hbeyond⟩
    rw [hrest]
    refine .cons_cons _ ?_
    exact (List.singleton_sublist.2 hstep).append (.cons_cons _ (List.nil_sublist _))
  · refine ⟨fun key' hkey => ?_, allFields_of_isPlain _ _ (isPlainFields_ofFields fields)⟩
    cases hkey
    rw [Kept, h.1.2]
    exact run_run _ _

end Layout

end EventFlow
