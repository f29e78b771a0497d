import EventFlow.Proofs.Routes
import EventFlow.Proofs.Sharing

/-!
What a walk yields.

A walk yields one draft for each of its leaves. But for their memories the drafts are what the steps
of the leaves make of the first draft (`forget_harvest`). So are their memories, if no shared object
that is overtaken is stored more than once (`yields_harvest`).
-/

namespace EventFlow

open Step

namespace Walk

mutual

def stretch : Walk → List Step
  | .sink _ => []
  | .pass true _ _ => []
  | .pass false steps next => steps ++ stretchOf next

def stretchOf : List Walk → List Step
  | [w] => stretch w
  | _ => []

end

mutual

def keys : Walk → List LiteralKey
  | .sink _ => []
  | .pass _ steps next => steps.filterMap key? ++ keysOf next

def keysOf : List Walk → List LiteralKey
  | [] => []
  | w :: rest => keys w ++ keysOf rest

end

theorem keysOf_eq_flatMap (ws : List Walk) : keysOf ws = ws.flatMap keys := by
  induction ws with
  | nil => rfl
  | cons w rest ih => rw [keysOf, ih, List.flatMap_cons]

mutual

/-- The layout fits all stretches of the walk, and only objects with `P` are overtaken. -/
def Steady (L : Layout) (P : LiteralKey → Prop) : Walk → Prop
  | .sink _ => True
  | .pass _ steps next =>
    (L.Fits (steps ++ stretchOf next) ∧ ∀ key, Overtaken key (steps ++ stretchOf next) → P key) ∧
      SteadyAll L P next

def SteadyAll (L : Layout) (P : LiteralKey → Prop) : List Walk → Prop
  | [] => True
  | w :: rest => Steady L P w ∧ SteadyAll L P rest

end

def atLeaf (d : Draft) (leaf : List Step × Option Action) : Draft :=
  { leaf.1.foldl Step.apply d with action := leaf.2 }

theorem atLeaf_append (d : Draft) (steps : List Step) (leaf : List Step × Option Action) :
    atLeaf d (steps ++ leaf.1, leaf.2) = atLeaf (steps.foldl Step.apply d) leaf := by
  rw [atLeaf, List.foldl_append]
  rfl

theorem forget_steps (shelf : Shelf) {c : Carried} {d : Draft} (steps : List Step)
    (h : c.draft.forget = d.forget) :
    (c.steps shelf steps).2.draft.forget = (steps.foldl Step.apply d).forget := by
  induction steps generalizing shelf c d with
  | nil => exact h
  | cons step steps ih => exact ih _ (Layout.forget_step shelf step h)

mutual

theorem forget_harvest (shelf : Shelf) {c : Carried} {d : Draft} (w : Walk)
    (h : c.draft.forget = d.forget) :
    List.Forall₂ (fun c' leaf => c'.draft.forget = (atLeaf d leaf).forget)
      (w.harvest shelf c).2 w.leaves := by
  cases w with
  | sink action =>
      refine .cons ?_ .nil
      exact congrArg (fun e : Draft => { e with action := some action }) h
  | pass copied steps next =>
      rw [leaves, List.forall₂_map_right_iff]
      simp only [atLeaf_append]
      refine forget_harvestAll _ _ next ?_
      have harrived : (if copied then c.copy shelf else c).draft.forget = d.forget := by
        split <;> exact h
      exact forget_steps shelf steps harrived

theorem forget_harvestAll (copied : Bool) (shelf : Shelf) {c : Carried} {d : Draft} (ws : List Walk)
    (h : c.draft.forget = d.forget) :
    List.Forall₂ (fun c' leaf => c'.draft.forget = (atLeaf d leaf).forget)
      (harvestAll copied shelf c ws).2 (leavesOf ws) := by
  cases ws with
  | nil => exact .nil
  | cons w rest =>
      rw [leavesOf]
      have harrived : (if copied then c.copy shelf else c).draft.forget = d.forget := by
        split <;> exact h
      exact List.rel_append (forget_harvest shelf w harrived) (forget_harvestAll copied _ rest h)

end

/-- After a walk, every shared object is at rest, and the drafts are what their leaves make of the
first one. -/
structure Yields (L : Layout) (shelf : Shelf) (d : Draft) (passed : List LiteralKey)
    (leaves : List (List Step × Option Action)) (result : Shelf × List Carried) : Prop where
  atRest : L.AtRest result.1
  grows : ∀ key, shelf.has key = true → result.1.has key = true
  passed : ∀ key, result.1.has key = true → key ∈ passed
  arrived : List.Forall₂ (fun c leaf => L.Arrived result.1 c (atLeaf d leaf)) result.2 leaves

theorem has_steps {shelf : Shelf} {c : Carried} {key : LiteralKey} (steps : List Step)
    (h : shelf.has key = true) : (c.steps shelf steps).1.has key = true := by
  induction steps generalizing shelf c with
  | nil => exact h
  | cons step steps ih =>
      refine ih ?_
      cases step with
      | store path v => exact Scope.has_setAt_of_has h
      | share path literal fields =>
          refine Scope.has_setAt_of_has ?_
          split
          · exact h
          · exact Layout.has_put_of_has h
      | _ => exact h

variable {L : Layout} {P : LiteralKey → Prop}

mutual

theorem yields_harvest {shelf : Shelf} {c : Carried} {d : Draft} {passed : List LiteralKey}
    (w : Walk) (hw : w.Steady L P)
    (hpassed : ∀ key, shelf.has key = true → key ∈ passed)
    (honce : ∀ key, P key → (passed ++ w.keys).count key ≤ 1) (h : L.Bears shelf c d w.stretch) :
    Yields L shelf d (passed ++ w.keys) w.leaves (w.harvest shelf c) := by
  cases w with
  | sink action =>
      obtain ⟨hrest, t, hscope, hdone, hmemory, hdraft⟩ := h.arrived
      refine ⟨hrest, fun _ => id, fun key hkey => ?_, .cons ⟨t, hscope, hdone, hmemory, ?_⟩ .nil⟩
      · exact List.mem_append_left _ (hpassed key hkey)
      · exact congrArg (fun e : Draft => { e with action := some action }) hdraft
  | pass copied steps next =>
      have hstart : L.Bears shelf (if copied then c.copy shelf else c) d
          (steps ++ stretchOf next) := by
        cases copied with
        | true => exact h.arrived.2.copy h.arrived.1 _
        | false => exact h
      obtain ⟨⟨hfits, hsteps⟩, hnext⟩ := hw
      rw [keys, ← List.append_assoc] at honce ⊢
      have hbefore (key : LiteralKey) (hkey : P key) :
          (passed ++ steps.filterMap key?).count key ≤ 1 :=
        (List.sublist_append_left _ _).count_le key |>.trans (honce key hkey)
      obtain ⟨hstart, hpassed⟩ := hstart.steps hfits hpassed fun key hkey =>
        hbefore key (hsteps key hkey)
      have hyields : Yields L ((if copied then c.copy shelf else c).steps shelf steps).1
          (steps.foldl Step.apply d) (passed ++ steps.filterMap key? ++ keysOf next) (leavesOf next)
          (harvestAll (next.length > 1) ((if copied then c.copy shelf else c).steps shelf steps).1
            ((if copied then c.copy shelf else c).steps shelf steps).2 next) := by
        cases next with
        | nil =>
            refine ⟨hstart.arrived.1, fun _ => id, fun key hkey => ?_, .nil⟩
            exact List.mem_append_left _ (hpassed key hkey)
        | cons w rest =>
            cases rest with
            | nil =>
                -- With one way on there is no copy, and the stretch goes on.
                rw [keysOf, keysOf, List.append_nil] at honce ⊢
                have hw := yields_harvest w hnext.1 hpassed honce hstart
                refine ⟨hw.atRest, hw.grows, hw.passed, ?_⟩
                exact List.rel_append hw.arrived .nil
            | cons w' rest =>
                exact yields_copies (w :: w' :: rest) hnext hpassed honce hstart.arrived.1
                  hstart.arrived.2
      refine ⟨hyields.atRest, fun key hkey => hyields.grows key (has_steps steps hkey),
        hyields.passed, ?_⟩
      rw [leaves, List.forall₂_map_right_iff]
      simp only [atLeaf_append]
      exact hyields.arrived

/-- A draft that has several ways on is copied for each of them. -/
theorem yields_copies {shelf : Shelf} {c : Carried} {d : Draft} {passed : List LiteralKey}
    (ws : List Walk) (hws : SteadyAll L P ws)
    (hpassed : ∀ key, shelf.has key = true → key ∈ passed)
    (honce : ∀ key, P key → (passed ++ keysOf ws).count key ≤ 1) (hrest : L.AtRest shelf)
    (h : L.Arrived shelf c d) :
    Yields L shelf d (passed ++ keysOf ws) (leavesOf ws) (harvestAll true shelf c ws) := by
  cases ws with
  | nil =>
      refine ⟨hrest, fun _ => id, fun key hkey => ?_, .nil⟩
      exact List.mem_append_left _ (hpassed key hkey)
  | cons w rest =>
      rw [keysOf, ← List.append_assoc] at honce ⊢
      have hbefore (key : LiteralKey) (hkey : P key) : (passed ++ w.keys).count key ≤ 1 :=
        (List.sublist_append_left _ _).count_le key |>.trans (honce key hkey)
      have hfirst := yields_harvest w hws.1 hpassed hbefore (h.copy hrest w.stretch)
      have hothers := yields_copies rest hws.2 hfirst.passed honce hfirst.atRest
        (h.mono hfirst.grows)
      refine ⟨hothers.atRest, fun key hkey => hothers.grows key (hfirst.grows key hkey),
        hothers.passed, ?_⟩
      rw [leavesOf]
      refine List.rel_append (hfirst.arrived.imp fun _ _ harrived => ?_) hothers.arrived
      exact harrived.mono hothers.grows

end

end Walk

end EventFlow
