import EventFlow.Proofs.Gathering
import EventFlow.Proofs.Numerals

/-!
Numbering the drafts of a flow.

The name of a rule ends in a number, and a number has no underscore. So its digits are what stands
behind the last underscore, whatever the id of the flow looks like, and a name tells its number and,
points and underscores taken for the same, the id of its flow (`ruleName_eq_iff`). The drafts of a
plan are numbered through, from the first source to the last, so no two of them share a name.
-/

namespace EventFlow

/-! ### Names -/

namespace Text

theorem natDigits_inj {m n : Nat} (h : natDigits m = natDigits n) : m = n :=
  calc
    m = natOfDigits ((natDigits m).map (·.toNat - 48)) := (natOfDigits_natDigits m).symm
    _ = natOfDigits ((natDigits n).map (·.toNat - 48)) := by rw [h]
    _ = n := natOfDigits_natDigits n

/-- A character that is neither a digit nor a sign does not stand in a whole number. -/
theorem notMem_intDigits {c : Char} (hdigit : isAsciiDigit c = false) (hsign : c ≠ '-') (n : Int) :
    c ∉ intDigits n := by
  have hdigits (k : Nat) : c ∉ natDigits k := fun hmem =>
    Bool.false_ne_true (hdigit.symm.trans ((Token.isRow_natDigits k).2 c hmem))
  cases n with
  | ofNat k => exact hdigits k
  | negSucc k => exact List.not_mem_cons_of_ne_of_not_mem hsign (hdigits (k + 1))

theorem intDigits_inj {m n : Int} (h : intDigits m = intDigits n) : m = n := by
  have hsign (j k : Nat) : natDigits j ≠ '-' :: natDigits k := fun heq =>
    absurd ((Token.isRow_natDigits j).2 '-' (heq ▸ .head _)) (by decide)
  cases m with
  | ofNat j =>
      cases n with
      | ofNat k => exact congrArg Int.ofNat (natDigits_inj h)
      | negSucc k => exact absurd h (hsign j (k + 1))
  | negSucc j =>
      cases n with
      | ofNat k => exact absurd h.symm (hsign k (j + 1))
      | negSucc k => exact congrArg Int.negSucc (Nat.succ.inj (natDigits_inj (List.cons.inj h).2))

/-- Texts that are equal, character by character, if `a` and `b` are taken for the same. -/
def Alike (a b : Char) (s t : String) : Prop :=
  List.Forall₂ (fun c d => c = d ∨ c ∈ [a, b] ∧ d ∈ [a, b]) s.toList t.toList

theorem replaceChar_eq_iff {a b : Char} {s t : String} :
    replaceChar a b s = replaceChar a b t ↔ Alike a b s t := by
  have hchar (c d : Char) : (if c = a then b else c) = (if d = a then b else d) ↔
      c = d ∨ c ∈ [a, b] ∧ d ∈ [a, b] := by
    split <;> split <;> grind
  rw [replaceChar, replaceChar, String.ofList_inj, Alike, ← List.forall₂_eq_eq_eq,
    List.forall₂_map_left_iff, List.forall₂_map_right_iff]
  simp only [hchar]

end Text

/-- The number of a rule stands behind the last underscore of its name. -/
theorem afterLast_ruleName (flowId : String) (sequence : Int) :
    Text.afterLast '_' (ruleName flowId sequence).toList = Text.intDigits sequence := by
  rw [ruleName, String.toList_append, String.toList_append,
    String.toList_ofList (l := Text.intDigits sequence)]
  exact Text.afterLast_append (.inr List.getLast?_concat)
    (Text.notMem_intDigits (by decide) (by decide) sequence)

theorem ruleName_eq_iff {f g : String} {m n : Int} :
    ruleName f m = ruleName g n ↔
      m = n ∧ Text.replaceChar '.' '_' f = Text.replaceChar '.' '_' g := by
  constructor
  · intro h
    have hdigits : Text.intDigits m = Text.intDigits n := by
      rw [← afterLast_ruleName f m, h, afterLast_ruleName]
    obtain rfl := Text.intDigits_inj hdigits
    rw [ruleName, ruleName, String.append_left_inj, String.append_left_inj,
      String.append_right_inj] at h
    exact ⟨rfl, h⟩
  · rintro ⟨rfl, h⟩
    rw [ruleName, h, ruleName]

/-! ### Plans -/

namespace Plan

variable {settings : Settings} {flow flowId : Value} {service : Option String} {plan : Plan}

/-- No two drafts of a plan have the same name. -/
theorem nodup_names (hplan : (ofFlow settings flow flowId service).outcome = .ok plan) :
    (plan.drafts.map Draft.name).Nodup := by
  obtain ⟨_, _, _, -, -, -, -, hdrafts⟩ := drafts_along_routes hplan
  refine List.nodup_iff_injective_getElem.2 fun i j h => ?_
  have hi : i.1 < plan.drafts.length := by simpa using i.2
  have hj : j.1 < plan.drafts.length := by simpa using j.2
  obtain ⟨id, way, memory, hid, -, hfirst⟩ := hdrafts i _ (List.getElem?_eq_getElem hi)
  obtain ⟨id', way', memory', hid', -, hsecond⟩ := hdrafts j _ (List.getElem?_eq_getElem hj)
  simp only [List.getElem_map] at h
  rw [hfirst, hsecond] at h
  have hnumber := (ruleName_eq_iff.1 h).1
  exact Fin.ext (by omega)

/-- Two rules have the same name only if they have the same number and the ids of their flows differ
at most in points where the other has underscores. The drafts of a plan, counted along the routes
from all sources, are named after the flow and their number, so their names are all different. -/
theorem names_number_drafts :
    (∀ (f g : String) (m n : Int), ruleName f m = ruleName g n ↔
      m = n ∧ Text.replaceChar '.' '_' f = Text.replaceChar '.' '_' g) ∧
    (∀ f g : String, Text.replaceChar '.' '_' f = Text.replaceChar '.' '_' g ↔
      Text.Alike '.' '_' f g) ∧
    ∀ {settings : Settings} {flow flowId : Value} {service : Option String} {plan : Plan},
      (ofFlow settings flow flowId service).outcome = .ok plan →
        (∃ (descriptors : List Value) (g : Graph) (ways : List (Node × List Turn)),
          flow.entries? = some descriptors ∧ (Graph.ofDescriptors descriptors).outcome = .ok g ∧
          g.ListsRoutes ways ∧ plan.drafts.length = ways.length ∧
          ∀ (k : Nat) (d : Draft), plan.drafts[k]? = some d → ∃ id way memory,
            flowId = .text id ∧ ways[k]? = some way ∧ d.name = ruleName id (k + 1) ∧
              d = { g.draftAlong settings way.1 way.2 {} with name := d.name, memory := memory }) ∧
        (plan.drafts.map Draft.name).Nodup := by
  refine ⟨fun f g m n => ruleName_eq_iff, fun f g => Text.replaceChar_eq_iff, fun hplan => ?_⟩
  refine ⟨?_, nodup_names hplan⟩
  obtain ⟨descriptors, g, ways, hentries, hgraph, hways, hlength, hdrafts⟩ :=
    drafts_along_routes hplan
  refine ⟨descriptors, g, ways, hentries, hgraph, hways, hlength, fun k d hd => ?_⟩
  obtain ⟨id, way, memory, hid, hway, rfl⟩ := hdrafts k d hd
  exact ⟨id, way, memory, hid, hway, rfl, rfl⟩

def recordingFlow : Value :=
  .list [
    .object [("id", .text "s"), ("type", .text "device out"), ("wires", .list [.list [.text "h"]])],
    .object [("id", .text "t"), ("type", .text "device out"), ("_device_id", .text "other"),
      ("wires", .list [.list [.text "h"]])],
    .object [("id", .text "h"), ("type", .text "history")]]

def recordingGraph : Graph where
  nodes := [⟨"s", "device out", "", [["h"]], .source "" ""⟩,
    ⟨"t", "device out", "", [["h"]], .source "other" ""⟩,
    ⟨"h", "history", "", [], .history⟩]
  distinct := by decide
  wired := by decide

def recordingWalk (deviceId : String) : Walk :=
  .pass false [] [.pass true [.listen "" deviceId]
    [.sink ⟨"http://cygnus:5050/notify", .history⟩]]

def recordingDrafts : List Draft :=
  [{ action := some ⟨"http://cygnus:5050/notify", .history⟩
     name := "rule_6a_1_1" },
   { device := { id := "other" }
     action := some ⟨"http://cygnus:5050/notify", .history⟩
     name := "rule_6a_1_2" }]

def recording : Plan where
  flowId := .text "6a.1"
  service := none
  drafts := recordingDrafts
  requests := Request.ofDrafts recordingDrafts

theorem ofFlow_recordingFlow :
    (ofFlow {} recordingFlow (.text "6a.1") none).outcome = .ok recording :=
  ofFlow_eq_ok_iff.2 ⟨_, _, recordingGraph, [recordingWalk "", recordingWalk "other"],
    recordingDrafts, rfl, rfl, rfl, by with_unfolding_all rfl, by with_unfolding_all rfl, rfl⟩

/-- The digits at the end of an id are not taken for a number: the second rule of `6a.1` has the name
of the second rule of `6a_1`, and not that of the twelfth of `6a`. -/
theorem names_number_drafts_recordingFlow :
    (ofFlow {} recordingFlow (.text "6a.1") none).outcome = .ok recording ∧
      recording.drafts.map Draft.name = [ruleName "6a.1" 1, ruleName "6a.1" 2] ∧
      (recording.drafts.map Draft.name).Nodup ∧
      ruleName "6a.1" 2 = ruleName "6a_1" 2 ∧ ruleName "6a.1" 2 ≠ ruleName "6a" 12 := by
  obtain ⟨hnames, -, hplans⟩ := names_number_drafts
  refine ⟨ofFlow_recordingFlow, by decide, (hplans ofFlow_recordingFlow).2, ?_, ?_⟩
  · exact (hnames "6a.1" "6a_1" 2 2).2 ⟨rfl, by decide⟩
  · exact fun h => absurd ((hnames "6a.1" "6a" 2 12).1 h).1 (by decide)

end Plan

end EventFlow
