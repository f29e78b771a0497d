import EventFlow.Proofs.Live
import EventFlow.Proofs.Numerals

/-!
Reading the outline of an area.

An outline is written vertex by vertex with a semicolon behind each, and ends with its first vertex
again. As nothing stands behind the last one, the semicolons separate the vertices
(`Polygon.toList_coords`), and cutting at them and then at the commas finds the coordinates as they
are shown. Only a coordinate that is given as text can get in the way, by having a separator in it:
numbers have none (`Coordinate.isPlain_number`).
-/

namespace EventFlow

/-- Terminators and a last piece without one come to separators. -/
theorem Text.join_terminated (sep last : List Char) (pieces : List (List Char)) :
    join [] (pieces.map (· ++ sep)) ++ last = join sep (pieces ++ [last]) := by
  induction pieces with
  | nil => rfl
  | cons piece pieces ih =>
      have hempty : join [] ((piece ++ sep) :: pieces.map (· ++ sep)) =
          piece ++ sep ++ join [] (pieces.map (· ++ sep)) := by
        cases pieces with
        | nil => simp [join]
        | cons => simp [join_cons]
      rw [List.map_cons, hempty, List.append_assoc, ih, List.cons_append, join_cons _ _ (by simp)]

namespace Coordinate

/-- A coordinate that can be shown, and has no separator in it then. -/
structure IsPlain (c : Coordinate) : Prop where
  writable : c.isWritable = true
  comma : ',' ∉ c.display.toList
  semicolon : ';' ∉ c.display.toList

/-- No separator stands in a number. -/
theorem isPlain_number {n : Number} (h : n.isWritable = true) : (number n).IsPlain := by
  have hchars : (number n).display.toList = n.write Value.displaySpelling.words :=
    String.toList_ofList
  refine ⟨h, ?_, ?_⟩
  · rw [hchars]
    exact n.notMem_write (by decide) (by decide)
  · rw [hchars]
    exact n.notMem_write (by decide) (by decide)

end Coordinate

namespace Vertex

def shown (v : Vertex) : List String :=
  [v.latitude.display, v.longitude.display]

structure IsPlain (v : Vertex) : Prop where
  latitude : v.latitude.IsPlain
  longitude : v.longitude.IsPlain

variable {v : Vertex}

theorem toList_pair (v : Vertex) :
    v.pair.toList = v.latitude.display.toList ++ ',' :: v.longitude.display.toList := by
  simp [pair]

theorem IsPlain.isWritable (h : v.IsPlain) : v.isWritable = true :=
  Bool.and_eq_true_iff.2 ⟨h.latitude.writable, h.longitude.writable⟩

theorem IsPlain.semicolon_notMem (h : v.IsPlain) : ';' ∉ v.pair.toList := by
  rw [toList_pair]
  simp [h.latitude.semicolon, h.longitude.semicolon]

/-- The comma of a vertex is where its coordinates are cut. -/
theorem IsPlain.split_pair (h : v.IsPlain) :
    (Text.split ',' v.pair.toList).map String.ofList = v.shown := by
  rw [toList_pair, Text.split_append h.latitude.comma, Text.split_of_notMem h.longitude.comma]
  simp [shown]

end Vertex

namespace Polygon

/-- The vertices that coordinates list: what stands between the semicolons, cut at the commas. -/
def decode (coords : String) : List (List String) :=
  (Text.split ';' coords.toList).map fun piece => (Text.split ',' piece).map String.ofList

variable {first : Vertex} {rest : List Vertex}

theorem toList_coords (first : Vertex) (rest : List Vertex) :
    (coords first rest).toList =
      Text.join [';'] ((first :: rest ++ [first]).map fun v => v.pair.toList) := by
  have hterminated : ((first :: rest).map fun v => v.pair ++ ";").map String.toList =
      ((first :: rest).map fun v => v.pair.toList).map (· ++ [';']) := by
    simp [Function.comp_def]
  rw [coords, String.toList_append, Text.joinWith, String.toList_ofList, hterminated,
    List.map_append]
  exact Text.join_terminated [';'] first.pair.toList _

/-- Cutting at the semicolons gives the vertices, the first one also at the end. -/
theorem split_coords (h : ∀ v ∈ first :: rest, v.IsPlain) :
    Text.split ';' (coords first rest).toList =
      (first :: rest ++ [first]).map fun v => v.pair.toList := by
  have hall : ∀ v ∈ first :: rest ++ [first], v.IsPlain :=
    List.forall_mem_append.2 ⟨h, List.forall_mem_singleton.2 (h first List.mem_cons_self)⟩
  rw [toList_coords]
  refine Text.split_join (by simp) (List.forall_mem_map.2 fun v hv => ?_)
  exact (hall v hv).semicolon_notMem

theorem decode_coords (h : ∀ v ∈ first :: rest, v.IsPlain) :
    decode (coords first rest) = (first :: rest).map Vertex.shown ++ [first.shown] := by
  have hshown : ∀ v ∈ first :: rest,
      (Text.split ',' v.pair.toList).map String.ofList = v.shown := fun v hv => (h v hv).split_pair
  rw [decode, split_coords h, List.map_map, List.map_append]
  exact congrArg₂ (· ++ ·) (List.map_congr_left hshown)
    (congrArg ([·]) (hshown first List.mem_cons_self))

theorem coords?_of_isPlain (h : ∀ v ∈ first :: rest, v.IsPlain) :
    coords? (first :: rest) = .ok (coords first rest) :=
  if_pos (List.all_eq_true.2 fun v hv => (h v hv).isWritable)

theorem exists_of_coords? {points : List Vertex} {text : String} (h : coords? points = .ok text) :
    ∃ first rest, points = first :: rest ∧ text = coords first rest := by
  cases points with
  | nil => cases h
  | cons first rest =>
      rw [coords?] at h
      split at h
      · cases h
        exact ⟨first, rest, rfl, rfl⟩
      · cases h

/-- Lists of plain vertices that have the same coordinates have the same vertices, as shown. -/
theorem map_shown_eq_of_coords_eq {first' : Vertex} {rest' : List Vertex}
    (h : ∀ v ∈ first :: rest, v.IsPlain) (h' : ∀ v ∈ first' :: rest', v.IsPlain)
    (heq : coords first rest = coords first' rest') :
    (first :: rest).map Vertex.shown = (first' :: rest').map Vertex.shown := by
  have hdecode : (first :: rest).map Vertex.shown ++ [first.shown] =
      (first' :: rest').map Vertex.shown ++ [first'.shown] := by
    rw [← decode_coords h, heq, decode_coords h']
  exact (List.append_inj' hdecode rfl).1

/-- The coordinates of a line of plain vertices, which are those of the condition that it makes, list
the vertices as they are shown, and then the first one again; no piece is empty, so there is none
behind the last vertex. Lines that are shown differently never have the same coordinates. -/
theorem decodes_to_closed_outline (first : Vertex) (rest : List Vertex)
    (h : ∀ v ∈ first :: rest, v.IsPlain) :
    ∃ text, coords? (first :: rest) = .ok text ∧
      decode text = (first :: rest).map Vertex.shown ++ [first.shown] ∧
      (∀ piece ∈ Text.split ';' text.toList, piece ≠ []) ∧
      (∀ relation, Condition.ofArea relation (.line ((first :: rest).map .vertex))
        (some Condition.polylineMode) = .ok (.ok (.spatial relation text))) ∧
      ∀ points : List Vertex, (∀ v ∈ points, v.IsPlain) →
        points.map Vertex.shown ≠ (first :: rest).map Vertex.shown → coords? points ≠ .ok text := by
  refine ⟨coords first rest, coords?_of_isPlain h, decode_coords h, ?_, fun relation => ?_, ?_⟩
  · rw [split_coords h]
    refine List.forall_mem_map.2 fun v _ => ?_
    rw [Vertex.toList_pair]
    simp
  · obtain ⟨answer, hanswer, hanswers⟩ :=
      (Exit.delivers_area relation (some (first :: rest)) (some Condition.polylineMode)).exists_ok
        fun v hv => (h v hv).isWritable
    obtain rfl : answer = .ok (.spatial relation (coords first rest)) := hanswers
    exact hanswer
  · intro points hpoints hne hcoords
    obtain ⟨first', rest', rfl, heq⟩ := exists_of_coords? hcoords
    exact hne (map_shown_eq_of_coords_eq hpoints h heq.symm)

def corner : Vertex :=
  ⟨.number (.float (.finite false 6755399441055744 (-52))), .number (.int (-2))⟩

def landmark : Vertex :=
  ⟨.text "north", .text ""⟩

theorem isPlain_of_mem_landmarks : ∀ v ∈ [corner, landmark], v.IsPlain :=
  List.forall_mem_cons.2 ⟨⟨Coordinate.isPlain_number rfl, Coordinate.isPlain_number (by decide +kernel)⟩,
    List.forall_mem_singleton.2 ⟨⟨rfl, by decide, by decide⟩, ⟨rfl, by decide, by decide⟩⟩⟩

theorem decode_landmarks :
    (∀ v ∈ [corner, landmark], v.IsPlain) ∧
      [corner, landmark].map Vertex.shown = [["1.5", "-2"], ["north", ""]] ∧
      ∃ text, coords? [corner, landmark] = .ok text ∧
        decode text = [["1.5", "-2"], ["north", ""], ["1.5", "-2"]] := by
  have hshown : [corner, landmark].map Vertex.shown = [["1.5", "-2"], ["north", ""]] := by
    decide +kernel
  obtain ⟨text, htext, hdecode, -⟩ :=
    decodes_to_closed_outline corner [landmark] isPlain_of_mem_landmarks
  refine ⟨isPlain_of_mem_landmarks, hshown, text, htext, ?_⟩
  rw [hdecode, hshown]
  decide +kernel

end Polygon

end EventFlow
