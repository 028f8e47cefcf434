import Meristem.Proofs.Drawing.Pruning
import Meristem.Proofs.Exact.Steady
import Meristem.Proofs.Scene

/-!
The drawn segments in exact arithmetic. A segment is computed three times over: the turtle walks
along it, its record keeps a quaternion and a length, and a viewer is sent an arrow that is made from
the record alone. From a root whose direction has length one all three agree, but for directions so
near to straight down that the quaternion cannot tell them from it: these are off by less than the
length below which a vector has no direction.
-/

namespace Meristem

/-- How far and in which direction the arrow of a record goes. -/
noncomputable def Instance.arrow (r : Instance ℝ) : Vec3 ℝ :=
  (r.rotation.apply Vec3.up).scale r.scale.y

namespace InstanceBuffer

theorem sentArrow_row {r : Instance ℝ} (hunit : r.rotation.IsUnit) :
    sentArrow r.row = r.arrow := by
  have hrow (c : Column) : sentRow r.row c = r.row c := rfl
  have hrotation : r.row .rotate = r.rotation := rfl
  simp only [sentArrow, sentDirection, hrow, hrotation, hunit.norm_eq, Vec4.divide_one]
  rfl

/-- The arrows of records with quaternions of length one are made from the quaternions as they
are, and can be made unless there are too many. -/
theorem arrows_ofList_iff {records : List (Instance ℝ)}
    (hunit : ∀ r ∈ records, r.rotation.IsUnit) (arrows : Arrows ℝ) :
    (∃ rows, (ofList records).rowsOf = .ok rows ∧ rows.arrows = .ok arrows) ↔
      fitsSigned records.length = true ∧
        arrows = ⟨records.map (·.position), records.map (·.arrow)⟩ := by
  have hturns : ∀ r ∈ records.map Instance.row, (0.0 : ℝ) < (sentRow r .rotate).norm := by
    intro row hrow
    obtain ⟨r, hr, rfl⟩ := List.mem_map.mp hrow
    have hnorm : (sentRow r.row .rotate).norm = 1 := (hunit r hr).norm_eq
    rw [hnorm]
    norm_num
  have hmade : (sentRows (records.map Instance.row)).arrows =
      .ok ⟨records.map (·.position), records.map (·.arrow)⟩ := by
    rw [arrows_sentRows, List.map_map, List.map_map]
    congr 2
    exact List.map_congr_left fun r hr => sentArrow_row (hunit r hr)
  rw [(holds_ofList records).rowsOf, if_pos hturns, List.length_map]
  cases fitsSigned records.length with
  | false => simp
  | true => simp [hmade, eq_comm]

end InstanceBuffer

namespace Pen

variable {σ : Type} [DrawSource σ ℝ]

/-- How the segments of a run in exact arithmetic lie. -/
structure Segments (pen : Pen ℝ) (symbols : Word) (root : Turtle ℝ) (source : σ)
    (plant : Plant ℝ) : Prop where
  passed : ∀ i < symbols.length, ∃ before after, pen.Passes symbols root source i before after
  made : ∀ i before after, pen.Passes symbols root source i before after →
    ∀ t ∈ after.turtles, ∃ s ∈ before.turtles, s.Edits t
  /-- The turtles of a state have directions of length one, and so has all that is made of them,
  after each single change. -/
  directed : ∀ i before after, pen.Passes symbols root source i before after →
    ∀ s ∈ before.turtles, ∀ t, s.Edits t → t.orientation.norm = 1
  /-- The quaternion of a record turns the way up onto the direction of the segment. -/
  turned : ∀ i r direction, pen.Draws symbols root source i r direction →
    r.rotation.norm = 1 ∧ (r.rotation.apply Vec3.up - direction).norm < 1 / 10 ^ 9 ∧
      (1 / 10 ^ 9 ≤ (Vec3.up + direction).norm → r.rotation.apply Vec3.up = direction)
  /-- A segment is as long as its record says. -/
  walked : ∀ i r direction before after, pen.Draws symbols root source i r direction →
    pen.Passes symbols root source i before after →
    after.current.orientation = direction ∧
      (after.current.position - before.current.position).norm = r.scale.y
  /-- The arrow of a record ends where the turtle stands after the segment. -/
  reached : ∀ i r direction before after, pen.Draws symbols root source i r direction →
    pen.Passes symbols root source i before after →
    (r.position + r.arrow - after.current.position).norm < 1 / 10 ^ 9 * r.scale.y
  /-- One arrow is sent for every segment, in their order, from where its record stands. -/
  sent : ∃ marks : List (ℕ × Instance ℝ),
    marks.Pairwise (fun first second => first.1 < second.1) ∧
    (∀ i r, (i, r) ∈ marks ↔ ∃ direction, pen.Draws symbols root source i r direction) ∧
    ∀ arrows, (∃ rows, plant.branches.rowsOf = .ok rows ∧ rows.arrows = .ok arrows) ↔
      fitsSigned marks.length = true ∧
        arrows = ⟨marks.map (·.2.position), marks.map (·.2.arrow)⟩

variable {pen : Pen ℝ} {symbols : Word} {root : Turtle ℝ} {source rest : σ}
  {commands : List Command}

theorem Draws.exists_aimed {i : Nat} {r : Instance ℝ} {direction : Vec3 ℝ}
    {before after : Walk ℝ} (h : pen.Draws symbols root source i r direction)
    (hpass : pen.Passes symbols root source i before after) :
    ∃ t, before.current.Edits t ∧ direction = t.orientation ∧ after.current = t.move := by
  obtain ⟨other, next, t, hsame, haim, -, rfl, rfl⟩ := h
  obtain ⟨rfl, rfl⟩ := hpass.unique hsame
  exact ⟨t, Turtle.edits_of_aimed haim, rfl, rfl⟩

/-- A segment is drawn by a turtle that can be seen, and has some length. -/
theorem Draws.scale_pos (hread : pen.read symbols source = (.ok commands, rest)) {i : Nat}
    {r : Instance ℝ} {direction : Vec3 ℝ}
    (h : pen.Draws symbols root source i r direction) : 0 < r.scale.y := by
  obtain ⟨before, after, hpass, -⟩ := h.adds
  obtain ⟨-, -, hscale, -⟩ := h.segment hpass
  have hobey := hpass.obey hread (h.adds.command_eq hread)
  rcases obey_branch_eq_ok hobey with ⟨-, rfl⟩ | ⟨hvisible, -⟩
  · exact absurd h.adds (hpass.not_adds_of_kept rfl r)
  · have hlong : ¬ before.current.scale.y < 1 / 10 ^ 2 := by
      simpa [Turtle.isVisible, Turtle.minVisibleScale] using hvisible
    rw [hscale]
    simp only [Vec3.scale, Arith.scientific_real]
    norm_num at hlong ⊢
    linarith

section Directions

variable (hread : pen.read symbols source = (.ok commands, rest))
  (hroot : root.orientation.IsUnit)

include hread hroot

theorem Passes.isUnit {i : Nat} {before after : Walk ℝ}
    (h : pen.Passes symbols root source i before after) :
    ∀ t ∈ before.turtles, t.orientation.IsUnit := by
  intro t ht
  exact (h.edits_root hread t ht).isUnit hroot

theorem Draws.isUnit {i : Nat} {r : Instance ℝ} {direction : Vec3 ℝ}
    (h : pen.Draws symbols root source i r direction) : direction.IsUnit := by
  obtain ⟨before, after, hpass, -⟩ := h.adds
  obtain ⟨t, hedits, rfl, -⟩ := h.exists_aimed hpass
  exact hedits.isUnit (hpass.isUnit hread hroot _ List.mem_cons_self)

/-- The quaternion of a segment is the shortest arc to its direction. -/
theorem Draws.rotation {i : Nat} {r : Instance ℝ} {direction : Vec3 ℝ}
    (h : pen.Draws symbols root source i r direction) :
    r.rotation.IsUnit ∧ (r.rotation.apply Vec3.up - direction).norm < 1 / 10 ^ 9 ∧
      (1 / 10 ^ 9 ≤ (Vec3.up + direction).norm → r.rotation.apply Vec3.up = direction) := by
  obtain ⟨before, after, hpass, -⟩ := h.adds
  obtain ⟨-, harc, -⟩ := h.segment hpass
  obtain ⟨q, hq, hunit, hends⟩ :=
    Quat.exists_between? Vec3.isUnit_up (h.isUnit hread hroot)
  obtain rfl : q = r.rotation := Option.some.inj (hq.symm.trans harc)
  refine ⟨hunit, ?_, ?_⟩
  · rcases hends with ⟨-, hsame⟩ | ⟨hnear, hopposite⟩
    · rw [hsame, Vec3.sub_self_norm]
      norm_num
    · rw [hopposite, Vec3.opposite_sub_norm]
      exact hnear
  · intro hfar
    rcases hends with ⟨-, hsame⟩ | ⟨hnear, -⟩
    · exact hsame
    · exact absurd hnear (not_lt.mpr hfar)

end Directions

/-- In exact arithmetic the three ways in which a drawn segment is computed agree. -/
theorem segments_of_draw {plant : Plant ℝ} (hroot : root.orientation.norm = 1)
    (h : pen.draw symbols root source = (.ok plant, rest)) :
    pen.Segments symbols root source plant := by
  obtain ⟨commands, final, hread, hfollow, -, rfl⟩ := (pen.draw_eq_ok_iff _ _ _ _ _).mp h
  have hunit : root.orientation.IsUnit := Vec3.isUnit_iff_norm.mpr hroot
  exact {
    passed := fun i hi => exists_passes hread hfollow hi
    made := fun i before after hpass => hpass.edits hread
    directed := by
      intro i before after hpass s hs t hedits
      have hs' : s.orientation.IsUnit := hpass.isUnit hread hunit s hs
      exact Vec3.isUnit_iff_norm.mp (hedits.isUnit hs')
    turned := by
      intro i r direction hdraws
      obtain ⟨hrotation, hnear, hsame⟩ := hdraws.rotation hread hunit
      exact ⟨hrotation.norm_eq, hnear, hsame⟩
    walked := by
      intro i r direction before after hdraws hpass
      obtain ⟨t, -, rfl, hafter⟩ := hdraws.exists_aimed hpass
      obtain ⟨hplace, -, -, hend, -⟩ := hdraws.segment hpass
      have hlength := Vec3.isUnit_iff_norm.mp (hdraws.isUnit hread hunit)
      refine ⟨by rw [hafter, Turtle.move_orientation], ?_⟩
      rw [hend, hplace, Vec3.add_sub_self, Vec3.norm_scale, hlength, mul_one,
        abs_of_pos (hdraws.scale_pos hread)]
    reached := by
      intro i r direction before after hdraws hpass
      have hpos := hdraws.scale_pos hread
      obtain ⟨-, hnear, -⟩ := hdraws.rotation hread hunit
      obtain ⟨-, -, -, hend, -⟩ := hdraws.segment hpass
      rw [hend, Instance.arrow, Vec3.end_sub_end, Vec3.norm_scale, abs_of_pos hpos, mul_comm]
      exact mul_lt_mul_of_pos_right hnear hpos
    sent := by
      obtain ⟨marks, hmarks, hsorted, hmem⟩ := exists_marks hread hfollow .segment
      have hdrawn (i : Nat) (r : Instance ℝ) : (i, r) ∈ marks ↔
          ∃ direction, pen.Draws symbols root source i r direction := by
        rw [hmem]
        constructor
        · intro hadds
          exact hadds.draws hread
        · rintro ⟨direction, hdraws⟩
          exact hdraws.adds
      refine ⟨marks, hsorted, hdrawn, ?_⟩
      intro arrows
      have hrotations : ∀ r ∈ marks.map (·.2), r.rotation.IsUnit := by
        intro r hr
        obtain ⟨⟨i, s⟩, hmark, rfl⟩ := List.mem_map.mp hr
        obtain ⟨direction, hdraws⟩ := (hdrawn i s).mp hmark
        exact (hdraws.rotation hread hunit).1
      have hbranches : final.branches = .ofList (marks.map (·.2)) := hmarks
      rw [hbranches, InstanceBuffer.arrows_ofList_iff hrotations, List.length_map,
        List.map_map, List.map_map]
      rfl }

/-- The segments of a sprig with a side branch that is turned away. -/
theorem segments_sprig :
    ∃ (plant : Plant ℝ) (rest : ℕ → ℝ) (r : Instance ℝ) (direction : Vec3 ℝ),
      sprig.draw ['F', '[', '+', 'F', ']', 'F'] .stalk (fun _ : ℕ => (0 : ℝ)) =
        (.ok plant, rest) ∧
      sprig.Draws ['F', '[', '+', 'F', ']', 'F'] .stalk (fun _ : ℕ => (0 : ℝ)) 0 r direction ∧
      sprig.Segments ['F', '[', '+', 'F', ']', 'F'] .stalk (fun _ : ℕ => (0 : ℝ)) plant := by
  have hword : Balanced Symbol.bracket ['F', '[', '+', 'F', ']', 'F'] := by decide
  obtain ⟨plant, rest, hplant⟩ : ∃ plant rest,
      sprig.draw ['F', '[', '+', 'F', ']', 'F'] .stalk (fun _ : ℕ => (0 : ℝ)) =
        (.ok plant, rest) := by
    apply sprig.exists_draw sprig_ready rfl rfl hword
    exact Vec3.isUnit_up
  have hroot : Turtle.stalk.orientation.norm = 1 := Vec3.isUnit_iff_norm.mp Vec3.isUnit_up
  obtain ⟨commands, final, hread, -⟩ := (sprig.draw_eq_ok_iff _ _ _ _ _).mp hplant
  obtain ⟨j, hj, r, hr⟩ := sprig_sprouts hplant
  obtain rfl : j = 0 := by omega
  obtain ⟨direction, hdraws⟩ := hr.draws hread
  exact ⟨plant, rest, r, direction, hplant, hdraws, segments_of_draw hroot hplant⟩

end Pen
end Meristem
