import Meristem.Proofs.Drawing.Continuity
import Meristem.Proofs.Drawing.Depth
import Meristem.Proofs.Drawing.Edits
import Meristem.Proofs.Exact.Segments

/-!
Young plants do not grow downwards. A segment that is not deep enough to droop is turned up before
its turtle moves, and since it has some length the turtle does not come to stand lower. No other
symbol moves a turtle, so in exact arithmetic nothing of a plant stands below its root unless a deep
segment is drawn. Deep segments are drawn the way the turtle looks, down as well as up.
-/

namespace Meristem

open Command

/-- A direction that points down is turned up, but not at a depth at which segments droop. -/
theorem Turtle.lifted_orientation (t : Turtle ℝ) :
    t.lifted.orientation =
      if t.depth < 7 then ⟨t.orientation.x, |t.orientation.y|, t.orientation.z⟩
      else t.orientation := by
  have hdown : t.orientation.y < 0.0 ↔ t.orientation.y < 0 := by
    rw [Arith.scientific_real]
    norm_num
  simp only [lifted, hdown, droopDepth]
  by_cases hdepth : t.depth < 7
  · by_cases hy : t.orientation.y < 0
    · simp [hdepth, hy, abs_of_neg hy]
    · simp [hdepth, hy, abs_of_nonneg (not_lt.mp hy)]
  · simp [hdepth]

namespace Pen

variable {σ : Type} [DrawSource σ ℝ]

/-- How the segments of a run in exact arithmetic go up and down. -/
structure Upright (pen : Pen ℝ) (symbols : Word) (root : Turtle ℝ) (source : σ)
    (plant : Plant ℝ) : Prop where
  passed : ∀ i < symbols.length, ∃ before after, pen.Passes symbols root source i before after
  depth_eq : ∀ i before after, pen.Passes symbols root source i before after →
    before.current.depth = pen.depthAt root symbols i
  drawn : ∀ i r, pen.Adds .segment symbols root source i r →
    ∃ direction, pen.Draws symbols root source i r direction
  /-- A segment is drawn the way its turtle looks after the wobble, if there is one. At a depth
  below seven a direction that points down is turned up. -/
  aimed : ∀ i r direction before after, pen.Draws symbols root source i r direction →
    pen.Passes symbols root source i before after →
    ∃ t, (if !before.parents.isEmpty || before.begun then jittered before.current
        else .ok before.current) = .ok t ∧
      (7 ≤ pen.depthAt root symbols i → direction = t.orientation) ∧
      (pen.depthAt root symbols i < 7 →
        direction = ⟨t.orientation.x, |t.orientation.y|, t.orientation.z⟩)
  /-- At a depth below seven a segment does not end lower than it starts. -/
  rises : ∀ i r direction before after, pen.Draws symbols root source i r direction →
    pen.Passes symbols root source i before after → pen.depthAt root symbols i < 7 →
    r.position = before.current.position ∧
      after.current.position = r.position + direction.scale r.scale.y ∧
      r.position.y ≤ after.current.position.y
  /-- Without deep segments no turtle and no record gets below the root. -/
  above : (∀ i r, pen.Adds .segment symbols root source i r → pen.depthAt root symbols i < 7) →
    (∀ i w, (pen.walk 0 (symbols.take i) (.start root) source).1 = .ok w →
      ∀ t ∈ w.turtles, root.position.y ≤ t.position.y) ∧
    ∀ o i r, pen.Adds o symbols root source i r → root.position.y ≤ r.position.y
  stored : ∀ o : Organ, pen.StoresPlaces o symbols root source (o.stored plant).translate

variable {pen : Pen ℝ} {symbols : Word} {root : Turtle ℝ} {source rest : σ}
  {commands : List Command}

/-- How the direction of a segment comes from the turtle that draws it. -/
theorem Draws.exists_shaken {i : ℕ} {r : Instance ℝ} {direction : Vec3 ℝ}
    {before after : Walk ℝ} (h : pen.Draws symbols root source i r direction)
    (hpass : pen.Passes symbols root source i before after) :
    ∃ t, (if !before.parents.isEmpty || before.begun then jittered before.current
        else .ok before.current) = .ok t ∧
      direction = if before.current.depth < 7 then
          ⟨t.orientation.x, |t.orientation.y|, t.orientation.z⟩
        else t.orientation := by
  obtain ⟨other, next, u, hsame, haim, -, -, rfl⟩ := h
  obtain ⟨rfl, rfl⟩ := hpass.unique hsame
  obtain ⟨t, ht, rfl⟩ := exists_shaken_of_aimed haim
  obtain ⟨-, -, hdepth⟩ := aimed_eq_ok haim
  refine ⟨t, ht, ?_⟩
  rw [← hdepth, Turtle.shrunk_orientation, Turtle.lifted_orientation]
  simp

/-- A segment that is not deep points up, or level. -/
theorem Draws.up {i : ℕ} {r : Instance ℝ} {direction : Vec3 ℝ} {before after : Walk ℝ}
    (h : pen.Draws symbols root source i r direction)
    (hpass : pen.Passes symbols root source i before after)
    (hyoung : before.current.depth < 7) : 0 ≤ direction.y := by
  obtain ⟨t, -, rfl⟩ := h.exists_shaken hpass
  rw [if_pos hyoung]
  exact abs_nonneg t.orientation.y

section Read

variable (hread : pen.read symbols source = (.ok commands, rest))

include hread

theorem Draws.rises {i : ℕ} {r : Instance ℝ} {direction : Vec3 ℝ} {before after : Walk ℝ}
    (h : pen.Draws symbols root source i r direction)
    (hpass : pen.Passes symbols root source i before after)
    (hyoung : before.current.depth < 7) : r.position.y ≤ after.current.position.y := by
  obtain ⟨-, -, -, hend, -⟩ := h.segment hpass
  have hlong : 0 ≤ direction.y * r.scale.y :=
    mul_nonneg (h.up hpass hyoung) (h.scale_pos hread).le
  rw [hend]
  exact le_add_of_nonneg_right hlong

/-- No symbol takes a turtle lower, unless it draws a deep segment. -/
theorem Passes.places_above {low : ℝ} {i : ℕ} {before after : Walk ℝ}
    (hpass : pen.Passes symbols root source i before after)
    (hyoung : ∀ r, pen.Adds .segment symbols root source i r → before.current.depth < 7)
    (habove : ∀ place ∈ before.places, low ≤ place.y) :
    ∀ place ∈ after.places, low ≤ place.y := by
  rcases hpass.draws_or_kept hread with ⟨r, direction, hdraws⟩ | hkept
  · obtain ⟨hstart, -, -, -, hparents, -⟩ := hdraws.segment hpass
    have hrise := hdraws.rises hread hpass (hyoung r hdraws.adds)
    rw [hstart] at hrise
    intro place hplace
    rcases List.mem_cons.mp hplace with rfl | hwaiting
    · exact (habove _ List.mem_cons_self).trans hrise
    · rw [hparents] at hwaiting
      exact habove place (List.mem_cons_of_mem _ hwaiting)
  · obtain ⟨c, hc⟩ := hpass.exists_command hread
    have hobey := hpass.obey hread hc
    intro place hplace
    apply habove
    cases c with
    | enter =>
        rw [places_of_enter hobey] at hplace
        rcases List.mem_cons.mp hplace with rfl | hplace
        · exact List.mem_cons_self
        · exact hplace
    | leave =>
        rw [places_of_leave hobey]
        exact List.mem_cons_of_mem _ hplace
    | stroke s =>
        rw [places_of_stroke hobey hkept] at hplace
        exact hplace

/-- The induction is over the symbols; those behind the end of the word add nothing. -/
theorem places_above_root
    (hyoung : ∀ i r, pen.Adds .segment symbols root source i r → pen.depthAt root symbols i < 7)
    {i : ℕ} {w : Walk ℝ} (h : pen.stateAt root commands i = .ok w) :
    ∀ place ∈ w.places, root.position.y ≤ place.y := by
  induction i generalizing w with
  | zero =>
      obtain rfl : Walk.start root = w := by simpa using h
      intro place hplace
      obtain rfl : place = root.position := by simpa [Walk.places, Walk.start] using hplace
      exact le_refl _
  | succ i ih =>
      by_cases hi : i < commands.length
      · have hc : commands[i]? = some commands[i] := List.getElem?_eq_getElem hi
        obtain ⟨before, hbefore, hobey⟩ := (pen.stateAt_succ_eq_ok_iff root commands hc w).mp h
        have hpass := passes_of_obey hread hc hbefore hobey
        apply hpass.places_above hread ?_ (ih hbefore)
        intro r hr
        rw [hpass.depth_eq hread]
        exact hyoung i r hr
      · apply ih
        rw [stateAt, List.take_of_length_le (by omega)] at h ⊢
        exact h

end Read

/-- In exact arithmetic a plant grows no segment downwards but those that are deep. -/
theorem upright_of_draw {plant : Plant ℝ}
    (h : pen.draw symbols root source = (.ok plant, rest)) :
    pen.Upright symbols root source plant := by
  obtain ⟨commands, final, hread, hfollow, -, rfl⟩ := (pen.draw_eq_ok_iff _ _ _ _ _).mp h
  exact {
    passed := fun i hi => exists_passes hread hfollow hi
    depth_eq := fun i before after hpass => hpass.depth_eq hread
    drawn := fun i r hadds => hadds.draws hread
    aimed := by
      intro i r direction before after hdraws hpass
      obtain ⟨t, ht, hdirection⟩ := hdraws.exists_shaken hpass
      rw [hpass.depth_eq hread] at hdirection
      refine ⟨t, ht, ?_, ?_⟩
      · intro hdeep
        rw [hdirection, if_neg (not_lt.mpr hdeep)]
      · intro hyoung
        rw [hdirection, if_pos hyoung]
    rises := by
      intro i r direction before after hdraws hpass hyoung
      obtain ⟨hstart, -, -, hend, -⟩ := hdraws.segment hpass
      rw [← hpass.depth_eq hread] at hyoung
      exact ⟨hstart, hend, hdraws.rises hread hpass hyoung⟩
    above := by
      intro hyoung
      constructor
      · intro i w hw t ht
        apply places_above_root hread hyoung ((walk_take_eq_ok_iff hread i w).mp hw)
        exact List.mem_map_of_mem ht
      · intro o i r hr
        obtain ⟨before, after, hpass, -⟩ := id hr
        rw [hr.position_eq hread hpass]
        exact places_above_root hread hyoung (hpass.states hread).1 _ List.mem_cons_self
    stored := by
      intro o
      cases o with
      | segment => exact storesPlaces hread hfollow .segment
      | leaf => exact storesPlaces hread hfollow .leaf }

end Pen

/-- A stalk that hangs straight down. -/
noncomputable def Turtle.hanging (depth : ℤ) : Turtle ℝ :=
  { Turtle.stalk with orientation := ⟨0, -1, 0⟩, depth := depth }

namespace Pen

/-- The first segment is drawn without a wobble. -/
theorem exists_draws_hanging (depth : ℤ) :
    ∃ (plant : Plant ℝ) (rest : ℕ → ℝ) (r : Instance ℝ) (direction : Vec3 ℝ)
      (before after : Walk ℝ),
      sprig.draw ['F'] (.hanging depth) (fun _ : ℕ => (0 : ℝ)) = (.ok plant, rest) ∧
      sprig.Draws ['F'] (.hanging depth) (fun _ : ℕ => (0 : ℝ)) 0 r direction ∧
      sprig.Passes ['F'] (.hanging depth) (fun _ : ℕ => (0 : ℝ)) 0 before after ∧
      before = .start (.hanging depth) := by
  have hunit : (Turtle.hanging depth).orientation.IsUnit := by
    simp [Turtle.hanging, Vec3.IsUnit, Vec3.dot]
  obtain ⟨plant, rest, hplant⟩ : ∃ plant rest,
      sprig.draw ['F'] (.hanging depth) (fun _ : ℕ => (0 : ℝ)) = (.ok plant, rest) := by
    apply sprig.exists_draw sprig_ready rfl rfl (by decide)
    exact hunit
  obtain ⟨commands, final, hread, -⟩ := (sprig.draw_eq_ok_iff _ _ _ _ _).mp hplant
  have hlong : ((0 : ℕ) : ℕ∞) < reach (Turtle.hanging depth).scale.y :=
    stalk_reach (Nat.zero_le 1)
  obtain ⟨r, hr⟩ := sprig_adds_first hlong hplant
  obtain ⟨direction, hdraws⟩ := hr.draws hread
  obtain ⟨before, after, hpass, -⟩ := hr
  have hstart : Walk.start (.hanging depth) = before := Except.ok.inj hpass.comes
  exact ⟨plant, rest, r, direction, before, after, hplant, hdraws, hpass, hstart.symm⟩

/-- Two stalks that hang down: the young one draws its segment up and the old one down. -/
theorem upright_hanging :
    (∃ (plant : Plant ℝ) (rest : ℕ → ℝ) (r : Instance ℝ) (direction : Vec3 ℝ),
      sprig.draw ['F'] (.hanging 6) (fun _ : ℕ => (0 : ℝ)) = (.ok plant, rest) ∧
      sprig.Upright ['F'] (.hanging 6) (fun _ : ℕ => (0 : ℝ)) plant ∧
      sprig.Draws ['F'] (.hanging 6) (fun _ : ℕ => (0 : ℝ)) 0 r direction ∧
      direction = ⟨0, 1, 0⟩) ∧
    ∃ (plant : Plant ℝ) (rest : ℕ → ℝ) (r : Instance ℝ) (direction : Vec3 ℝ),
      sprig.draw ['F'] (.hanging 7) (fun _ : ℕ => (0 : ℝ)) = (.ok plant, rest) ∧
      sprig.Upright ['F'] (.hanging 7) (fun _ : ℕ => (0 : ℝ)) plant ∧
      sprig.Draws ['F'] (.hanging 7) (fun _ : ℕ => (0 : ℝ)) 0 r direction ∧
      direction = ⟨0, -1, 0⟩ := by
  have hdepth (depth : ℤ) : sprig.depthAt (.hanging depth) ['F'] 0 = depth := by
    simp [depthAt, Turtle.hanging]
  constructor
  · obtain ⟨plant, rest, r, direction, before, after, hplant, hdraws, hpass, rfl⟩ :=
      exists_draws_hanging 6
    have hupright := upright_of_draw hplant
    obtain ⟨t, ht, -, hup⟩ := hupright.aimed 0 r direction _ after hdraws hpass
    obtain rfl : Turtle.hanging 6 = t := Except.ok.inj ht
    have hdirection := hup (by rw [hdepth]; norm_num)
    exact ⟨plant, rest, r, direction, hplant, hupright, hdraws, by
      simpa [Turtle.hanging] using hdirection⟩
  · obtain ⟨plant, rest, r, direction, before, after, hplant, hdraws, hpass, rfl⟩ :=
      exists_draws_hanging 7
    have hupright := upright_of_draw hplant
    obtain ⟨t, ht, hdown, -⟩ := hupright.aimed 0 r direction _ after hdraws hpass
    obtain rfl : Turtle.hanging 7 = t := Except.ok.inj ht
    exact ⟨plant, rest, r, direction, hplant, hupright, hdraws, hdown (by rw [hdepth])⟩

end Pen
end Meristem
