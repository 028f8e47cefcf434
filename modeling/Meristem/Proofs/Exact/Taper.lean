import Meristem.Proofs.Drawing.Pruning
import Meristem.Proofs.Drawing.Taper

/-!
How large a segment is in exact arithmetic. Where nothing is rounded the order of the factors does
not matter, and the scale of a segment is a power of each of them: one factor for every segment on
the way to it, itself included, and one in width and depth for every side branch that was left
behind on the way.
-/

namespace Meristem

open Command

/-- The order in which a scale was made smaller does not show in it. -/
theorem Vec3.tapered_real (v : Vec3 ℝ) (tapers : List Taper) :
    v.tapered tapers =
      ⟨v.x * (96 / 100) ^ tapers.count .segment * (75 / 100) ^ tapers.count .group,
        v.y * (96 / 100) ^ tapers.count .segment,
        v.z * (96 / 100) ^ tapers.count .segment * (75 / 100) ^ tapers.count .group⟩ := by
  induction tapers using List.reverseRecOn with
  | nil => simp [tapered]
  | append_singleton tapers x ih =>
      cases x with
      | segment =>
          have hmore : (tapers ++ [Taper.segment]).count Taper.segment =
              tapers.count .segment + 1 := by simp
          have hsame : (tapers ++ [Taper.segment]).count Taper.group =
              tapers.count .group := by simp
          rw [tapered_segment, ih, hmore, hsame]
          ext <;> simp only [scale, Arith.scientific_real] <;> push_cast <;> ring
      | group =>
          have hmore : (tapers ++ [Taper.group]).count Taper.group =
              tapers.count .group + 1 := by simp
          have hsame : (tapers ++ [Taper.group]).count Taper.segment =
              tapers.count .segment := by simp
          rw [tapered_group, ih, hmore, hsame]
          ext <;> simp only [Arith.scientific_real] <;> push_cast <;> ring

namespace Pen

variable {σ : Type} [DrawSource σ ℝ] {pen : Pen ℝ} {symbols : Word} {root : Turtle ℝ}
  {source rest : σ} {commands : List Command} {plant : Plant ℝ}

theorem Tapered.row_eq (h : pen.Tapered symbols root source commands plant) {i : ℕ}
    {r : Instance ℝ} (hr : pen.Adds .segment symbols root source i r) :
    r.row .scale =
      ⟨root.scale.x * (96 / 100) ^ pen.tally symbols root source commands i .segment *
          (75 / 100) ^ pen.tally symbols root source commands i .group,
        root.scale.y * (96 / 100) ^ pen.tally symbols root source commands i .segment,
        root.scale.z * (96 / 100) ^ pen.tally symbols root source commands i .segment *
          (75 / 100) ^ pen.tally symbols root source commands i .group,
        1⟩ := by
  obtain ⟨marks, hsorted, hmem, hscale⟩ := h.scaled i r hr
  have hrow : r.row .scale = ⟨r.scale.x, r.scale.y, r.scale.z, 1.0⟩ := rfl
  rw [hrow, hscale, Vec3.tapered_real, count_tapers hsorted hmem, count_tapers hsorted hmem,
    Arith.scientific_real]
  norm_num

/-- The scales of the segments of every plant that is drawn follow from the root's scale and the
way to each segment, factor by factor in any arithmetic and as powers in exact arithmetic. The root
is as it was: what is drawn from it afterwards, by any pen, is as large as if nothing had been drawn
before. -/
theorem scales_of_draw :
    (∀ {α σ : Type} [Scalar α] [DrawSource σ α] (pen : Pen α) (symbols : Word) (root : Turtle α)
      (source rest : σ) (plant : Plant α), pen.draw symbols root source = (.ok plant, rest) →
      ∃ commands, pen.read symbols source = (.ok commands, rest) ∧
        pen.Tapered symbols root source commands plant ∧
        ∀ (τ : Type) [DrawSource τ α] (other : Pen α) (word : Word) (draws left : τ)
          (next : Plant α), other.draw word root draws = (.ok next, left) →
          ∃ others, other.read word draws = (.ok others, left) ∧
            other.Tapered word root draws others next) ∧
    ∀ {σ : Type} [DrawSource σ ℝ] (pen : Pen ℝ) (symbols : Word) (root : Turtle ℝ)
      (source rest : σ) (plant : Plant ℝ), pen.draw symbols root source = (.ok plant, rest) →
      ∃ commands, pen.read symbols source = (.ok commands, rest) ∧
        ∀ i r, pen.Adds .segment symbols root source i r →
          r.row .scale =
            ⟨root.scale.x * (96 / 100) ^ pen.tally symbols root source commands i .segment *
                (75 / 100) ^ pen.tally symbols root source commands i .group,
              root.scale.y * (96 / 100) ^ pen.tally symbols root source commands i .segment,
              root.scale.z * (96 / 100) ^ pen.tally symbols root source commands i .segment *
                (75 / 100) ^ pen.tally symbols root source commands i .group,
              1⟩ := by
  constructor
  · intro α σ _ _ pen symbols root source rest plant h
    obtain ⟨commands, hread, htapered⟩ := exists_tapered h
    refine ⟨commands, hread, htapered, ?_⟩
    intro τ _ other word draws left next hnext
    exact exists_tapered hnext
  · intro σ _ pen symbols root source rest plant h
    obtain ⟨commands, hread, htapered⟩ := exists_tapered h
    refine ⟨commands, hread, ?_⟩
    intro i r hr
    exact htapered.row_eq hr

/-- A segment, a side branch and a segment after it, as a sprig reads them. -/
def forked : List Command :=
  [.stroke (.act .branch), .enter, .stroke (.act .branch), .leave, .stroke (.act .branch)]

theorem read_forked (numbers : ℕ → ℝ) :
    (sprig.read ['F', '[', 'F', ']', 'F'] numbers).1 = .ok forked := by
  have hsegment : sprig.rules.choices? 'F' = some (.only .branch 1.0) := rfl
  have hopen : sprig.rules.choices? '[' = none := rfl
  have hclose : sprig.rules.choices? ']' = none := rfl
  simp only [read, command, hsegment, hopen, hclose, Choices.draw_eq, Choices.covers_only,
    ↓reduceIte, Choices.pick_only]
  rfl

/-- The side branch is not on the way to the last segment, but its end is. -/
theorem forked_way : ∀ m ≤ 4, OnWay forked m 4 ↔ m = 0 ∨ m = 3 ∨ m = 4 := by decide

section Forked

variable {numbers rest : ℕ → ℝ} {plant : Plant ℝ}
  (h : sprig.draw ['F', '[', 'F', ']', 'F'] .stalk numbers = (.ok plant, rest))

include h

theorem commands_forked {commands : List Command}
    (hread : sprig.read ['F', '[', 'F', ']', 'F'] numbers = (.ok commands, rest)) :
    commands = forked ∧ ∃ final, sprig.follow 0 commands (.start .stalk) = .ok final := by
  obtain ⟨others, final, hagain, hfollow, -⟩ := (sprig.draw_eq_ok_iff _ _ _ _ _).mp h
  obtain rfl : commands = others := by simpa [hread] using hagain
  have hforked := (congrArg Prod.fst hread).symm.trans (read_forked numbers)
  exact ⟨Except.ok.inj hforked, final, hfollow⟩

theorem adds_forked {i : ℕ} (hi : i = 0 ∨ i = 4) :
    ∃ r, sprig.Adds .segment ['F', '[', 'F', ']', 'F'] .stalk numbers i r := by
  obtain ⟨commands, -, hread, -⟩ := (sprig.draw_eq_ok_iff _ _ _ _ _).mp h
  obtain ⟨rfl, final, hfollow⟩ := commands_forked h hread
  apply (exists_adds_iff hread hfollow .segment i).mpr
  rcases hi with rfl | rfl
  · exact ⟨rfl, stalk_reach (Nat.zero_le 1)⟩
  · exact ⟨rfl, stalk_reach (Nat.le_refl 1)⟩

theorem tally_forked :
    sprig.tally ['F', '[', 'F', ']', 'F'] .stalk numbers forked 4 .segment = 2 ∧
      sprig.tally ['F', '[', 'F', ']', 'F'] .stalk numbers forked 4 .group = 1 := by
  obtain ⟨commands, -, hread, -⟩ := (sprig.draw_eq_ok_iff _ _ _ _ _).mp h
  obtain ⟨rfl, -⟩ := commands_forked h hread
  constructor
  · apply Set.ncard_eq_two.mpr
    refine ⟨0, 4, by decide, ?_⟩
    ext m
    constructor
    · rintro ⟨hway, s, hs⟩
      rcases (forked_way m hway.1).mp hway with rfl | rfl | rfl
      · exact Or.inl rfl
      · exact absurd (hs.command_eq hread) (by decide)
      · exact Or.inr rfl
    · intro hm
      refine ⟨?_, adds_forked h hm⟩
      rcases hm with rfl | rfl
      · decide
      · decide
  · apply Set.ncard_eq_one.mpr
    refine ⟨3, ?_⟩
    ext m
    constructor
    · rintro ⟨hway, hc⟩
      rcases (forked_way m hway.1).mp hway with rfl | rfl | rfl
      · exact absurd hc (by decide)
      · rfl
      · exact absurd hc (by decide)
    · rintro rfl
      exact ⟨by decide, rfl⟩

end Forked

/-- A twig in doubles, and in exact arithmetic the last segment of a fork, which two segments and
one side branch have made smaller. -/
theorem scales_forked :
    (∃ (plant : Plant Float) (rest : Generator) (commands : List Command),
      twig.draw ['L', 'F', 'L'] (.seedling ⟨0.5, 0.0, 0.0⟩ 2.0) (⟨0, 1⟩ : Generator) =
        (.ok plant, rest) ∧
      twig.Tapered ['L', 'F', 'L'] (.seedling ⟨0.5, 0.0, 0.0⟩ 2.0) (⟨0, 1⟩ : Generator)
        commands plant) ∧
    ∃ (plant : Plant ℝ) (rest : ℕ → ℝ) (r : Instance ℝ),
      sprig.draw ['F', '[', 'F', ']', 'F'] .stalk (fun _ : ℕ => (0 : ℝ)) = (.ok plant, rest) ∧
      sprig.Adds .segment ['F', '[', 'F', ']', 'F'] .stalk (fun _ : ℕ => (0 : ℝ)) 4 r ∧
      r.row .scale = ⟨2 * (96 / 100) ^ 2 * (75 / 100), 2 * (96 / 100) ^ 2,
        2 * (96 / 100) ^ 2 * (75 / 100), 1⟩ := by
  constructor
  · obtain ⟨plant, rest, hplant⟩ := exists_eq_ok_of_isOk
      (x := twig.draw ['L', 'F', 'L'] (.seedling ⟨0.5, 0.0, 0.0⟩ 2.0) (⟨0, 1⟩ : Generator))
      (by decide +kernel)
    obtain ⟨commands, -, htapered, -⟩ := scales_of_draw.1 _ _ _ _ _ _ hplant
    exact ⟨plant, rest, commands, hplant, htapered⟩
  · obtain ⟨plant, rest, hplant⟩ : ∃ plant rest,
        sprig.draw ['F', '[', 'F', ']', 'F'] .stalk (fun _ : ℕ => (0 : ℝ)) =
          (.ok plant, rest) := by
      apply sprig.exists_draw sprig_ready rfl rfl (by decide)
      exact Vec3.isUnit_up
    obtain ⟨commands, hread, hrows⟩ := scales_of_draw.2 _ _ _ _ _ _ hplant
    obtain ⟨rfl, -⟩ := commands_forked hplant hread
    obtain ⟨r, hr⟩ := adds_forked hplant (Or.inr rfl)
    obtain ⟨hsegments, hgroups⟩ := tally_forked hplant
    have hroot : Turtle.stalk.scale = ⟨2, 2, 2⟩ := by
      simp only [Turtle.stalk, Turtle.origin, Turtle.atRoot, Arith.scientific_real]
      norm_num
    refine ⟨plant, rest, r, hplant, hr, ?_⟩
    rw [hrows 4 r hr, hsegments, hgroups, hroot, pow_one]

end Pen
end Meristem
