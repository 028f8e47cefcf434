import Meristem.Proofs.Rounded.Turtle
import Meristem.Random.Generator

/-!
When a drawing in doubles loses its direction. A turtle turns in the frame that looks from its place
to the place one step on, and far from the origin the step can be lost in rounding that place.
Nothing else can go wrong: the drawing fails exactly if it comes to a sign with a turtle that has no
way ahead, and every such turtle stands so far out that doubles are a whole unit apart.
-/

namespace Meristem

namespace Turtle

/-- The direction from a turtle's place to the place one step on. -/
def ahead? {α : Type} [Scalar α] (t : Turtle α) : Option (Vec3 α) :=
  (t.position + t.orientation - t.position).unit?

theorem turned_of_no_ahead {α : Type} [Scalar α] {t : Turtle α} (h : t.ahead? = none) (sign : α) :
    Pen.turned sign t = .error .noDirection := by
  have hframe : Frame.lookAt? t.position (t.position + t.orientation) = none := by
    unfold ahead? at h
    simp only [Frame.lookAt?, h, bind, Option.bind]
  simp only [Pen.turned, turn, hframe, mapError_error]

section Ahead

/-- Near the origin a step keeps more than a tenth of a component that is not small. -/
theorem step_near {p o : Float} (hp : p.isFinite = true) (hclose : |toReal p| ≤ 2 ^ 52)
    (ho : Approx (101 / 100) 0 o (toReal o)) :
    (p + o - p).isFinite = true ∧ |toReal (p + o - p)| ≤ 2 ∧
      |toReal o| - 51 / 100 ≤ |toReal (p + o - p)| := by
  have hsize : |toReal p + toReal o| ≤ 2 ^ 52 + 101 / 100 :=
    (abs_add_le _ _).trans (add_le_add hclose ho.size)
  have hsum := add_nearest hp ho.finite
  have hfinite : (p + o).isFinite = true := by
    have hroom : (2 : ℝ) ^ 52 + 101 / 100 ≤ 2 ^ (53 : ℤ) := by norm_num
    exact hsum.isFinite ((hsize.trans hroom).trans
      (zpow_le_zpow_right₀ (by norm_num) (by norm_num)))
  -- this is what is lost of the step: below 2 ^ 53 doubles are at most one unit apart
  have hlost : |toReal (p + o) - (toReal p + toReal o)| ≤ 501 / 1000 := by
    refine (hsum.near_small hfinite).trans ?_
    norm_num at hsize ⊢
    linarith
  have hchange : |toReal (p + o) - toReal p - toReal o| ≤ 501 / 1000 := by
    rwa [sub_sub]
  have hmost : |toReal (p + o) - toReal p| ≤ 19 / 10 := by
    have htriangle := abs_add_le (toReal (p + o) - toReal p - toReal o) (toReal o)
    rw [sub_add_cancel] at htriangle
    linarith [ho.size]
  have hdifference := (sub_nearest hfinite hp).approx (hmost.trans (by norm_num)) hmost
    (le_of_eq (by rw [sub_self, abs_zero]))
  refine ⟨hdifference.finite, hdifference.abs_le.trans (by norm_num [grain]), ?_⟩
  have herror := hdifference.error
  have hkept : |toReal o| ≤ |toReal (p + o) - toReal p - toReal o| +
      |toReal (p + o - p) - (toReal (p + o) - toReal p)| + |toReal (p + o - p)| := by
    have htriangle := abs_add_three (-(toReal (p + o) - toReal p - toReal o))
      (-(toReal (p + o - p) - (toReal (p + o) - toReal p))) (toReal (p + o - p))
    rw [abs_neg, abs_neg] at htriangle
    refine le_trans (le_of_eq (congrArg abs ?_)) htriangle
    ring
  norm_num [grain] at herror
  linarith

/-- A direction has a component that is not small. -/
theorem exists_large_component {d : Vec3 Float} (h : d.NearUnit) :
    57 / 100 ≤ |toReal d.x| ∨ 57 / 100 ≤ |toReal d.y| ∨ 57 / 100 ≤ |toReal d.z| := by
  by_contra! hsmall
  obtain ⟨hx, hy, hz⟩ := hsmall
  have hlength := (abs_le.mp h.length).1
  have hsquare {s : ℝ} (hs : |s| < 57 / 100) : s ^ 2 ≤ (57 / 100) ^ 2 := by
    rw [← sq_abs]
    exact pow_le_pow_left₀ (abs_nonneg s) hs.le 2
  rw [Vec3.dot_self_value] at hlength
  have hxsquare := hsquare hx
  have hysquare := hsquare hy
  have hzsquare := hsquare hz
  norm_num at hlength hxsquare hysquare hzsquare
  linarith

/-- A turtle with moderate coordinates has a way ahead. -/
theorem exists_ahead [Libm] {t : Turtle Float} (ht : t.Sound)
    (hclose : t.position.Within (2 ^ 52)) : ∃ d, t.ahead? = some d := by
  have hdirection := ht.direction.approx
  obtain ⟨hxfinite, hxmost, hxleast⟩ := step_near ht.position.x hclose.x hdirection.x
  obtain ⟨hyfinite, hymost, hyleast⟩ := step_near ht.position.y hclose.y hdirection.y
  obtain ⟨hzfinite, hzmost, hzleast⟩ := step_near ht.position.z hclose.z hdirection.z
  have hfair : (t.position + t.orientation - t.position).Fair := by
    refine ⟨⟨hxfinite, hyfinite, hzfinite⟩, ⟨hxmost.trans (by norm_num),
      hymost.trans (by norm_num), hzmost.trans (by norm_num)⟩, ?_⟩
    have hlong {s c : ℝ} (hc : 57 / 100 ≤ |c|) (hs : |c| - 51 / 100 ≤ |s|) :
        1 / 2 ^ 20 ≤ s ^ 2 := by
      have hfair : 6 / 100 ≤ |s| := by linarith
      have hsquare := pow_le_pow_left₀ (by norm_num) hfair 2
      rw [sq_abs] at hsquare
      norm_num at hsquare ⊢
      linarith
    obtain ⟨hx, hy, hz⟩ := (t.position + t.orientation - t.position).sq_le_dot_self_value
    rcases exists_large_component ht.direction with hlarge | hlarge | hlarge
    · exact (hlong hlarge hxleast).trans hx
    · exact (hlong hlarge hyleast).trans hy
    · exact (hlong hlarge hzleast).trans hz
  obtain ⟨d, hd, -⟩ := hfair.exists_unit?
  exact ⟨d, hd⟩

end Ahead

theorem sound_atRoot {p : Vec3 Float} (hp : p.IsFinite) : (atRoot p).Sound := by
  have htwo : Approx 2 0 (2.0 : Float) 2 := .literal rfl toReal_two zero_le_two
  exact ⟨hp, Vec3.nearUnit_up, htwo.forget (by norm_num)⟩

end Turtle

section Reach

/-- Near the origin a coordinate grows by less than three on a segment. -/
theorem abs_add_le_reach {x y : Float} {b e r reach : ℝ} (hx : x.isFinite = true)
    (hsize : |toReal x| ≤ reach) (hreach : reach ≤ 2 ^ 52) (hy : Approx b e y r)
    (hstep : b + e ≤ 203 / 100) : |toReal (x + y)| ≤ reach + 3 := by
  have hsum : |toReal x + toReal y| ≤ reach + 203 / 100 :=
    (abs_add_le _ _).trans (add_le_add hsize (hy.abs_le.trans hstep))
  have hfinite := Turtle.isFinite_add_small hx hy (by linarith)
  have hnear := (add_nearest hx hy.finite).near_small hfinite
  have htriangle := abs_add_le (toReal (x + y) - (toReal x + toReal y)) (toReal x + toReal y)
  rw [sub_add_cancel] at htriangle
  norm_num at hnear hreach
  linarith

theorem Turtle.Sound.move_within {t : Turtle Float} (ht : t.Sound) {reach : ℝ}
    (hreach : reach ≤ 2 ^ 52) (hplace : t.position.Within reach) :
    t.move.position.Within (reach + 3) := by
  have hstep := ht.direction.approx.scale ht.length (by norm_num)
  constructor
  · exact abs_add_le_reach ht.position.x hplace.x hreach hstep.x (by norm_num [grain])
  · exact abs_add_le_reach ht.position.y hplace.y hreach hstep.y (by norm_num [grain])
  · exact abs_add_le_reach ht.position.z hplace.z hreach hstep.z (by norm_num [grain])

variable [Libm] {pen : Pen Float}

/-- One command takes no turtle far. -/
theorem Pen.places_of_obey {index : Nat} {c : Command} {w next : Walk Float} {reach : ℝ}
    (hreach : reach ≤ 2 ^ 52) (hsound : w.current.Sound)
    (hplaces : ∀ p ∈ w.places, p.Within reach) (h : pen.obey index c w = .ok next) :
    ∀ p ∈ next.places, p.Within (reach + 3) := by
  have hkept : ∀ p ∈ w.places, p.Within (reach + 3) := by
    intro p hp
    exact (hplaces p hp).mono (by linarith)
  cases c with
  | enter =>
      intro p hp
      rw [places_of_enter h] at hp
      rcases List.mem_cons.mp hp with rfl | hp
      · exact hkept _ List.mem_cons_self
      · exact hkept p hp
  | leave =>
      intro p hp
      apply hkept
      rw [places_of_leave h]
      exact List.mem_cons_of_mem _ hp
  | stroke s =>
      by_cases hs : s = .act .branch
      · subst hs
        rcases obey_branch_eq_ok h with ⟨-, rfl⟩ | ⟨-, t, r, ht, -, rfl⟩
        · exact hkept
        · have haimed : t.Sound :=
            (Turtle.edits_of_aimed ht).preserves (fun _ _ hedit => hedit.sound) hsound
          have hplace : t.position = w.current.position := (aimed_eq_ok ht).1
          intro p hp
          rcases List.mem_cons.mp hp with rfl | hp
          · apply haimed.move_within hreach
            rw [hplace]
            exact hplaces _ List.mem_cons_self
          · exact hkept p (List.mem_cons_of_mem _ hp)
      · obtain ⟨k, hk, rfl⟩ := pen.obey_stroke_eq_ok h
        obtain ⟨hplace, -, -⟩ := Sketch.stroke_frame hs hk
        have hcurrent : k.turtle.position = w.current.position := hplace
        have hsame : (k.atop w.parents).places = w.places := by
          simp [Walk.places, hcurrent]
        rw [hsame]
        exact hkept

/-- The induction is over the commands; each may take the turtles a little farther. -/
theorem Pen.places_of_follow {commands : List Command} {index : Nat} {w final : Walk Float}
    {reach : ℝ} (hroom : reach + 3 * commands.length ≤ 2 ^ 52)
    (hsound : ∀ t ∈ w.turtles, t.Sound) (hplaces : ∀ p ∈ w.places, p.Within reach)
    (h : pen.follow index commands w = .ok final) :
    ∀ p ∈ final.places, p.Within (reach + 3 * commands.length) := by
  induction commands generalizing index w reach with
  | nil =>
      obtain rfl : w = final := Except.ok.inj h
      intro p hp
      exact (hplaces p hp).mono (by simp)
  | cons c commands ih =>
      obtain ⟨next, hobey, hfollow⟩ := (pen.follow_cons_eq_ok_iff _ _ _ _ _).mp h
      have hlength : (3 : ℝ) * (c :: commands).length = 3 + 3 * commands.length := by
        rw [List.length_cons]
        push_cast
        ring
      rw [hlength] at hroom ⊢
      have hcount : (0 : ℝ) ≤ commands.length := Nat.cast_nonneg _
      have hnext := places_of_obey (by linarith) (hsound _ List.mem_cons_self) hplaces hobey
      have hturtles : ∀ t ∈ next.turtles, t.Sound := by
        intro t ht
        obtain ⟨s, hs, hedits⟩ := edits_of_obey hobey t ht
        exact hedits.preserves (fun _ _ hedit => hedit.sound) (hsound s hs)
      have hlast := ih (by linarith) hturtles hnext hfollow
      rwa [add_assoc] at hlast

end Reach

theorem sign_near (positive : Bool) :
    Approx 1 0 (if positive then 1.0 else -1.0) (toReal (if positive then 1.0 else -1.0)) := by
  cases positive with
  | true =>
      apply Approx.exact rfl
      simp only [↓reduceIte]
      rw [toReal_one, abs_one]
  | false =>
      apply Approx.exact rfl
      simp only [Bool.false_eq_true, ↓reduceIte]
      rw [Turtle.toReal_neg_one, abs_neg, abs_one]

namespace Pen

section Directions

variable [Libm] {σ : Type} [DrawSource σ Float]

section Accurate

variable (hlibm : Libm.Accurate) {pen : Pen Float} {symbols : Word} {p : Vec3 Float}
  (hp : p.IsFinite) {source : σ} {i : ℕ} {positive : Bool} {t : Turtle Float}

include hlibm hp

theorem ComesToTurn.sound (h : pen.ComesToTurn symbols (.atRoot p) source i positive t) :
    t.Sound :=
  (Turtle.steady_sound hlibm).edits h.edits (Turtle.sound_atRoot hp)

/-- A drawing loses its direction exactly at a turtle that has no way ahead. -/
theorem draw_noDirection_iff_no_ahead :
    (pen.draw symbols (.atRoot p) source).1 = .error .noDirection ↔
      ∃ i positive t, pen.ComesToTurn symbols (.atRoot p) source i positive t ∧
        t.ahead? = none := by
  rw [draw_noDirection_iff (Turtle.steady_sound hlibm) (Turtle.sound_atRoot hp)]
  constructor
  · rintro ⟨i, t, positive, hcomes, hturned⟩
    refine ⟨i, positive, t, hcomes, ?_⟩
    by_contra hahead
    obtain ⟨d, hd⟩ := Option.ne_none_iff_exists'.mp hahead
    obtain ⟨next, hnext⟩ :=
      Turtle.exists_turn_near hlibm (hcomes.sound hlibm hp) hd (sign_near positive)
    have hdone := (mapError_eq_ok (fun _ => GrowthError.noDirection) _ _).mpr hnext
    rw [turned, hdone] at hturned
    simp at hturned
  · rintro ⟨i, positive, t, hcomes, hahead⟩
    exact ⟨i, t, positive, hcomes, Turtle.turned_of_no_ahead hahead _⟩

theorem ComesToTurn.not_within (h : pen.ComesToTurn symbols (.atRoot p) source i positive t)
    (hahead : t.ahead? = none) : ¬ t.position.Within (2 ^ 52) := by
  intro hclose
  obtain ⟨d, hd⟩ := Turtle.exists_ahead (h.sound hlibm hp) hclose
  rw [hd] at hahead
  simp at hahead

omit hlibm in
/-- No turtle gets farther than three for each symbol. -/
theorem ComesToTurn.within {reach : ℝ} (hreach : p.Within reach)
    (hroom : reach + 3 * symbols.length ≤ 2 ^ 52)
    (h : pen.ComesToTurn symbols (.atRoot p) source i positive t) :
    t.position.Within (2 ^ 52) := by
  obtain ⟨-, -, w, rest, hwalk, rfl⟩ := h
  obtain ⟨commands, hread, hfollow⟩ := (pen.walk_eq_ok_iff 0 _ _ w source _).mp hwalk
  have hlength : (commands.length : ℝ) ≤ symbols.length := by
    have hcount := pen.read_length hread
    rw [List.length_take] at hcount
    exact_mod_cast (by omega : commands.length ≤ symbols.length)
  have hall : reach + 3 * commands.length ≤ 2 ^ 52 := by linarith
  have hsound : ∀ t ∈ (Walk.start (Turtle.atRoot p)).turtles, t.Sound := by
    intro t ht
    obtain rfl : t = .atRoot p := by simpa [Walk.turtles, Walk.start] using ht
    exact Turtle.sound_atRoot hp
  have hplaces : ∀ q ∈ (Walk.start (Turtle.atRoot p)).places, q.Within reach := by
    intro q hq
    obtain rfl : q = p := by simpa [Walk.places, Walk.start, Turtle.atRoot] using hq
    exact hreach
  exact (places_of_follow hall hsound hplaces hfollow _ List.mem_cons_self).mono hall

end Accurate

/-- At a root ten to the sixteenth above the origin a step up is lost. -/
theorem no_ahead_high : (Turtle.atRoot (⟨0.0, 1e16, 0.0⟩ : Vec3 Float)).ahead? = none := by
  have hsame : (Turtle.atRoot (⟨0.0, 1e16, 0.0⟩ : Vec3 Float)).ahead? =
      @Turtle.ahead? Float instScalarFloat (.atRoot ⟨0.0, 1e16, 0.0⟩) := rfl
  rw [hsame]
  decide +kernel

/-- There no word that starts with a sign can be drawn. -/
theorem draw_sign_high {pen : Pen Float} {positive : Bool}
    (hplain : pen.rules.choices? (.sign positive) = none) (rest : Word) (source : σ) :
    (pen.draw (.sign positive :: rest) (.atRoot ⟨0.0, 1e16, 0.0⟩) source).1 =
      .error .noDirection := by
  apply LosesTurn.draw (i := 0) (t := .atRoot ⟨0.0, 1e16, 0.0⟩)
  exact ⟨positive, ⟨rfl, hplain, .start (.atRoot ⟨0.0, 1e16, 0.0⟩), source, rfl, rfl⟩,
    Turtle.turned_of_no_ahead no_ahead_high _⟩

/-- In double arithmetic a drawing from a finite root loses its direction exactly if it comes to a
sign with a turtle that has no way ahead. A turtle can only lack one where doubles are a whole unit
apart, so that a drawing with room below that never loses its direction. -/
theorem draw_noDirection_double (hlibm : Libm.Accurate) (pen : Pen Float) (symbols : Word)
    {p : Vec3 Float} (hp : p.IsFinite) (source : σ) :
    ((pen.draw symbols (.atRoot p) source).1 = .error .noDirection ↔
      ∃ i positive t, pen.ComesToTurn symbols (.atRoot p) source i positive t ∧
        t.ahead? = none) ∧
    (∀ i positive t, pen.ComesToTurn symbols (.atRoot p) source i positive t →
      t.ahead? = none → ¬ t.position.Within (2 ^ 52)) ∧
    ∀ reach : ℝ, p.Within reach → reach + 3 * symbols.length ≤ 2 ^ 52 →
      (pen.draw symbols (.atRoot p) source).1 ≠ .error .noDirection := by
  refine ⟨draw_noDirection_iff_no_ahead hlibm hp, ?_, ?_⟩
  · intro i positive t hcomes hahead
    exact hcomes.not_within hlibm hp hahead
  · intro reach hreach hroom hlost
    obtain ⟨i, positive, t, hcomes, hahead⟩ :=
      (draw_noDirection_iff_no_ahead hlibm hp).mp hlost
    exact hcomes.not_within hlibm hp hahead (hcomes.within hp hreach hroom)

end Directions

/-- With a library that returns the nearest doubles a turn loses its step at a root ten to the
sixteenth above the origin. -/
theorem noDirection_high :
    letI : Libm := .ideal
    Libm.Accurate ∧ Vec3.IsFinite ⟨0.0, 1e16, 0.0⟩ ∧
      ((plain DrawingRules.default).draw ['+'] (.atRoot ⟨0.0, 1e16, 0.0⟩) (⟨0, 1⟩ : Generator)).1 =
        .error .noDirection ∧
      ∃ i positive t, (plain DrawingRules.default).ComesToTurn ['+'] (.atRoot ⟨0.0, 1e16, 0.0⟩)
        (⟨0, 1⟩ : Generator) i positive t ∧ t.ahead? = none ∧ ¬ t.position.Within (2 ^ 52) := by
  let : Libm := .ideal
  have hroot : Vec3.IsFinite ⟨0.0, 1e16, 0.0⟩ := ⟨rfl, rfl, rfl⟩
  have hlost : ((plain DrawingRules.default).draw ['+'] (.atRoot ⟨0.0, 1e16, 0.0⟩)
      (⟨0, 1⟩ : Generator)).1 = .error .noDirection := by
    have hplain :
        (plain DrawingRules.default : Pen Float).rules.choices? (Symbol.sign true) = none := rfl
    exact draw_sign_high hplain [] (⟨0, 1⟩ : Generator)
  obtain ⟨hiff, hfar, -⟩ := draw_noDirection_double Libm.ideal_accurate
    (plain DrawingRules.default) ['+'] hroot (⟨0, 1⟩ : Generator)
  obtain ⟨i, positive, t, hcomes, hahead⟩ := hiff.mp hlost
  exact ⟨Libm.ideal_accurate, hroot, hlost, i, positive, t, hcomes, hahead,
    hfar i positive t hcomes hahead⟩

end Pen
end Meristem
