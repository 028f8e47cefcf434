import Mathlib.Analysis.SpecialFunctions.Trigonometric.Bounds
import Meristem.Proofs.Drawing.Descent
import Meristem.Proofs.Exact.Rotation
import Meristem.Proofs.Exact.Turtle

/-!
In exact arithmetic nothing stops the drawing of a balanced word. From a root whose direction has
length one every turtle has such a direction, so that no step of a run finds none; what is left to
fail are the rules and the colours of the pen, and the brackets.
-/

namespace Meristem

/-- Numbers that are given in advance can be drawn one after the other. -/
instance {α : Type} : DrawSource (ℕ → α) α where
  next numbers := (numbers 0, fun n => numbers (n + 1))

namespace Turtle

variable {t : Turtle ℝ} (ht : t.orientation.IsUnit)

include ht

theorem lifted_isUnit : t.lifted.orientation.IsUnit := by
  unfold lifted
  split
  · rw [Vec3.IsUnit, ← ht.dot_self]
    simp [Vec3.dot]
  · exact ht

theorem exists_quaternion? : ∃ rotation, t.quaternion? = some rotation := by
  obtain ⟨rotation, harc, -⟩ := Quat.exists_between? Vec3.isUnit_up ht
  exact ⟨rotation, harc⟩

theorem exists_jittered : ∃ next, Pen.jittered t = .ok next ∧ next.orientation.IsUnit := by
  obtain ⟨next, hnext, hunit⟩ := t.exists_jitter ht
  exact ⟨next, (mapError_eq_ok _ _ _).mpr hnext, hunit⟩

theorem exists_turned (sign : ℝ) :
    ∃ next, Pen.turned sign t = .ok next ∧ next.orientation.IsUnit := by
  obtain ⟨next, hnext, hunit⟩ := t.exists_turn ht sign
  exact ⟨next, (mapError_eq_ok _ _ _).mpr hnext, hunit⟩

theorem exists_aimed (wobble : Bool) :
    ∃ next, Pen.aimed wobble t = .ok next ∧ next.orientation.IsUnit := by
  cases wobble with
  | false => exact ⟨t.lifted.shrunk, rfl, lifted_isUnit ht⟩
  | true =>
      obtain ⟨shaken, hshaken, hunit⟩ := exists_jittered ht
      refine ⟨shaken.lifted.shrunk, ?_, lifted_isUnit hunit⟩
      simp only [Pen.aimed, ↓reduceIte, hshaken, bind, Except.bind, pure, Except.pure]

theorem exists_record (scale : Vec3 ℝ) {color : Except ColorFault (Vec4 ℝ)} {paint : Vec4 ℝ}
    (hcolor : color = .ok paint) : ∃ r, Pen.record t scale color = .ok r := by
  obtain ⟨rotation, hrotation⟩ := exists_quaternion? ht
  refine ⟨⟨t.position, rotation, scale, paint⟩, ?_⟩
  simp only [Pen.record, hrotation, hcolor, mapError_ok, bind, Except.bind, pure, Except.pure]

end Turtle

/-- A pen that has all it needs: rules whose weights can be shared out, and two colours. -/
structure Pen.Ready {α : Type} [Arith α] (pen : Pen α) : Prop where
  covers : ∀ s choices, pen.rules.choices? s = some choices → choices.covers = true
  branch : ∃ paint, pen.branchColor = .ok paint
  leaf : ∃ paint, pen.leafColor = .ok paint

/-- A single choice of weight one takes the whole of the unit interval. -/
theorem Choices.covers_only {π : Type} (payload : π) :
    (only payload (1.0 : ℝ)).covers = true := by
  simp [covers, shares, only, toList, total, laneSum, compensatedSum, tolerance, Arith.abs]
  norm_num

variable {pen : Pen ℝ} {σ : Type} [DrawSource σ ℝ]

theorem Sketch.exists_stroke (hpen : pen.Ready) {k : Sketch ℝ}
    (hk : k.turtle.orientation.IsUnit) (bottom : Bool) (s : Stroke) :
    ∃ next, k.stroke pen bottom s = .ok next ∧ next.turtle.orientation.IsUnit := by
  cases s with
  | act action =>
      cases action with
      | branch =>
          obtain ⟨paint, hpaint⟩ := hpen.branch
          obtain ⟨t, ht, hunit⟩ := Turtle.exists_aimed hk (!bottom || k.begun)
          obtain ⟨r, hr⟩ := Turtle.exists_record hunit t.scale hpaint
          simp only [stroke, Sketch.branch, ht, hr, bind, Except.bind, pure, Except.pure]
          split
          · exact ⟨_, rfl, hunit⟩
          · exact ⟨k, rfl, hk⟩
      | leaf =>
          obtain ⟨paint, hpaint⟩ := hpen.leaf
          obtain ⟨r, hr⟩ := Turtle.exists_record hk Pen.leafScale hpaint
          simp only [stroke, Sketch.leaf, hr, bind, Except.bind, pure, Except.pure]
          split
          · exact ⟨_, rfl, hk⟩
          · exact ⟨k, rfl, hk⟩
      | nothing => exact ⟨k, rfl, hk⟩
  | turn positive =>
      obtain ⟨t, ht, hunit⟩ := Turtle.exists_turned hk (if positive then 1.0 else -1.0)
      refine ⟨{ k with turtle := t }, ?_, hunit⟩
      simp only [stroke, Sketch.turn, ht, bind, Except.bind, pure, Except.pure]
  | rest => exact ⟨k, rfl, hk⟩

theorem Pen.exists_readStroke (hpen : pen.Ready) (s : Symbol) (source : σ) :
    ∃ stroke rest, pen.readStroke s source = (.ok stroke, rest) := by
  unfold readStroke
  cases hchoices : pen.rules.choices? s with
  | none => exact ⟨_, _, rfl⟩
  | some choices => simp [Choices.draw, hpen.covers s choices hchoices]

/-- The induction is over the tree, for every turtle that has a direction. A group gives the
turtle back with the direction it had. -/
theorem Bough.exists_descend (hpen : pen.Ready) (tree : Bough) (bottom : Bool) {k : Sketch ℝ}
    (hk : k.turtle.orientation.IsUnit) (source : σ) :
    ∃ drawn rest, tree.descend pen bottom k source = (.ok drawn, rest) ∧
      drawn.turtle.orientation.IsUnit := by
  induction tree generalizing bottom k source with
  | tip => exact ⟨k, source, rfl, hk⟩
  | symbol s plain more ih =>
      obtain ⟨stroke, next, hread⟩ := pen.exists_readStroke hpen s source
      obtain ⟨drawn, hdrawn, hunit⟩ := k.exists_stroke hpen hk bottom stroke
      simp only [descend, hread, hdrawn]
      exact ih bottom hunit next
  | group inner more ihInner ihMore =>
      obtain ⟨child, hchild, hunit⟩ := Turtle.exists_jittered (t := k.turtle.deeper) hk
      obtain ⟨drawn, next, hinner, -⟩ :=
        ihInner false (k := { k with turtle := child }) hunit source
      simp only [descend, hchild, hinner]
      exact ihMore bottom (k := { drawn with turtle := k.turtle.thinned }) hk next

/-- A balanced word can be drawn from every root whose direction has length one. -/
theorem Pen.exists_draw (hpen : pen.Ready) (hopen : pen.rules.choices? '[' = none)
    (hclose : pen.rules.choices? ']' = none) {word : Word}
    (hword : Balanced Symbol.bracket word) {root : Turtle ℝ} (hroot : root.orientation.IsUnit)
    (source : σ) : ∃ plant rest, pen.draw word root source = (.ok plant, rest) := by
  obtain ⟨tree, rfl⟩ := Bough.exists_word_eq word hword
  have hstart : (Walk.start root).sketch.turtle.orientation.IsUnit := hroot
  obtain ⟨drawn, rest, hdrawn, -⟩ := tree.exists_descend hpen true hstart source
  have hwalk := pen.walk_word_eq_descend hopen hclose tree 0 (Walk.start root).sketch [] source
  rw [List.isEmpty_nil, hdrawn] at hwalk
  change pen.walk 0 tree.word (.start root) source = _ at hwalk
  refine ⟨⟨tree.word, drawn.branches, drawn.leaves⟩, rest, ?_⟩
  simp only [draw, hwalk, Except.map, finish, Sketch.atop_parents, Sketch.atop_branches,
    Sketch.atop_leaves, ↓reduceIte]

end Meristem
