import Meristem.Proofs.Drawing.Unmatched
import Meristem.Proofs.Drawing.Run

/-!
Which segments wobble. A branch action that is not skipped turns its turtle about world Z and then
about world X before it draws; only where nothing has been recorded yet and no group is open does it
leave the two turns out. So at most one segment of a plant is straight, and it is the first.
-/

namespace Meristem

/-- A rotation of a turtle about an axis. -/
structure Spin (α : Type) where
  axis : Vec3 α
  degrees : α

namespace Turtle

variable {α : Type} [Scalar α]

/-- Turns a turtle by one spin after the other. -/
def spinAll : List (Spin α) → Turtle α → Except (Turtle α) (Turtle α)
  | [], t => .ok t
  | spin :: rest, t => do
    let t ← t.rotate spin.axis spin.degrees
    t.spinAll rest

/-- The two rotations of a wobble, by the noise at the place of the turtle. -/
def wobble (t : Turtle α) : List (Spin α) :=
  [⟨Vec3.worldZ, jitterDegrees t.position jitterAmplitude⟩,
   ⟨Vec3.worldX, jitterDegrees t.position jitterAmplitude⟩]

/-- Rotations change nothing of a turtle but its direction. -/
theorem spinAll_eq_ok {spins : List (Spin α)} {t next : Turtle α}
    (h : t.spinAll spins = .ok next) :
    ∃ direction, next = { t with orientation := direction } := by
  induction spins generalizing t with
  | nil =>
      obtain rfl : t = next := by simpa [spinAll] using h
      exact ⟨t.orientation, rfl⟩
  | cons spin rest ih =>
      cases hfirst : t.rotate spin.axis spin.degrees with
      | error stuck => simp [spinAll, hfirst, bind, Except.bind] at h
      | ok middle =>
          simp only [spinAll, hfirst, bind, Except.bind] at h
          obtain ⟨_, -, rfl⟩ := rotate_eq_ok hfirst
          obtain ⟨direction, rfl⟩ := ih h
          exact ⟨direction, rfl⟩

/-- The second rotation finds the turtle where the first one found it. -/
theorem spinAll_wobble (t : Turtle α) : t.spinAll t.wobble = t.jitter := by
  simp only [wobble, spinAll, jitter]
  cases hfirst : t.rotate Vec3.worldZ (jitterDegrees t.position jitterAmplitude) with
  | error stuck => rfl
  | ok middle =>
      obtain ⟨direction, -, rfl⟩ := rotate_eq_ok hfirst
      simp only [bind, Except.bind]
      cases rotate Vec3.worldX (jitterDegrees t.position jitterAmplitude)
          { t with orientation := direction } with
      | error stuck => rfl
      | ok next => rfl

end Turtle

/-- The rotations before the segment that is drawn next. -/
def Walk.wobbles {α : Type} [Scalar α] (w : Walk α) : List (Spin α) :=
  if w.branches.count = 0 ∧ w.parents = [] then [] else w.current.wobble

namespace Pen

section Segment

variable {α : Type} [Scalar α] (pen : Pen α)

/-- Draws a segment after some rotations of its turtle. -/
def segmentAfter (spins : List (Spin α)) (w : Walk α) : Except GrowthError (Walk α) := do
  let t ← (w.current.spinAll spins).mapError fun _ => .noDirection
  let aim := t.lifted.shrunk
  let r ← record aim aim.scale pen.branchColor
  return ⟨aim.move, w.parents, w.branches.append r, w.leaves, true⟩

/-- The flag of a walk tells whether it has recorded a segment. -/
structure Flagged (w : Walk α) : Prop where
  nonneg : 0 ≤ w.branches.count
  begun_iff : w.begun = true ↔ w.branches.count ≠ 0

variable {pen} {index : Nat} {c : Command} {w next : Walk α}

theorem count_le_of_obey (hobey : pen.obey index c w = .ok next) :
    w.branches.count ≤ next.branches.count := by
  by_cases hbranch : c = Organ.segment.command
  · subst hbranch
    rcases obey_branch_eq_ok hobey with ⟨-, rfl⟩ | ⟨-, t, r, -, -, rfl⟩
    · exact Int.le_refl _
    · rw [InstanceBuffer.append_count]
      omega
  · have hkept : next.branches = w.branches := records_of_obey (o := .segment) hbranch hobey
    rw [hkept]

theorem Flagged.obey (h : Flagged w) (hobey : pen.obey index c w = .ok next) : Flagged next where
  nonneg := Int.le_trans h.nonneg (count_le_of_obey hobey)
  begun_iff := by
    by_cases hbranch : c = Organ.segment.command
    · subst hbranch
      rcases obey_branch_eq_ok hobey with ⟨-, rfl⟩ | ⟨-, t, r, -, -, rfl⟩
      · exact h.begun_iff
      · have hcount := h.nonneg
        simp only [InstanceBuffer.append_count, true_iff]
        omega
    · have hkept : next.branches = w.branches := records_of_obey (o := .segment) hbranch hobey
      rw [begun_of_obey hbranch hobey, hkept]
      exact h.begun_iff

theorem aimed_eq (wobble : Bool) (t : Turtle α) :
    aimed wobble t =
      ((t.spinAll (if wobble then t.wobble else [])).mapError fun _ => .noDirection).map
        (·.lifted.shrunk) := by
  cases wobble with
  | false => rfl
  | true =>
      simp only [aimed, ↓reduceIte, Turtle.spinAll_wobble, jittered]
      cases t.jitter with
      | error stuck => rfl
      | ok shaken => rfl

/-- A branch action is skipped as a whole, or it draws a segment after the rotations that are
due. -/
theorem act_branch_eq (h : Flagged w) :
    pen.act .branch w =
      if w.current.isVisible then pen.segmentAfter w.wobbles w else .ok w := by
  have hdue : w.wobbles = if !w.parents.isEmpty || w.begun then w.current.wobble else [] := by
    have hflag := h.begun_iff
    unfold Walk.wobbles
    by_cases hnone : w.branches.count = 0
    · have hbegun : w.begun = false := by simpa [hnone] using hflag
      by_cases hbottom : w.parents = []
      · simp [hnone, hbottom, hbegun]
      · simp [hbottom]
    · simp [hflag.mpr hnone, hnone]
  obtain ⟨current, parents, branches, leaves, begun⟩ := w
  simp only [act, drawBranch, segmentAfter, aimed_eq] at hdue ⊢
  rw [hdue]
  split
  · cases (current.spinAll (if !parents.isEmpty || begun then current.wobble else [])).mapError
        fun _ => GrowthError.noDirection with
    | error e => rfl
    | ok t => rfl
  · rfl

end Segment

section Run

variable {α σ : Type} [Scalar α] [DrawSource σ α] {pen : Pen α} {symbols word : Word}
  {root : Turtle α} {source rest : σ}

/-- What every command keeps, a walk keeps. -/
theorem walk_keeps {P : Walk α → Prop} {index : Nat} {w final : Walk α}
    (hstep : ∀ index c w next, pen.obey index c w = .ok next → P w → P next)
    (h : pen.walk index word w source = (.ok final, rest)) (hw : P w) : P final := by
  obtain ⟨commands, -, hfollow⟩ := (pen.walk_eq_ok_iff _ _ _ _ _ _).mp h
  exact pen.follow_keeps hstep hfollow hw

theorem Passes.exists_obey {i : Nat} {before after : Walk α}
    (h : pen.Passes symbols root source i before after) :
    ∃ c, pen.obey i c before = .ok after := by
  obtain ⟨commands, hread, -⟩ := (pen.walk_eq_ok_iff _ _ _ _ _ _).mp (Prod.ext h.leaves rfl)
  have hpass : pen.Passes (symbols.take (i + 1)) root source i before after :=
    ⟨by simp [h.inside], by simpa [List.take_take] using h.comes,
      by simpa [List.take_take] using h.leaves⟩
  obtain ⟨c, hc⟩ := hpass.exists_command hread
  exact ⟨c, hpass.obey hread hc⟩

section Reached

variable {i j : Nat} {w v : Walk α}
  (hw : (pen.walk 0 (symbols.take i) (.start root) source).1 = .ok w)

include hw

theorem flagged_of_walk : Flagged w :=
  walk_keeps (fun _ _ _ _ hobey h => h.obey hobey) (Prod.ext hw rfl)
    ⟨Int.le_refl 0, by simp [Walk.start, InstanceBuffer.empty]⟩

theorem parents_eq_nil_iff : w.parents = [] ↔ height pen.bracket (symbols.take i) = 0 := by
  have hwait := walk_parents (Prod.ext hw rfl)
  rw [← List.length_eq_zero_iff]
  simp only [Walk.start, List.length_nil] at hwait
  omega

theorem count_le_of_walk (hij : i ≤ j)
    (hv : (pen.walk 0 (symbols.take j) (.start root) source).1 = .ok v) :
    w.branches.count ≤ v.branches.count := by
  have hsplit : symbols.take j = symbols.take i ++ (symbols.take j).drop i := by
    conv_lhs => rw [← List.take_append_drop i (symbols.take j), List.take_take, Nat.min_eq_left hij]
  cases hfirst : pen.walk 0 (symbols.take i) (.start root) source with
  | mk result left =>
      obtain rfl : result = .ok w := by simpa [hfirst] using hw
      rw [hsplit, walk_append, hfirst] at hv
      exact walk_keeps (P := fun u => w.branches.count ≤ u.branches.count)
        (fun _ _ _ _ hobey h => Int.le_trans h (count_le_of_obey hobey)) (Prod.ext hv rfl)
        (Int.le_refl _)

end Reached

/-- How the segments of a run wobble, whether or not the run comes to the end of its word. -/
structure WobblesButFirst (pen : Pen α) (symbols : Word) (root : Turtle α) (source : σ) :
    Prop where
  /-- In every state the flag tells whether a segment has been recorded. -/
  begun_iff : ∀ i w, (pen.walk 0 (symbols.take i) (.start root) source).1 = .ok w →
    (w.begun = true ↔ 0 < w.branches.count)
  /-- Nothing wobbles where the next record is the first one and no group is open. -/
  wobbles_eq : ∀ i w, (pen.walk 0 (symbols.take i) (.start root) source).1 = .ok w →
    w.wobbles =
      if w.branches.count = 0 ∧ height pen.bracket (symbols.take i) = 0 then []
      else w.current.wobble
  /-- A branch action that is skipped changes nothing, neither the turtle nor the flag. -/
  act_branch : ∀ i w, (pen.walk 0 (symbols.take i) (.start root) source).1 = .ok w →
    pen.act .branch w =
      if w.current.isVisible then pen.segmentAfter w.wobbles w else .ok w
  /-- Every segment of the run is drawn by such an action, after the rotations of its state. -/
  drawn : ∀ i r, pen.Adds .segment symbols root source i r →
    ∃ before after, pen.Passes symbols root source i before after ∧
      before.current.isVisible = true ∧ pen.segmentAfter before.wobbles before = .ok after ∧
      after.branches = before.branches.append r
  /-- The rotations move no turtle, so both go by the noise at one place. -/
  placed : ∀ (spins : List (Spin α)) (t next : Turtle α), t.spinAll spins = .ok next →
    next.position = t.position
  /-- Every segment but the first wobbles. -/
  first : ∀ i before after r, pen.Passes symbols root source i before after →
    after.branches = before.branches.append r → before.wobbles = [] →
    ∀ j s, pen.Adds .segment symbols root source j s → i ≤ j

/-- At most one segment is drawn straight, and it is the first of the plant. -/
theorem wobblesButFirst (pen : Pen α) (symbols : Word) (root : Turtle α) (source : σ) :
    pen.WobblesButFirst symbols root source where
  begun_iff := by
    intro i w hw
    have hflag := flagged_of_walk hw
    have hcount := hflag.nonneg
    rw [hflag.begun_iff]
    omega
  wobbles_eq := by
    intro i w hw
    rw [Walk.wobbles]
    simp only [parents_eq_nil_iff hw]
  act_branch := by
    intro i w hw
    exact act_branch_eq (flagged_of_walk hw)
  drawn := by
    rintro i r ⟨before, after, hpass, hgrown⟩
    obtain ⟨c, hobey⟩ := hpass.exists_obey
    by_cases hbranch : c = Organ.segment.command
    · subst hbranch
      have hact : pen.act .branch before = .ok after :=
        (pen.act_eq_obey i .branch before).trans hobey
      rw [act_branch_eq (flagged_of_walk hpass.comes)] at hact
      cases hvisible : before.current.isVisible with
      | false =>
          obtain rfl : before = after := by simpa [hvisible] using hact
          exact absurd hgrown.symm (InstanceBuffer.append_ne_self _ _)
      | true => exact ⟨before, after, hpass, hvisible, by simpa [hvisible] using hact, hgrown⟩
    · have hkept := records_of_obey hbranch hobey
      exact absurd (hgrown.symm.trans hkept) (InstanceBuffer.append_ne_self _ _)
  placed := by
    intro spins t next h
    obtain ⟨direction, rfl⟩ := Turtle.spinAll_eq_ok h
    rfl
  first := by
    rintro i before after r hpass hgrown hstraight j s ⟨other, next, hother, hnext⟩
    by_contra hlate
    have hnone : before.branches.count = 0 := by
      by_contra hsome
      simp [Walk.wobbles, hsome, Turtle.wobble] at hstraight
    have hbefore := (flagged_of_walk hother.comes).nonneg
    have hafter := count_le_of_walk hother.leaves (by omega) hpass.comes
    rw [show next.branches = other.branches.append s from hnext, InstanceBuffer.append_count]
      at hafter
    omega

end Run

end Pen
end Meristem
