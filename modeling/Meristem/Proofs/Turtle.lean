import Meristem.Drawing
import Meristem.Proofs.Results

/-!
What the actions of a turtle leave alone. A wobble and a turn are two rotations, and a rotation
changes nothing but the direction; only `move` changes the position. The scale and the depth are
changed by the drawing alone, in the four ways below.
-/

namespace Meristem

namespace Turtle

variable {α : Type}

@[simp] theorem deeper_position (t : Turtle α) : t.deeper.position = t.position := rfl
@[simp] theorem deeper_orientation (t : Turtle α) : t.deeper.orientation = t.orientation := rfl
@[simp] theorem deeper_scale (t : Turtle α) : t.deeper.scale = t.scale := rfl
@[simp] theorem deeper_depth (t : Turtle α) : t.deeper.depth = t.depth + 1 := rfl

section Arith

variable [Arith α]

@[simp] theorem thinned_position (t : Turtle α) : t.thinned.position = t.position := rfl
@[simp] theorem thinned_orientation (t : Turtle α) : t.thinned.orientation = t.orientation := rfl
@[simp] theorem thinned_scale_y (t : Turtle α) : t.thinned.scale.y = t.scale.y := rfl
@[simp] theorem thinned_depth (t : Turtle α) : t.thinned.depth = t.depth := rfl

@[simp] theorem shrunk_position (t : Turtle α) : t.shrunk.position = t.position := rfl
@[simp] theorem shrunk_orientation (t : Turtle α) : t.shrunk.orientation = t.orientation := rfl
@[simp] theorem shrunk_scale (t : Turtle α) : t.shrunk.scale = t.scale.scale 0.96 := rfl
@[simp] theorem shrunk_depth (t : Turtle α) : t.shrunk.depth = t.depth := rfl

@[simp] theorem move_position (t : Turtle α) :
    t.move.position = t.position + t.orientation.scale t.scale.y := rfl
@[simp] theorem move_orientation (t : Turtle α) : t.move.orientation = t.orientation := rfl
@[simp] theorem move_scale (t : Turtle α) : t.move.scale = t.scale := rfl
@[simp] theorem move_depth (t : Turtle α) : t.move.depth = t.depth := rfl

@[simp] theorem lifted_position (t : Turtle α) : t.lifted.position = t.position := by
  unfold lifted
  split <;> rfl

@[simp] theorem lifted_scale (t : Turtle α) : t.lifted.scale = t.scale := by
  unfold lifted
  split <;> rfl

@[simp] theorem lifted_depth (t : Turtle α) : t.lifted.depth = t.depth := by
  unfold lifted
  split <;> rfl

end Arith

variable [Scalar α]

theorem rotate_eq_ok {axis : Vec3 α} {degrees : α} {t next : Turtle α}
    (h : t.rotate axis degrees = .ok next) :
    ∃ direction, turned? axis degrees t.orientation = some direction ∧
      next = { t with orientation := direction } := by
  unfold rotate at h
  cases hturned : turned? axis degrees t.orientation with
  | none => simp [hturned] at h
  | some direction =>
      simp only [hturned, Except.ok.injEq] at h
      exact ⟨direction, rfl, h.symm⟩

/-- A wobble is a rotation about world Z and then one about world X, both by the noise at the
place where the turtle stands. -/
theorem jitter_eq_ok {t next : Turtle α} (h : t.jitter = .ok next) :
    ∃ middle direction,
      turned? Vec3.worldZ (jitterDegrees t.position jitterAmplitude) t.orientation =
        some middle ∧
      turned? Vec3.worldX (jitterDegrees t.position jitterAmplitude) middle =
        some direction ∧
      next = { t with orientation := direction } := by
  unfold jitter at h
  cases hfirst : t.rotate Vec3.worldZ (jitterDegrees t.position jitterAmplitude) with
  | error stuck => simp [hfirst, bind, Except.bind] at h
  | ok half =>
      simp only [hfirst, bind, Except.bind] at h
      obtain ⟨middle, hmiddle, rfl⟩ := rotate_eq_ok hfirst
      obtain ⟨direction, hdirection, rfl⟩ := rotate_eq_ok h
      exact ⟨middle, direction, hmiddle, hdirection, rfl⟩

theorem turn_eq_ok {sign : α} {t next : Turtle α} (h : t.turn sign = .ok next) :
    ∃ frame middle direction,
      Frame.lookAt? t.position (t.position + t.orientation) = some frame ∧
      turned? frame.tangent (sign * turnDegrees * noise t.position) t.orientation =
        some middle ∧
      turned? frame.bitangent (sign * turnDegrees * noise t.position) middle =
        some direction ∧
      next = { t with orientation := direction } := by
  unfold turn at h
  cases hframe : Frame.lookAt? t.position (t.position + t.orientation) with
  | none => simp [hframe] at h
  | some frame =>
      simp only [hframe] at h
      cases hfirst : t.rotate frame.tangent (sign * turnDegrees * noise t.position) with
      | error stuck => simp [hfirst, bind, Except.bind] at h
      | ok half =>
          simp only [hfirst, bind, Except.bind] at h
          obtain ⟨middle, hmiddle, rfl⟩ := rotate_eq_ok hfirst
          obtain ⟨direction, hdirection, rfl⟩ := rotate_eq_ok h
          exact ⟨frame, middle, direction, rfl, hmiddle, hdirection, rfl⟩

end Turtle

namespace Pen

variable {α : Type} [Scalar α]

theorem jittered_eq_ok {t next : Turtle α} (h : jittered t = .ok next) :
    ∃ direction, next = { t with orientation := direction } := by
  obtain ⟨_, direction, _, _, hnext⟩ :=
    Turtle.jitter_eq_ok ((mapError_eq_ok _ _ _).mp h)
  exact ⟨direction, hnext⟩

theorem turned_eq_ok {sign : α} {t next : Turtle α} (h : turned sign t = .ok next) :
    ∃ direction, next = { t with orientation := direction } := by
  obtain ⟨_, _, direction, _, _, _, hnext⟩ :=
    Turtle.turn_eq_ok ((mapError_eq_ok _ _ _).mp h)
  exact ⟨direction, hnext⟩

theorem jittered_error {t : Turtle α} {e : GrowthError} (h : jittered t = .error e) :
    e = .noDirection := by
  unfold jittered at h
  cases hjitter : t.jitter with
  | error stuck => simpa [hjitter, mapError_error] using h.symm
  | ok next => simp [hjitter, mapError_ok] at h

theorem turned_error {sign : α} {t : Turtle α} {e : GrowthError}
    (h : turned sign t = .error e) : e = .noDirection := by
  unfold turned at h
  cases hturn : t.turn sign with
  | error stuck => simpa [hturn, mapError_error] using h.symm
  | ok next => simp [hturn, mapError_ok] at h

theorem aimed_error {wobble : Bool} {t : Turtle α} {e : GrowthError}
    (h : aimed wobble t = .error e) : e = .noDirection := by
  unfold aimed at h
  cases wobble with
  | false => simp [bind, Except.bind, pure, Except.pure] at h
  | true =>
      simp only [↓reduceIte] at h
      cases hjitter : jittered t with
      | error stuck =>
          obtain rfl : stuck = e := by simpa [hjitter, bind, Except.bind] using h
          exact jittered_error hjitter
      | ok next => simp [hjitter, bind, Except.bind, pure, Except.pure] at h

theorem record_error {t : Turtle α} {scale : Vec3 α} {color : Except ColorFault (Vec4 α)}
    {e : GrowthError} (h : record t scale color = .error e) :
    e = .noDirection ∨ ∃ fault, e = .badColor fault := by
  unfold record at h
  cases hquaternion : t.quaternion? with
  | none =>
      obtain rfl : GrowthError.noDirection = e := by simpa [hquaternion] using h
      exact Or.inl rfl
  | some rotation =>
      cases color with
      | error fault =>
          obtain rfl : GrowthError.badColor fault = e := by
            simpa [hquaternion, mapError_error, bind, Except.bind] using h
          exact Or.inr ⟨fault, rfl⟩
      | ok paint => simp [hquaternion, mapError_ok, bind, Except.bind, pure, Except.pure] at h

theorem exists_shaken_of_aimed {wobble : Bool} {t next : Turtle α}
    (h : aimed wobble t = .ok next) :
    ∃ shaken, (if wobble then jittered t else .ok t) = .ok shaken ∧
      next = shaken.lifted.shrunk := by
  unfold aimed at h
  cases wobble with
  | false =>
      simp only [Bool.false_eq_true, ↓reduceIte, bind, Except.bind, pure, Except.pure,
        Except.ok.injEq] at h
      exact ⟨t, rfl, h.symm⟩
  | true =>
      simp only [↓reduceIte] at h
      cases hjitter : jittered t with
      | error e => simp [hjitter, bind, Except.bind] at h
      | ok shaken =>
          simp only [hjitter, bind, Except.bind, pure, Except.pure, Except.ok.injEq] at h
          exact ⟨shaken, rfl, h.symm⟩

/-- Aiming moves no turtle: it sets the direction of the segment and shrinks the scale. -/
theorem aimed_eq_ok {wobble : Bool} {t next : Turtle α} (h : aimed wobble t = .ok next) :
    next.position = t.position ∧ next.scale = t.scale.scale 0.96 ∧ next.depth = t.depth := by
  obtain ⟨shaken, hshaken, rfl⟩ := exists_shaken_of_aimed h
  cases wobble with
  | false =>
      obtain rfl : t = shaken := by simpa using hshaken
      simp
  | true =>
      obtain ⟨direction, rfl⟩ := jittered_eq_ok hshaken
      simp

/-- A record stands where its turtle stands and is turned the turtle's way. -/
theorem record_eq_ok {t : Turtle α} {scale : Vec3 α} {color : Except ColorFault (Vec4 α)}
    {r : Instance α} (h : record t scale color = .ok r) :
    r.position = t.position ∧ t.quaternion? = some r.rotation ∧ r.scale = scale ∧
      color = .ok r.color := by
  unfold record at h
  cases hquaternion : t.quaternion? with
  | none => simp [hquaternion] at h
  | some rotation =>
      cases color with
      | error fault => simp [hquaternion, mapError_error, bind, Except.bind] at h
      | ok paint =>
          simp only [hquaternion, mapError_ok, bind, Except.bind, pure, Except.pure,
            Except.ok.injEq] at h
          subst r
          exact ⟨rfl, rfl, rfl, rfl⟩

end Pen
end Meristem
