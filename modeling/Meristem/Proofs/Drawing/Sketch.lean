import Meristem.Proofs.Turtle

/-!
Drawing without a stack. A symbol that is no bracket concerns the turtle at work and the records
made so far; of the turtles that wait it only has to be known whether there are any. What it
does is said here once, and the step of a walk does the same under any stack.
-/

namespace Meristem

/-- What a symbol that is no bracket makes the turtle do. -/
inductive Stroke where
  | act (action : Action)
  /-- A turn by the full angle, or by its negative. -/
  | turn (positive : Bool)
  | rest
deriving DecidableEq, Repr

/-- The stroke of a symbol that is no bracket and has no drawing rule. -/
def Stroke.ofSymbol (s : Symbol) : Stroke :=
  if s = '+' then .turn true
  else if s = '-' then .turn false
  else .rest

/-- The turtle at work and the records made so far. -/
structure Sketch (α : Type) where
  turtle : Turtle α
  branches : InstanceBuffer α
  leaves : InstanceBuffer α
  begun : Bool

/-- A walk without the turtles that wait. -/
def Walk.sketch {α : Type} (w : Walk α) : Sketch α :=
  ⟨w.current, w.branches, w.leaves, w.begun⟩

namespace Sketch

section Atop

variable {α : Type}

/-- The walk that has `parents` wait while it draws. -/
def atop (k : Sketch α) (parents : List (Turtle α)) : Walk α :=
  ⟨k.turtle, parents, k.branches, k.leaves, k.begun⟩

@[simp] theorem atop_current (k : Sketch α) (parents : List (Turtle α)) :
    (k.atop parents).current = k.turtle := rfl
@[simp] theorem atop_parents (k : Sketch α) (parents : List (Turtle α)) :
    (k.atop parents).parents = parents := rfl
@[simp] theorem atop_branches (k : Sketch α) (parents : List (Turtle α)) :
    (k.atop parents).branches = k.branches := rfl
@[simp] theorem atop_leaves (k : Sketch α) (parents : List (Turtle α)) :
    (k.atop parents).leaves = k.leaves := rfl
@[simp] theorem atop_begun (k : Sketch α) (parents : List (Turtle α)) :
    (k.atop parents).begun = k.begun := rfl
@[simp] theorem sketch_atop (k : Sketch α) (parents : List (Turtle α)) :
    (k.atop parents).sketch = k := rfl
@[simp] theorem atop_sketch (w : Walk α) : w.sketch.atop w.parents = w := rfl

end Atop

variable {α : Type} [Scalar α] (pen : Pen α) (bottom : Bool)

/-- Draws a segment, unless the turtle is too small to be seen. The first segment of the plant
is drawn straight if the turtle at the bottom draws it. -/
def branch (k : Sketch α) : Except GrowthError (Sketch α) :=
  if k.turtle.isVisible then do
    let t ← Pen.aimed (!bottom || k.begun) k.turtle
    let r ← Pen.record t t.scale pen.branchColor
    return { k with turtle := t.move, branches := k.branches.append r, begun := true }
  else .ok k

def leaf (k : Sketch α) : Except GrowthError (Sketch α) :=
  if k.turtle.bearsLeaf then do
    let r ← Pen.record k.turtle Pen.leafScale pen.leafColor
    return { k with leaves := k.leaves.append r }
  else .ok k

def turn (positive : Bool) (k : Sketch α) : Except GrowthError (Sketch α) := do
  let turtle ← Pen.turned (if positive then 1.0 else -1.0) k.turtle
  return { k with turtle }

/-- Does what a symbol asks for; `bottom` says that no turtle waits. -/
def stroke : Stroke → Sketch α → Except GrowthError (Sketch α)
  | .act .branch, k => k.branch pen bottom
  | .act .leaf, k => k.leaf pen
  | .act .nothing, k => .ok k
  | .turn positive, k => k.turn positive
  | .rest, k => .ok k

variable {pen bottom}

theorem branch_eq_ok {k next : Sketch α} (h : k.branch pen bottom = .ok next) :
    (k.turtle.isVisible = false ∧ next = k) ∨
      (k.turtle.isVisible = true ∧ ∃ t r,
        Pen.aimed (!bottom || k.begun) k.turtle = .ok t ∧
        Pen.record t t.scale pen.branchColor = .ok r ∧
        next = ⟨t.move, k.branches.append r, k.leaves, true⟩) := by
  unfold branch at h
  cases hvisible : k.turtle.isVisible with
  | false =>
      simp only [hvisible, Bool.false_eq_true, ↓reduceIte, Except.ok.injEq] at h
      exact Or.inl ⟨rfl, h.symm⟩
  | true =>
      simp only [hvisible, ↓reduceIte] at h
      cases haimed : Pen.aimed (!bottom || k.begun) k.turtle with
      | error e => simp [haimed, bind, Except.bind] at h
      | ok t =>
          cases hrecord : Pen.record t t.scale pen.branchColor with
          | error e => simp [haimed, hrecord, bind, Except.bind] at h
          | ok r =>
              simp only [haimed, hrecord, bind, Except.bind, pure, Except.pure,
                Except.ok.injEq] at h
              exact Or.inr ⟨rfl, t, r, rfl, hrecord, h.symm⟩

theorem leaf_eq_ok {k next : Sketch α} (h : k.leaf pen = .ok next) :
    (k.turtle.bearsLeaf = false ∧ next = k) ∨
      (k.turtle.bearsLeaf = true ∧ ∃ r,
        Pen.record k.turtle Pen.leafScale pen.leafColor = .ok r ∧
        next = { k with leaves := k.leaves.append r }) := by
  unfold leaf at h
  cases hbears : k.turtle.bearsLeaf with
  | false =>
      simp only [hbears, Bool.false_eq_true, ↓reduceIte, Except.ok.injEq] at h
      exact Or.inl ⟨rfl, h.symm⟩
  | true =>
      simp only [hbears, ↓reduceIte] at h
      cases hrecord : Pen.record k.turtle Pen.leafScale pen.leafColor with
      | error e => simp [hrecord, bind, Except.bind] at h
      | ok r =>
          simp only [hrecord, bind, Except.bind, pure, Except.pure, Except.ok.injEq] at h
          exact Or.inr ⟨rfl, r, rfl, h.symm⟩

theorem turn_eq_ok {positive : Bool} {k next : Sketch α} (h : k.turn positive = .ok next) :
    ∃ direction, next = { k with turtle := { k.turtle with orientation := direction } } := by
  unfold turn at h
  cases hturned : Pen.turned (if positive then 1.0 else -1.0) k.turtle with
  | error e => simp [hturned, bind, Except.bind] at h
  | ok turtle =>
      simp only [hturned, bind, Except.bind, pure, Except.pure, Except.ok.injEq] at h
      obtain ⟨direction, rfl⟩ := Pen.turned_eq_ok hturned
      exact ⟨direction, h.symm⟩

/-- A stroke fails for want of a direction or of a colour. -/
theorem stroke_error {s : Stroke} {k : Sketch α} {e : GrowthError}
    (h : k.stroke pen bottom s = .error e) :
    e = .noDirection ∨ ∃ fault, e = .badColor fault := by
  cases s with
  | act action =>
      cases action with
      | branch =>
          simp only [stroke, branch] at h
          split at h
          · cases haimed : Pen.aimed (!bottom || k.begun) k.turtle with
            | error stuck =>
                obtain rfl : stuck = e := by simpa [haimed, bind, Except.bind] using h
                exact Or.inl (Pen.aimed_error haimed)
            | ok t =>
                cases hrecord : Pen.record t t.scale pen.branchColor with
                | error stuck =>
                    obtain rfl : stuck = e := by simpa [haimed, hrecord, bind, Except.bind] using h
                    exact Pen.record_error hrecord
                | ok r => simp [haimed, hrecord, bind, Except.bind, pure, Except.pure] at h
          · simp at h
      | leaf =>
          simp only [stroke, leaf] at h
          split at h
          · cases hrecord : Pen.record k.turtle Pen.leafScale pen.leafColor with
            | error stuck =>
                obtain rfl : stuck = e := by simpa [hrecord, bind, Except.bind] using h
                exact Pen.record_error hrecord
            | ok r => simp [hrecord, bind, Except.bind, pure, Except.pure] at h
          · simp at h
      | nothing => simp [stroke] at h
  | turn positive =>
      simp only [stroke, turn] at h
      cases hturned : Pen.turned (if positive then 1.0 else -1.0) k.turtle with
      | error stuck =>
          obtain rfl : stuck = e := by simpa [hturned, bind, Except.bind] using h
          exact Or.inl (Pen.turned_error hturned)
      | ok next => simp [hturned, bind, Except.bind, pure, Except.pure] at h
  | rest => simp [stroke] at h

/-- Only a branch action changes more of the turtle than its direction. -/
theorem stroke_frame {s : Stroke} (hs : s ≠ .act .branch) {k next : Sketch α}
    (h : k.stroke pen bottom s = .ok next) :
    next.turtle.position = k.turtle.position ∧ next.turtle.scale = k.turtle.scale ∧
      next.turtle.depth = k.turtle.depth := by
  cases s with
  | act action =>
      cases action with
      | branch => exact absurd rfl hs
      | leaf =>
          rcases leaf_eq_ok h with ⟨-, rfl⟩ | ⟨-, r, -, rfl⟩
          · exact ⟨rfl, rfl, rfl⟩
          · exact ⟨rfl, rfl, rfl⟩
      | nothing =>
          obtain rfl : k = next := by simpa [stroke] using h
          exact ⟨rfl, rfl, rfl⟩
  | turn positive =>
      obtain ⟨direction, rfl⟩ := turn_eq_ok h
      exact ⟨rfl, rfl, rfl⟩
  | rest =>
      obtain rfl : k = next := by simpa [stroke] using h
      exact ⟨rfl, rfl, rfl⟩

end Sketch

namespace Pen

variable {α : Type} [Scalar α]

/-- The actions of a walk are strokes of the turtle at work; the turtles that wait stay as they
are. -/
theorem act_atop (pen : Pen α) (action : Action) (k : Sketch α) (parents : List (Turtle α)) :
    pen.act action (k.atop parents) =
      (k.stroke pen parents.isEmpty (.act action)).map (·.atop parents) := by
  cases action with
  | branch =>
      simp only [act, Sketch.stroke, Sketch.branch, Sketch.atop, drawBranch]
      by_cases hvisible : k.turtle.isVisible = true
      · simp only [hvisible, ↓reduceIte]
        cases aimed (!parents.isEmpty || k.begun) k.turtle with
        | error e => rfl
        | ok t =>
            simp only [bind, Except.bind]
            cases record t t.scale pen.branchColor with
            | error e => rfl
            | ok r => rfl
      · simp only [hvisible, Bool.false_eq_true, ↓reduceIte]
        rfl
  | leaf =>
      simp only [act, Sketch.stroke, Sketch.leaf, Sketch.atop, drawLeaf]
      by_cases hbears : k.turtle.bearsLeaf = true
      · simp only [hbears, ↓reduceIte]
        cases record k.turtle leafScale pen.leafColor with
        | error e => rfl
        | ok r => rfl
      · simp only [hbears, Bool.false_eq_true, ↓reduceIte]
        rfl
  | nothing => rfl

theorem turn_atop (pen : Pen α) (positive : Bool) (k : Sketch α) (parents : List (Turtle α)) :
    Walk.turn (if positive then 1.0 else -1.0) (k.atop parents) =
      (k.stroke pen parents.isEmpty (.turn positive)).map (·.atop parents) := by
  simp only [Walk.turn, Sketch.stroke, Sketch.turn, Sketch.atop]
  cases turned (if positive then 1.0 else -1.0) k.turtle with
  | error e => rfl
  | ok turtle => rfl

end Pen
end Meristem
