import Meristem.Proofs.Brackets
import Meristem.Proofs.Drawing.Reading
import Meristem.Random.Generator

/-!
The stack of a walk is the recursion over the bracket tree of its word. `Bough.descend` draws a
tree by structural recursion: it is given one turtle, threads the records, the flag and the draws
through, and has no turtle wait anywhere. A walk over a balanced word gives what the descent of
its tree gives, on success and on failure, whatever turtles wait.
-/

namespace Meristem

variable {α σ : Type} [Scalar α] [DrawSource σ α]

/-- Reads a symbol that is no bracket. -/
def Pen.readStroke (pen : Pen α) (s : Symbol) (source : σ) : Except GrowthError Stroke × σ :=
  match pen.rules.choices? s with
  | some choices =>
    match choices.draw source with
    | (.error e, source) => (.error e, source)
    | (.ok action, source) => (.ok (.act action), source)
  | none => (.ok (.ofSymbol s), source)

/-- Draws a tree with the turtle of the sketch; `bottom` says that it is the first turtle of the
plant. A group is drawn by a copy of the turtle, one deeper and shaken, which is given up at its
end. The turtle itself goes on thinner and otherwise as it was. -/
def Bough.descend (pen : Pen α) (bottom : Bool) :
    Bough → Sketch α → σ → Except GrowthError (Sketch α) × σ
  | tip, k, source => (.ok k, source)
  | symbol s _ rest, k, source =>
    match pen.readStroke s source with
    | (.error e, source) => (.error e, source)
    | (.ok stroke, source) =>
      match k.stroke pen bottom stroke with
      | .error e => (.error e, source)
      | .ok k => rest.descend pen bottom k source
  | group inner rest, k, source =>
    match Pen.jittered k.turtle.deeper with
    | .error e => (.error e, source)
    | .ok child =>
      match inner.descend pen false { k with turtle := child } source with
      | (.error e, source) => (.error e, source)
      | (.ok drawn, source) =>
        rest.descend pen bottom { drawn with turtle := k.turtle.thinned } source

namespace Pen

variable (pen : Pen α)

theorem command_of_plain {s : Symbol} (plain : Symbol.bracket s = none) (source : σ) :
    pen.command s source =
      ((pen.readStroke s source).1.map .stroke, (pen.readStroke s source).2) := by
  unfold command readStroke
  cases pen.rules.choices? s with
  | none =>
      have hopen : s ≠ '[' := by
        rintro rfl
        exact absurd plain (by decide)
      have hclose : s ≠ ']' := by
        rintro rfl
        exact absurd plain (by decide)
      simp [Command.ofSymbol, hopen, hclose, Except.map]
  | some choices =>
      simp only
      cases choices.draw source with
      | mk result rest =>
          cases result with
          | error e => rfl
          | ok action => rfl

variable (hopen : pen.rules.choices? '[' = none) (hclose : pen.rules.choices? ']' = none)

include hopen in
/-- An opening bracket puts a shaken copy of the turtle to work and has the turtle wait, already
thinned. -/
theorem step_opening (index : Nat) (k : Sketch α) (parents : List (Turtle α)) (source : σ) :
    pen.step index '[' (k.atop parents) source =
      ((jittered k.turtle.deeper).map fun child =>
        Sketch.atop { k with turtle := child } (k.turtle.thinned :: parents), source) := by
  have hstep : pen.step index '[' (k.atop parents) source =
      ((k.atop parents).openGroup, source) := by
    simp [step, hopen, Walk.steer]
  rw [hstep]
  simp only [Sketch.atop, Walk.openGroup]
  cases jittered k.turtle.deeper with
  | error e => rfl
  | ok child => rfl

include hclose in
/-- A closing bracket puts the turtle that waits last back to work. -/
theorem step_closing (index : Nat) (k : Sketch α) (parent : Turtle α)
    (parents : List (Turtle α)) (source : σ) :
    pen.step index ']' (k.atop (parent :: parents)) source =
      (.ok (Sketch.atop { k with turtle := parent } parents), source) := by
  have hother : CodePoint.ofChar ']' ≠ CodePoint.ofChar '[' := by decide
  simp [step, hclose, Walk.steer, hother, Sketch.atop, Walk.closeGroup]

include hopen hclose in
/-- The induction is over the tree, for every stack below it: a group's content is drawn over a
stack that is one higher, and the closing bracket takes off what the opening one put there. -/
theorem walk_word_eq_descend (tree : Bough) (index : Nat) (k : Sketch α)
    (parents : List (Turtle α)) (source : σ) :
    pen.walk index tree.word (k.atop parents) source =
      ((tree.descend pen parents.isEmpty k source).1.map (·.atop parents),
        (tree.descend pen parents.isEmpty k source).2) := by
  induction tree generalizing index k parents source with
  | tip => rfl
  | symbol s plain rest ih =>
      simp only [Bough.word, walk, step_eq, pen.command_of_plain plain, Bough.descend]
      cases pen.readStroke s source with
      | mk result next =>
          cases result with
          | error e => rfl
          | ok stroke =>
              simp only [Except.map, obey, Sketch.sketch_atop, Sketch.atop_parents]
              cases k.stroke pen parents.isEmpty stroke with
              | error e => rfl
              | ok drawn => exact ih _ _ _ _
  | group inner rest ihInner ihRest =>
      simp only [Bough.word, walk, Bough.descend, pen.step_opening hopen]
      cases jittered k.turtle.deeper with
      | error e => rfl
      | ok child =>
          simp only [Except.map, walk_append, ihInner, List.isEmpty_cons]
          cases inner.descend pen false { k with turtle := child } source with
          | mk result next =>
              cases result with
              | error e => rfl
              | ok drawn =>
                  simp only [walk, pen.step_closing hclose]
                  exact ihRest _ _ _ _

end Pen
end Meristem
