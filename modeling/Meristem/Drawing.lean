import Meristem.Instances.Buffer
import Meristem.Rules.Basic
import Meristem.Turtle.Basic

/-!
Drawing a word. A turtle walks along the symbols and leaves a record for every visible segment
and leaf. A bracket group is walked by a copy of the turtle, which is given up at the end of the
group; the turtle that stays is thinned for the side branch it bore.

Drawing rules go first: a bracket or a sign with a drawing rule loses its own meaning. The first
segment at the bottom of the stack is drawn straight, every other one wobbles.
-/

namespace Meristem

/-- What a word is drawn with. A colour that is none is refused at the first record that needs
it. -/
structure Pen (α : Type) where
  rules : DrawingRules α
  branchColor : Except ColorFault (Vec4 α)
  leafColor : Except ColorFault (Vec4 α)

/-- The state between two symbols. Parents are the turtles that wait for the end of a group,
the innermost first. -/
structure Walk (α : Type) where
  current : Turtle α
  parents : List (Turtle α)
  branches : InstanceBuffer α
  leaves : InstanceBuffer α
  /-- Whether a segment has been drawn, anywhere in the plant. -/
  begun : Bool

namespace Turtle

variable {α : Type} [Arith α]

def minVisibleScale : α := 0.01

def minLeafDepth : Int := 3

/-- Above this depth a segment may not point down. -/
def droopDepth : Int := 7

def isVisible (t : Turtle α) : Bool := !decide (t.scale.y < minVisibleScale)

def bearsLeaf (t : Turtle α) : Bool := t.isVisible && decide (minLeafDepth ≤ t.depth)

/-- Turns a downward direction up again while the turtle is not deep enough to droop. -/
def lifted (t : Turtle α) : Turtle α :=
  if t.orientation.y < 0.0 ∧ t.depth < droopDepth then
    { t with orientation := { t.orientation with y := t.orientation.y * -1.0 } }
  else t

def shrunk (t : Turtle α) : Turtle α := { t with scale := t.scale.scale 0.96 }

/-- A side branch takes thickness from the branch it leaves. -/
def thinned (t : Turtle α) : Turtle α :=
  { t with scale := { t.scale with x := t.scale.x * 0.75, z := t.scale.z * 0.75 } }

def deeper (t : Turtle α) : Turtle α := { t with depth := t.depth + 1 }

end Turtle

variable {α σ : Type} [Scalar α] [DrawSource σ α]

/-- The rotation that turns the way up onto the turtle's direction. -/
def Turtle.quaternion? (t : Turtle α) : Option (Quat α) := Quat.between? Vec3.up t.orientation

namespace Pen

/-- The colours used when none are given: black branches and green leaves. -/
def plain (rules : DrawingRules α) : Pen α :=
  ⟨rules, .ok ⟨0.0, 0.0, 0.0, 1.0⟩, .ok ⟨0.0, 1.0, 0.0, 1.0⟩⟩

def leafScale : Vec3 α := ⟨0.4, 0.4, 0.4⟩

def jittered (t : Turtle α) : Except GrowthError (Turtle α) :=
  t.jitter.mapError fun _ => .noDirection

def turned (sign : α) (t : Turtle α) : Except GrowthError (Turtle α) :=
  (t.turn sign).mapError fun _ => .noDirection

/-- A record at the turtle. -/
def record (t : Turtle α) (scale : Vec3 α) (color : Except ColorFault (Vec4 α)) :
    Except GrowthError (Instance α) := do
  let some rotation := t.quaternion? | .error .noDirection
  let color ← color.mapError .badColor
  return ⟨t.position, rotation, scale, color⟩

/-- The turtle as it draws its next segment. -/
def aimed (wobble : Bool) (t : Turtle α) : Except GrowthError (Turtle α) := do
  let t ← if wobble then jittered t else .ok t
  return t.lifted.shrunk

def drawBranch (pen : Pen α) : Walk α → Except GrowthError (Walk α)
  | ⟨current, parents, branches, leaves, begun⟩ =>
    if current.isVisible then do
      let t ← aimed (!parents.isEmpty || begun) current
      let r ← record t t.scale pen.branchColor
      return ⟨t.move, parents, branches.append r, leaves, true⟩
    else .ok ⟨current, parents, branches, leaves, begun⟩

def drawLeaf (pen : Pen α) : Walk α → Except GrowthError (Walk α)
  | ⟨current, parents, branches, leaves, begun⟩ =>
    if current.bearsLeaf then do
      let r ← record current leafScale pen.leafColor
      return ⟨current, parents, branches, leaves.append r, begun⟩
    else .ok ⟨current, parents, branches, leaves, begun⟩

def act (pen : Pen α) : Action → Walk α → Except GrowthError (Walk α)
  | .branch, w => pen.drawBranch w
  | .leaf, w => pen.drawLeaf w
  | .nothing, w => .ok w

end Pen

namespace Walk

def start (root : Turtle α) : Walk α := ⟨root, [], .empty, .empty, false⟩

def openGroup : Walk α → Except GrowthError (Walk α)
  | ⟨current, parents, branches, leaves, begun⟩ => do
    let child ← Pen.jittered current.deeper
    return ⟨child, current.thinned :: parents, branches, leaves, begun⟩

def closeGroup (index : Nat) : Walk α → Except GrowthError (Walk α)
  | ⟨_, [], _, _, _⟩ => .error (.unmatchedClose index)
  | ⟨_, parent :: others, branches, leaves, begun⟩ =>
    .ok ⟨parent, others, branches, leaves, begun⟩

def turn (sign : α) : Walk α → Except GrowthError (Walk α)
  | ⟨current, parents, branches, leaves, begun⟩ => do
    let current ← Pen.turned sign current
    return ⟨current, parents, branches, leaves, begun⟩

/-- A symbol without a drawing rule: brackets and signs steer, all others do nothing. -/
def steer (index : Nat) (symbol : Symbol) (w : Walk α) : Except GrowthError (Walk α) :=
  if symbol = '[' then w.openGroup
  else if symbol = ']' then w.closeGroup index
  else if symbol = '+' then w.turn 1.0
  else if symbol = '-' then w.turn (-1.0)
  else .ok w

end Walk

namespace Pen

/-- The symbol at `index`. -/
def step (pen : Pen α) (index : Nat) (symbol : Symbol) (w : Walk α) (source : σ) :
    Except GrowthError (Walk α) × σ :=
  match pen.rules.choices? symbol with
  | some choices =>
    match choices.draw source with
    | (.error e, source) => (.error e, source)
    | (.ok action, source) => (pen.act action w, source)
  | none => (w.steer index symbol, source)

/-- The symbols from `index` on, up to the first error. -/
def walk (pen : Pen α) : Nat → Word → Walk α → σ → Except GrowthError (Walk α) × σ
  | _, [], w, source => (.ok w, source)
  | index, symbol :: rest, w, source =>
    match pen.step index symbol w source with
    | (.error e, source) => (.error e, source)
    | (.ok w, source) => pen.walk (index + 1) rest w source

/-- Every group must have ended. -/
def finish (symbols : Word) (w : Walk α) : Except GrowthError (Plant α) :=
  if w.parents = [] then .ok ⟨symbols, w.branches, w.leaves⟩
  else .error (.unmatchedOpen w.parents.length)

/-- Draws a word from `root` on. -/
def draw (pen : Pen α) (symbols : Word) (root : Turtle α) (source : σ) :
    Except GrowthError (Plant α) × σ :=
  match pen.walk 0 symbols (.start root) source with
  | (.error e, source) => (.error e, source)
  | (.ok w, source) => (finish symbols w, source)

end Pen
end Meristem
