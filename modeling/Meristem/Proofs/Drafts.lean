import Mathlib.Algebra.Ring.Nat
import Meristem.Instances.Document
import Meristem.Proofs.NumberArray
import Meristem.Proofs.Scene

/-!
Records that are handed to a buffer as documents. A draft is one of four documents; it is taken
apart before anything is stored, and that is meant to leave the buffer alone when a draft is
refused. It does, but for one kind of draft: where each part is long enough, but a rotation, scale
or colour is made of rows instead of numbers, the rows are found out only when the columns before it
have been extended. Such a draft is torn. A buffer keeps its columns in line exactly as long as no
torn draft is handed to it.
-/

namespace Meristem

namespace NumberArray

def vec4? (a : NumberArray) : Option (Vec4 Float) :=
  match a with
  | ⟨[4], [x, y, z, w]⟩ => some ⟨x, y, z, w⟩
  | _ => none

theorem assembles_three : Assembles 3 Vec3.ofList InstanceBuffer.numbers3 vec3? where
  other := by
    intro rows h
    match rows with
    | [] | [_] | [_, _] | _ :: _ :: _ :: _ :: _ => exact ⟨_, rfl⟩
    | [_, _, _] => exact absurd rfl h
  shape := by
    intro a h
    unfold vec3?
    split
    · exact absurd rfl h
    · rfl
  row := by
    intro entries h
    obtain ⟨x, y, z, rfl⟩ := List.length_eq_three.mp h
    exact ⟨_, _, rfl, rfl, rfl⟩
  axes := fun _ _ _ => ⟨_, rfl, rfl⟩

theorem assembles_four : Assembles 4 Vec4.ofList InstanceBuffer.numbers4 vec4? where
  other := by
    intro rows h
    match rows with
    | [] | [_] | [_, _] | [_, _, _] | _ :: _ :: _ :: _ :: _ :: _ => exact ⟨_, rfl⟩
    | [_, _, _, _] => exact absurd rfl h
  shape := by
    intro a h
    unfold vec4?
    split
    · exact absurd rfl h
    · rfl
  row := by
    intro entries h
    match entries with
    | [x, y, z, w] => exact ⟨_, _, rfl, rfl, rfl⟩
  axes := fun _ _ _ => ⟨_, rfl, rfl⟩

end NumberArray

open NumberArray

/-- A record as it is handed in. -/
structure Draft where
  translate : Document
  rotation : Document
  scale : Document
  color : Document

namespace Draft

/-- The record that a draft is, if each of its parts is made of as many numbers as it should be. -/
def record? (d : Draft) : Option (Instance Float) := do
  let position ← d.translate.array? vec3?
  let rotation ← d.rotation.array? vec4?
  let scale ← d.scale.array? vec3?
  let color ← d.color.array? vec4?
  return ⟨position, rotation, scale, color⟩

/-- Whether a draft comes apart. -/
def ComesApart (d : Draft) : Prop :=
  d.translate.Splits 3 ∧ d.scale.Splits 3 ∧ d.rotation.Splits 4 ∧ d.color.Splits 4

/-- Whether a draft comes apart and has a position made of numbers, but rows in the place of
numbers elsewhere. -/
def Torn (d : Draft) : Prop :=
  d.ComesApart ∧ d.translate.IsRow 3 ∧
    ¬(d.rotation.IsRow 4 ∧ d.scale.IsRow 3 ∧ d.color.IsRow 4)

theorem record?_eq_none {d : Draft} (h : ¬(d.translate.IsRow 3 ∧ d.rotation.IsRow 4 ∧
    d.scale.IsRow 3 ∧ d.color.IsRow 4)) : d.record? = none := by
  unfold record?
  by_cases htranslate : d.translate.IsRow 3
  · by_cases hrotation : d.rotation.IsRow 4
    · by_cases hscale : d.scale.IsRow 3
      · have hcolor : ¬d.color.IsRow 4 := fun hcolor => h ⟨htranslate, hrotation, hscale, hcolor⟩
        simp [assembles_four.array?_eq_none hcolor]
      · simp [assembles_three.array?_eq_none hscale]
    · simp [assembles_four.array?_eq_none hrotation]
  · simp [assembles_three.array?_eq_none htranslate]

theorem Torn.record? {d : Draft} (h : d.Torn) : d.record? = none :=
  record?_eq_none fun hrows => h.2.2 hrows.2

end Draft

namespace InstanceBuffer

/-- The records of the drafts that are taken. -/
def records (drafts : List Draft) : List (Instance Float) := drafts.filterMap Draft.record?

end InstanceBuffer
end Meristem
