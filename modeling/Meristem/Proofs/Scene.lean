import Mathlib.Algebra.Ring.Nat
import Meristem.Proofs.Instances
import Meristem.Proofs.Turtle
import Meristem.Scene.Log

/-!
What a viewer is sent for the records of a buffer. The columns are cut into rows again, one for each
record, in the order of the records. The arrows are made from these rows, long after the turtle that
left the records is gone: an arrow starts at the position of its record, and goes the way that the
record's rotation turns the way up, as far as the record's scale says.
-/

namespace Meristem
namespace InstanceBuffer

theorem fitsSigned_natCast {n : Nat} (h : n < 2 ^ 63) : fitsSigned n = true := by
  have hpow : Int.pow 2 63 = 2 ^ 63 := rfl
  simp only [fitsSigned, hpow, Bool.and_eq_true, decide_eq_true_eq]
  omega

section Rows

variable {α : Type}

theorem rowsOfFour_flatMap {β : Type} (f : β → Vec4 α) (xs : List β) :
    rowsOfFour (xs.flatMap fun x => (f x).toList) = xs.map f := by
  induction xs with
  | nil => rfl
  | cons x xs ih =>
      have hstep : rowsOfFour ((f x).toList ++ xs.flatMap fun x => (f x).toList) =
          f x :: rowsOfFour (xs.flatMap fun x => (f x).toList) := rfl
      rw [List.flatMap_cons, hstep, ih, List.map_cons]

variable {b : InstanceBuffer α} {records : List (Column → Vec4 α)}

/-- The buffer is made of records, each of which has one row in every column. -/
def Holds (b : InstanceBuffer α) (records : List (Column → Vec4 α)) : Prop :=
  b.count = records.length ∧
    ∀ c, (b.column c).toList = records.flatMap fun r => (r c).toList

theorem Holds.size_eq (h : b.Holds records) (c : Column) :
    (b.column c).size = 4 * records.length := by
  rw [← Array.length_toList, h.2 c, List.length_flatMap]
  simp [Vec4.toList, List.map_const', Nat.mul_comm]

variable [Scalar α]

theorem holds_ofList (records : List (Instance α)) :
    (ofList records).Holds (records.map Instance.row) := by
  constructor
  · rw [ofList_count, List.length_map]
  · intro c
    rw [ofList_column, List.flatMap_map]

/-- The row of a record in a column, as it is sent. -/
def sentRow (r : Column → Vec4 α) (c : Column) : Vec4 α := (r c).map Scalar.single

/-- A column is cut into the rows of the records again, unless there are too many of them. -/
theorem Holds.matrix (h : b.Holds records) (c : Column) :
    b.matrix c =
      if fitsSigned records.length = true then
        .ok (records.map (sentRow · c))
      else .error .tooManyRows := by
  have hrow (r : Column → Vec4 α) :
      (r c).toList.map Scalar.single = (sentRow r c).toList := rfl
  have hflat : (b.flat c).toList = records.flatMap fun r => (sentRow r c).toList := by
    simp only [flat, Array.toList_map, h.2 c, List.map_flatMap, hrow]
  have hsize : ((b.flat c).size : Int) = 4 * records.length := by
    rw [flat, Array.size_map, h.size_eq c]
    push_cast
    rfl
  have hcount : ¬ (records.length : Int) < 0 := by omega
  simp only [InstanceBuffer.matrix, rows, h.1, hcount, ↓reduceIte, hsize, decide_true, hflat,
    rowsOfFour_flatMap]
  cases fitsSigned records.length with
  | true => rfl
  | false => rfl

/-- A column makes rows only where it fits the count. -/
theorem size_of_matrix {c : Column} {rows : List (Vec4 α)} {n : Nat} (hcount : b.count = n)
    (h : b.matrix c = .ok rows) : (b.column c).size = 4 * n := by
  have hnonneg : ¬(n : Int) < 0 := by omega
  have hsize : (b.flat c).size = (b.column c).size := by simp [flat]
  simp only [InstanceBuffer.matrix, InstanceBuffer.rows, hcount, hnonneg, ↓reduceIte, hsize] at h
  split at h
  · cases h
  · split at h
    · rename_i hfits
      simp only [decide_eq_true_eq] at hfits
      omega
    · cases h

end Rows

section Arrows

variable {α : Type} [Scalar α] {b : InstanceBuffer α} {records : List (Column → Vec4 α)}

/-- The way that the rotation of a record turns the way up. -/
def sentDirection (r : Column → Vec4 α) : Vec3 α :=
  Quat.apply ((sentRow r .rotate).divide (sentRow r .rotate).norm) Vec3.up

/-- How the arrow of a record goes: in its direction, as far as the second component of its scale
says. -/
def sentArrow (r : Column → Vec4 α) : Vec3 α :=
  let v := (sentDirection r).scale (sentRow r .scale).y
  ⟨Scalar.single v.x, Scalar.single v.y, Scalar.single v.z⟩

/-- The rows of records whose directions can be told. -/
def sentRows (records : List (Column → Vec4 α)) : Rows α where
  positions := records.map (sentRow · .translate)
  colors := records.map (sentRow · .color)
  scales := records.map (sentRow · .scale)
  rotations := records.map (sentRow · .rotate)
  directions := records.map sentDirection

theorem arrows_sentRows (records : List (Column → Vec4 α)) :
    (sentRows records).arrows =
      .ok ⟨records.map fun r => (sentRow r .translate).xyz, records.map sentArrow⟩ := by
  simp only [Rows.arrows, sentRows, stretched?, List.length_map, ↓reduceIte, List.zipWith_map,
    List.zipWith_self, List.map_map]
  rfl

theorem growthDirection?_sentRow (r : Column → Vec4 α) :
    growthDirection? (sentRow r .rotate) =
      if 0.0 < (sentRow r .rotate).norm then some (sentDirection r) else none := rfl

/-- One rotation without a length keeps all directions from being told. -/
theorem mapM_growthDirection? (records : List (Column → Vec4 α)) :
    (records.map (sentRow · .rotate)).mapM growthDirection? =
      if ∀ r ∈ records, 0.0 < (sentRow r .rotate).norm then some (records.map sentDirection)
      else none := by
  induction records with
  | nil => rfl
  | cons r records ih =>
      have hcons : (∀ s ∈ r :: records, 0.0 < (sentRow s .rotate).norm) ↔
          0.0 < (sentRow r .rotate).norm ∧ ∀ s ∈ records, 0.0 < (sentRow s .rotate).norm :=
        List.forall_mem_cons
      rw [List.map_cons, List.mapM_cons, growthDirection?_sentRow, ih]
      by_cases hfirst : 0.0 < (sentRow r .rotate).norm
      · by_cases hrest : ∀ s ∈ records, 0.0 < (sentRow s .rotate).norm
        · rw [if_pos hfirst, if_pos hrest, if_pos (hcons.mpr ⟨hfirst, hrest⟩)]
          rfl
        · rw [if_pos hfirst, if_neg hrest, if_neg fun h => hrest (hcons.mp h).2]
          rfl
      · rw [if_neg hfirst, if_neg fun h => hfirst (hcons.mp h).1]
        rfl

/-- The rows of the records are read off in their order. -/
theorem Holds.rowsOf (h : b.Holds records) :
    b.rowsOf =
      if fitsSigned records.length = true then
        if ∀ r ∈ records, 0.0 < (sentRow r .rotate).norm then .ok (sentRows records)
        else .error .zeroRotation
      else .error (.shape .tooManyRows) := by
  simp only [InstanceBuffer.rowsOf, h.matrix]
  cases fitsSigned records.length with
  | false => rfl
  | true =>
      simp only [↓reduceIte, mapError_ok, bind, Except.bind, pure, Except.pure,
        mapM_growthDirection?]
      by_cases hturns : ∀ r ∈ records, 0.0 < (sentRow r .rotate).norm
      · rw [if_pos hturns, if_pos hturns]
        rfl
      · rw [if_neg hturns, if_neg hturns]

end Arrows

end InstanceBuffer
end Meristem
