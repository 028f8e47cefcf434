import Meristem.Instances.Buffer
import Mathlib.Data.List.Induction

/-!
What a buffer holds after any number of records were added to it.
-/

namespace Meristem

/-- What a record adds to a column. -/
def Instance.row {α : Type} [Arith α] (r : Instance α) : Column → Vec4 α
  | .translate => InstanceBuffer.paddedPosition r.position
  | .rotate => r.rotation
  | .scale => InstanceBuffer.paddedScale r.scale
  | .color => r.color

namespace InstanceBuffer

variable {α : Type}

theorem pushVec4_toList (data : Array α) (v : Vec4 α) :
    (pushVec4 data v).toList = data.toList ++ v.toList := by
  simp [pushVec4, Vec4.toList]

theorem pushVec4_injective {data : Array α} {v u : Vec4 α}
    (h : pushVec4 data v = pushVec4 data u) : v = u := by
  have hlist := congrArg Array.toList h
  simp only [pushVec4_toList, List.append_cancel_left_eq, Vec4.toList, List.cons.injEq,
    and_true] at hlist
  obtain ⟨hx, hy, hz, hw⟩ := hlist
  exact Vec4.ext hx hy hz hw

variable [Arith α]

/-- The buffer that holds these records. -/
def ofList (records : List (Instance α)) : InstanceBuffer α := records.foldl append empty

@[simp] theorem ofList_nil : ofList ([] : List (Instance α)) = empty := rfl

theorem ofList_concat (records : List (Instance α)) (r : Instance α) :
    ofList (records ++ [r]) = (ofList records).append r := by
  simp [ofList]

@[simp] theorem append_count (b : InstanceBuffer α) (r : Instance α) :
    (b.append r).count = b.count + 1 := rfl

theorem append_ne_self (b : InstanceBuffer α) (r : Instance α) : b.append r ≠ b := by
  intro h
  have hcount := congrArg InstanceBuffer.count h
  rw [append_count] at hcount
  omega

/-- A record can be read off the buffer it was added to. -/
theorem append_injective {b : InstanceBuffer α} {r s : Instance α}
    (h : b.append r = b.append s) : r = s := by
  obtain ⟨translate, rotate, scale, color, count⟩ := b
  simp only [append, mk.injEq, and_true] at h
  obtain ⟨hposition, hrotation, hscale, hcolor⟩ := h
  have hplace := pushVec4_injective hposition
  have hsize := pushVec4_injective hscale
  simp only [paddedPosition, Vec4.mk.injEq, and_true] at hplace
  simp only [paddedScale, Vec4.mk.injEq, and_true] at hsize
  obtain ⟨position, rotation, size, paint⟩ := r
  simp only at hplace hsize hrotation hcolor
  obtain rfl := pushVec4_injective hrotation
  obtain rfl := pushVec4_injective hcolor
  obtain rfl : position = s.position := Vec3.ext hplace.1 hplace.2.1 hplace.2.2
  obtain rfl : size = s.scale := Vec3.ext hsize.1 hsize.2.1 hsize.2.2
  rfl

theorem ofList_count (records : List (Instance α)) :
    (ofList records).count = records.length := by
  induction records using List.reverseRecOn with
  | nil => rfl
  | append_singleton records r ih => simp [ofList_concat, ih]

theorem append_column (b : InstanceBuffer α) (r : Instance α) (c : Column) :
    (b.append r).column c = pushVec4 (b.column c) (r.row c) := by
  cases c with
  | translate => rfl
  | rotate => rfl
  | scale => rfl
  | color => rfl

theorem ofList_column (records : List (Instance α)) (c : Column) :
    ((ofList records).column c).toList = records.flatMap fun r => (r.row c).toList := by
  induction records using List.reverseRecOn with
  | nil =>
      cases c with
      | translate => rfl
      | rotate => rfl
      | scale => rfl
      | color => rfl
  | append_singleton records r ih =>
      rw [ofList_concat, append_column, pushVec4_toList, ih]
      simp

end InstanceBuffer

end Meristem
