import Meristem.Proofs.Drawing.Run
import Meristem.Proofs.Rounded.Order
import Meristem.Proofs.Scene

/-!
How a buffer is sent as a whole. Whatever is wrong with it is found before anything is sent, and
what is sent is made row by row: the point, the arrow and the pose in one place of their lists come
from the record in that place and from no other. A record is wrong when its rotation has no length,
and that is so not only for a length of zero but also for one that is no number.
-/

namespace Meristem

/-- A rotation that gives no direction. -/
def Quat.IsVoid (q : Quat Float) : Prop := (q.norm == 0.0) = true ∨ q.norm.isNaN = true

theorem Quat.isVoid_iff {q : Quat Float} : Quat.IsVoid q ↔ ¬ (0.0 : Float) < q.norm :=
  not_zero_lt_sqrt.symm

namespace InstanceBuffer

section Records

variable {α : Type} {b : InstanceBuffer α}

theorem flatMap_rowsOfFour (n : Nat) (xs : List α) (h : xs.length = 4 * n) :
    (rowsOfFour xs).length = n ∧ (rowsOfFour xs).flatMap Vec4.toList = xs := by
  induction n generalizing xs with
  | zero =>
      obtain rfl := List.length_eq_zero_iff.mp h
      exact ⟨rfl, rfl⟩
  | succ n ih =>
      match xs, h with
      | x :: y :: z :: w :: rest, h =>
          simp only [List.length_cons] at h
          obtain ⟨hlength, hrest⟩ := ih rest (by omega)
          exact ⟨by rw [rowsOfFour, List.length_cons, hlength],
            by rw [rowsOfFour, List.flatMap_cons, hrest]; rfl⟩

/-- Columns of the right length are made of records. -/
theorem exists_holds (hcount : 0 ≤ b.count)
    (h : ∀ c, ((b.column c).size : Int) = 4 * b.count) : ∃ records, b.Holds records := by
  obtain ⟨n, hn⟩ := Int.eq_ofNat_of_zero_le hcount
  have hrows (c : Column) := flatMap_rowsOfFour n (b.column c).toList (by
    have hsize := h c
    rw [Array.length_toList]
    omega)
  let row (c : Column) (i : Fin n) : Vec4 α :=
    (rowsOfFour (b.column c).toList).get (i.cast (hrows c).1.symm)
  have hcolumn (c : Column) : List.ofFn (row c) = rowsOfFour (b.column c).toList := by
    apply List.ext_get
    · rw [List.length_ofFn, (hrows c).1]
    · intro i hi hi'
      simp [row]
  refine ⟨List.ofFn fun i c => row c i, by rw [hn, List.length_ofFn], fun c => ?_⟩
  rw [← (hrows c).2, ← hcolumn c, List.flatMap_def, List.flatMap_def, List.map_ofFn, List.map_ofFn]
  rfl

end Records

section Sending

def sentPoints (radius : Float) (records : List (Column → Vec4 Float)) : Entity :=
  .points (records.map fun r => (sentRow r .translate).xyz)
    (records.map fun r => radiusOf radius (sentRow r .scale))
    (records.map fun r => packedColor (sentRow r .color))

def sentArrows (records : List (Column → Vec4 Float)) : Entity :=
  .arrows (records.map sentArrow) (records.map fun r => (sentRow r .translate).xyz)
    (records.map fun r => packedColor (sentRow r .color))

def sentPoses (records : List (Column → Vec4 Float)) : Entity :=
  .poses (records.map fun r => (sentRow r .translate).xyz) (records.map fun r => sentRow r .rotate)
    (records.map fun r => (sentRow r .scale).xyz)

variable {b : InstanceBuffer Float} {records : List (Column → Vec4 Float)}

/-- One rotation without a direction keeps everything from being sent. -/
theorem Holds.log_of_isVoid (h : b.Holds records) (hcount : b.count ≠ 0)
    (hfew : records.length < 2 ^ 63) {r : Column → Vec4 Float} (hr : r ∈ records)
    (hvoid : Quat.IsVoid (sentRow r .rotate)) (path : Text) (radius : Float) :
    b.log path radius = ⟨[], some .zeroRotation⟩ := by
  have hrows : b.rowsOf = .error .zeroRotation := by
    rw [h.rowsOf, if_pos (fitsSigned_natCast hfew), if_neg]
    intro hturns
    exact Quat.isVoid_iff.mp hvoid (hturns r hr)
  simp [log, hcount, hrows]

theorem Holds.log_of_not_isVoid (h : b.Holds records) (hcount : b.count ≠ 0)
    (hfew : records.length < 2 ^ 63) (hturns : ∀ r ∈ records, ¬ Quat.IsVoid (sentRow r .rotate))
    (path : Text) (radius : Float) :
    b.log path radius =
      ⟨[(pathBelow path "points", sentPoints radius records),
        (pathBelow path "directions", sentArrows records),
        (pathBelow path "poses", sentPoses records)], none⟩ := by
  have hrows : b.rowsOf = .ok (sentRows records) := by
    rw [h.rowsOf, if_pos (fitsSigned_natCast hfew), if_pos]
    intro r hr
    exact not_not.mp (mt Quat.isVoid_iff.mpr (hturns r hr))
  simp only [log, hcount, ↓reduceIte, hrows, arrows_sentRows]
  simp only [sentRows, List.map_map]
  rfl

theorem Holds.toPoses (h : b.Holds records) (hfew : records.length < 2 ^ 63) :
    b.toPoses = .ok (sentPoses records) := by
  simp only [InstanceBuffer.toPoses, h.matrix, if_pos (fitsSigned_natCast hfew), mapError_ok, bind,
    Except.bind, pure, Except.pure, List.map_map]
  rfl

theorem exists_rowsOf_error {c : Column} {e : ShapeError} (h : b.matrix c = .error e) :
    ∃ first, b.rowsOf = .error (.shape first) := by
  unfold rowsOf
  cases hplaces : b.matrix .translate with
  | error first => exact ⟨first, rfl⟩
  | ok positions =>
      cases hcolors : b.matrix .color with
      | error first => exact ⟨first, rfl⟩
      | ok colors =>
          cases hscales : b.matrix .scale with
          | error first => exact ⟨first, rfl⟩
          | ok scales =>
              cases hrotations : b.matrix .rotate with
              | error first => exact ⟨first, rfl⟩
              | ok rotations => cases c <;> simp [hplaces, hcolors, hscales, hrotations] at h

/-- A column that does not fit is found before anything is sent. -/
theorem exists_log_of_misfit (hcount : 0 < b.count) {c : Column}
    (hc : ((b.column c).size : Int) ≠ 4 * b.count) (path : Text) (radius : Float) :
    ∃ e, b.log path radius = ⟨[], some (.shape e)⟩ := by
  obtain ⟨n, hn⟩ := Int.eq_ofNat_of_zero_le (Int.le_of_lt hcount)
  obtain ⟨e, he⟩ : ∃ e, b.matrix c = .error e := by
    cases hmatrix : b.matrix c with
    | error e => exact ⟨e, rfl⟩
    | ok rows =>
        have hsize := size_of_matrix hn hmatrix
        omega
  obtain ⟨first, hrows⟩ := exists_rowsOf_error he
  exact ⟨first, by simp [log, Int.ne_of_gt hcount, hrows]⟩

theorem Holds.length_lt (h : b.Holds records) (hsize : ∀ c, (b.column c).size < 2 ^ 63) :
    records.length < 2 ^ 63 := by
  have hcolumn := h.size_eq .translate
  have hfew := hsize .translate
  omega

/-- How the sending of a buffer that is not empty can end. -/
inductive Ending (b : InstanceBuffer Float) (path : Text) (radius : Float) : Prop where
  | misfit (c : Column) (hc : ((b.column c).size : Int) ≠ 4 * b.count) (e : ShapeError)
      (h : b.log path radius = ⟨[], some (.shape e)⟩)
  | void (records : List (Column → Vec4 Float)) (hrecords : b.Holds records)
      (hvoid : ∃ r ∈ records, Quat.IsVoid (sentRow r .rotate))
      (h : b.log path radius = ⟨[], some .zeroRotation⟩)
  | sent (records : List (Column → Vec4 Float)) (hrecords : b.Holds records)
      (hposes : b.toPoses = .ok (sentPoses records))
      (h : b.log path radius =
        ⟨[(pathBelow path "points", sentPoints radius records),
          (pathBelow path "directions", sentArrows records),
          (pathBelow path "poses", sentPoses records)], none⟩)

theorem ending (hcount : 0 < b.count) (hsize : ∀ c, (b.column c).size < 2 ^ 63) (path : Text)
    (radius : Float) : Ending b path radius := by
  by_cases hfit : ∀ c, ((b.column c).size : Int) = 4 * b.count
  · obtain ⟨records, hrecords⟩ := exists_holds (Int.le_of_lt hcount) hfit
    have hfew := hrecords.length_lt hsize
    have hsome := Int.ne_of_gt hcount
    by_cases hvoid : ∃ r ∈ records, Quat.IsVoid (sentRow r .rotate)
    · obtain ⟨r, hr, hlost⟩ := hvoid
      exact .void records hrecords ⟨r, hr, hlost⟩
        (hrecords.log_of_isVoid hsome hfew hr hlost path radius)
    · have hturns : ∀ r ∈ records, ¬ Quat.IsVoid (sentRow r .rotate) :=
        fun r hr hlost => hvoid ⟨r, hr, hlost⟩
      exact .sent records hrecords (hrecords.toPoses hfew)
        (hrecords.log_of_not_isVoid hsome hfew hturns path radius)
  · obtain ⟨c, hc⟩ := not_forall.mp hfit
    obtain ⟨e, he⟩ := exists_log_of_misfit hcount hc path radius
    exact .misfit c hc e he

/-- The columns of a drawn plant fit the number of its records. -/
theorem size_of_draw {σ : Type} [DrawSource σ Float] {pen : Pen Float} {symbols : Word}
    {root : Turtle Float} {source rest : σ} {plant : Plant Float}
    (hdraw : pen.draw symbols root source = (.ok plant, rest)) (o : Organ) (c : Column) :
    (((o.stored plant).column c).size : Int) = 4 * (o.stored plant).count := by
  obtain ⟨commands, final, hread, hfollow, -, rfl⟩ := (pen.draw_eq_ok_iff _ _ _ _ _).mp hdraw
  obtain ⟨marks, hmarks, -⟩ := Pen.exists_marks hread hfollow o
  have hholds := holds_ofList (marks.map (·.2))
  rw [← hmarks, ← o.stored_mk] at hholds
  rw [hholds.size_eq c, hholds.1]
  push_cast
  rfl

end Sending

/-- How a buffer is sent, as a whole or not at all. -/
structure SendsWhole (b : InstanceBuffer Float) (path : Text) (radius : Float) : Prop where
  cleared : b.count = 0 → b.log path radius = ⟨[(path, .clear true)], none⟩
  /-- Sending stops for a column that does not fit the count or a rotation without a length. -/
  stops_iff : b.count ≠ 0 → ((b.log path radius).error ≠ none ↔
    (∃ c, ((b.column c).size : Int) ≠ 4 * b.count) ∨
      ∃ records, b.Holds records ∧ ∃ r ∈ records, Quat.IsVoid (sentRow r .rotate))
  stops_first : (b.log path radius).error ≠ none → (b.log path radius).entries = []
  /-- What does not stop is sent record by record, and so are the poses on their own. -/
  sent : b.count ≠ 0 → (b.log path radius).error = none → ∃ records, b.Holds records ∧
    b.toPoses = .ok (sentPoses records) ∧ b.log path radius =
      ⟨[(pathBelow path "points", sentPoints radius records),
        (pathBelow path "directions", sentArrows records),
        (pathBelow path "poses", sentPoses records)], none⟩
  /-- A buffer of a drawn plant fits its count, so only a rotation can stop it. -/
  drawn : ∀ {σ : Type} [DrawSource σ Float] (pen : Pen Float) (symbols : Word)
    (root : Turtle Float) (source rest : σ) (plant : Plant Float) (o : Organ),
    pen.draw symbols root source = (.ok plant, rest) → b = o.stored plant →
      (∀ c, ((b.column c).size : Int) = 4 * b.count) ∧
        ∀ e, (b.log path radius).error = some e → e = .zeroRotation

/-- A buffer is sent as a whole or not at all, whatever its columns hold. The bound on their sizes is
one that no list in memory reaches. -/
theorem sendsWhole (b : InstanceBuffer Float) (hcount : 0 ≤ b.count)
    (hsize : ∀ c, (b.column c).size < 2 ^ 63) (path : Text) (radius : Float) :
    b.SendsWhole path radius := by
  have hcleared (hnone : b.count = 0) : b.log path radius = ⟨[(path, .clear true)], none⟩ := by
    simp [log, hnone]
  have hending (hsome : b.count ≠ 0) : Ending b path radius := ending (by omega) hsize path radius
  refine ⟨hcleared, ?_, ?_, ?_, ?_⟩
  · intro hsome
    constructor
    · intro hstops
      cases hending hsome with
      | misfit c hc e h => exact Or.inl ⟨c, hc⟩
      | void records hrecords hvoid h => exact Or.inr ⟨records, hrecords, hvoid⟩
      | sent records hrecords hposes h => simp [h] at hstops
    · rintro (⟨c, hc⟩ | ⟨records, hrecords, r, hr, hvoid⟩)
      · obtain ⟨e, he⟩ := exists_log_of_misfit (by omega) hc path radius
        simp [he]
      · simp [hrecords.log_of_isVoid hsome (hrecords.length_lt hsize) hr hvoid path radius]
  · intro hstops
    have hsome : b.count ≠ 0 := by
      intro hnone
      simp [hcleared hnone] at hstops
    cases hending hsome with
    | misfit c hc e h => rw [h]
    | void records hrecords hvoid h => rw [h]
    | sent records hrecords hposes h => simp [h] at hstops
  · intro hsome hgoes
    cases hending hsome with
    | misfit c hc e h => simp [h] at hgoes
    | void records hrecords hvoid h => simp [h] at hgoes
    | sent records hrecords hposes h => exact ⟨records, hrecords, hposes, h⟩
  · intro σ _ pen symbols root source rest plant o hdraw hb
    have hfit (c : Column) : ((b.column c).size : Int) = 4 * b.count := by
      rw [hb]
      exact size_of_draw hdraw o c
    refine ⟨hfit, fun e he => ?_⟩
    have hsome : b.count ≠ 0 := by
      intro hnone
      simp [hcleared hnone] at he
    cases hending hsome with
    | misfit c hc _ _ => exact absurd (hfit c) hc
    | void records hrecords hvoid h => simpa [h] using he.symm
    | sent records hrecords hposes h => simp [h] at he

/-- A record whose rotation holds what is no number. -/
def unturnedRecord : Instance Float where
  position := ⟨1, 2, 3⟩
  rotation := ⟨0.0 / 0.0, 0, 0, 1⟩
  scale := ⟨1, 2, 3⟩
  color := ⟨0.5, 0.25, 0.125, 1⟩

/-- The buffer with this record alone. -/
def unturned : InstanceBuffer Float := ofList [unturnedRecord]

theorem unturned_sendsWhole :
    0 ≤ unturned.count ∧ (∀ c, (unturned.column c).size < 2 ^ 63) ∧
      unturned.SendsWhole Plant.defaultPath Plant.branchRadius := by
  have hcount : 0 ≤ unturned.count := by decide
  have hsize : ∀ c, (unturned.column c).size < 2 ^ 63 := by
    intro c
    cases c <;> decide
  exact ⟨hcount, hsize, sendsWhole unturned hcount hsize Plant.defaultPath Plant.branchRadius⟩

/-- It is not sent, though its columns fit and its length is not zero. -/
theorem unturned_stops :
    unturned.count = 1 ∧ (∀ c, ((unturned.column c).size : Int) = 4 * unturned.count) ∧
      (∀ q ∈ rowsOfFour (unturned.flat .rotate).toList, (q.norm == 0.0) = false) ∧
      unturned.log Plant.defaultPath Plant.branchRadius = ⟨[], some .zeroRotation⟩ := by
  have hholds : unturned.Holds [unturnedRecord.row] := holds_ofList [unturnedRecord]
  have hvoid : Quat.IsVoid (sentRow unturnedRecord.row .rotate) := Or.inr (by decide +kernel)
  refine ⟨rfl, ?_, by decide +kernel, ?_⟩
  · intro c
    cases c <;> rfl
  · exact hholds.log_of_isVoid (by decide) (by decide) List.mem_cons_self hvoid _ _

end InstanceBuffer
end Meristem
