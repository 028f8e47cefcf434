import Mathlib
import Meristem.Proofs.Addition
import Meristem.Proofs.Exact.Drawing
import Meristem.Proofs.Shares

/-!
Weighted choice in exact arithmetic. The definitions are read over the rational numbers, where the
order of the additions does not matter and nothing is lost in them: the shares are the weights over
their sum, they divide the unit interval in the order of the table, and a number of the interval
picks the payload whose share holds it. How large the weights are does not matter, only how they
compare.
-/

namespace Meristem

instance : Arith ℚ where
  ltDecidable := inferInstance
  leDecidable := inferInstance
  abs x := |x|

@[simp] theorem Arith.scientific_rat (m e : ℕ) :
    @OfScientific.ofScientific ℚ Arith.toOfScientific m true e = (m : ℚ) / 10 ^ e := by
  have hrat : @OfScientific.ofScientific ℚ Arith.toOfScientific m true e =
      Rat.ofScientific m true e := rfl
  rw [hrat, Rat.ofScientific_true_def, Rat.mkRat_eq_div]
  push_cast
  rfl

section Sums

theorem foldl_add_rat (sum : ℚ) (xs : List ℚ) : xs.foldl (· + ·) sum = sum + xs.sum := by
  induction xs generalizing sum with
  | nil => simp
  | cons x rest ih => rw [List.foldl_cons, ih, List.sum_cons, add_assoc]

theorem additive_rat : Additive fun (_ : ℕ) (x s : ℚ) => x = s where
  zero := by simp
  mono := fun h _ => h
  add := by
    rintro d x y r s rfl rfl
    rfl

theorem total_rat (xs : List ℚ) : total xs = xs.sum := by
  have hlength : xs.length ≤ 16 + 112 * 2 ^ xs.length := by
    have hpower := Nat.lt_two_pow_self (n := xs.length)
    omega
  have htotal : total xs = (xs.map id).sum := additive_rat.total (fun x _ => rfl) hlength
  rwa [List.map_id] at htotal

/-- Without rounding errors there is nothing to carry on. -/
theorem compensatedSum_rat (xs : List ℚ) : compensatedSum xs = xs.sum := by
  have hfold (sum : ℚ) (rest : List ℚ) :
      rest.foldl (fun (sum, lost) x =>
        let y := x - lost
        let next := sum + y
        (next, (next - sum) - y)) (sum, 0) = (sum + rest.sum, 0) := by
    induction rest generalizing sum with
    | nil => simp
    | cons x rest ih =>
        have hlost : sum + (x - 0) - sum - (x - 0) = 0 := by ring
        simp only [List.foldl_cons, List.sum_cons, hlost]
        rw [ih, sub_zero, add_assoc]
  cases xs with
  | nil => simp [compensatedSum]
  | cons first rest =>
      have hzero : @OfScientific.ofScientific ℚ Arith.toOfScientific 0 true 1 = 0 := by simp
      simp only [compensatedSum, hzero]
      rw [hfold, List.sum_cons]

theorem sum_map_div_rat (w : ℚ) (xs : List ℚ) : (xs.map (· / w)).sum = xs.sum / w := by
  simpa [div_eq_mul_inv] using List.sum_map_mul_right xs id w⁻¹

end Sums

namespace Choices

variable {π : Type} (c : Choices π ℚ)

/-- Where the share of payload `i` starts, and the one before it ends. -/
def starts (i : ℕ) : ℚ := (c.weights.take i).sum / c.weights.sum

/-- The part of the unit interval that payload `i` gets. -/
def share (i : ℕ) : Set ℚ := Set.Ico (c.starts i) (c.starts (i + 1))

/-- The same payloads with all weights multiplied by one factor. -/
def scaled (factor : ℚ) : Choices π ℚ :=
  ⟨(c.first.1, factor * c.first.2), c.others.map fun x => (x.1, factor * x.2)⟩

theorem starts_zero : c.starts 0 = 0 := by simp [starts]

theorem toList_scaled (factor : ℚ) :
    (c.scaled factor).toList = c.toList.map fun x => (x.1, factor * x.2) := rfl

theorem weights_scaled (factor : ℚ) : (c.scaled factor).weights = c.weights.map (factor * ·) := by
  simp [weights, toList_scaled]

theorem shares_rat : c.shares = c.weights.map (· / c.weights.sum) := by
  rw [shares_eq, total_rat]

variable {c} in
theorem starts_succ {i : ℕ} (hi : i < c.toList.length) :
    c.starts (i + 1) = c.starts i + c.toList[i].2 / c.weights.sum := by
  have hweight : i < c.weights.length := by rwa [length_weights]
  have hget : c.weights[i] = c.toList[i].2 := List.getElem_map _
  rw [starts, List.sum_take_succ _ _ hweight, add_div, hget, starts]

section Positive

variable {c} (hpos : ∀ x ∈ c.toList, 0 < x.2)

include hpos

theorem weight_pos {w : ℚ} (hw : w ∈ c.weights) : 0 < w := by
  obtain ⟨x, hx, rfl⟩ := List.mem_map.mp hw
  exact hpos x hx

theorem sum_weights_pos : 0 < c.weights.sum := by
  apply List.sum_pos _ fun w hw => weight_pos hpos hw
  simp [weights, toList]

theorem sum_shares : c.shares.sum = 1 := by
  rw [shares_rat, sum_map_div_rat, div_self (sum_weights_pos hpos).ne']

/-- In exact arithmetic no draw is refused. -/
theorem covers_rat : c.covers = true := by
  have htolerance : ¬ (tolerance : ℚ) < 0 := by
    simp only [tolerance, Arith.scientific_rat]
    norm_num
  have hone : @OfScientific.ofScientific ℚ Arith.toOfScientific 10 true 1 = 1 := by
    rw [Arith.scientific_rat]
    norm_num
  have hmiss : Arith.abs (compensatedSum c.shares - 1.0) = (0 : ℚ) := by
    rw [compensatedSum_rat, sum_shares hpos, hone, sub_self]
    exact abs_zero
  rw [covers, hmiss, decide_eq_false htolerance, Bool.not_false]

theorem starts_length : c.starts c.toList.length = 1 := by
  rw [starts, ← length_weights, List.take_length, div_self (sum_weights_pos hpos).ne']

theorem starts_mono {i j : ℕ} (h : i ≤ j) : c.starts i ≤ c.starts j := by
  have hsplit : (c.weights.take j).sum =
      (c.weights.take i).sum + ((c.weights.take j).drop i).sum := by
    have hparts := List.take_append_drop i (c.weights.take j)
    rw [List.take_take, min_eq_left h] at hparts
    rw [← List.sum_append, hparts]
  have hrest : 0 ≤ ((c.weights.take j).drop i).sum := by
    apply List.sum_nonneg
    intro w hw
    exact (weight_pos hpos (List.mem_of_mem_take (List.mem_of_mem_drop hw))).le
  rw [starts, starts, hsplit]
  exact div_le_div_of_nonneg_right (by linarith) (sum_weights_pos hpos).le

/-- The bound of a share is where the next one starts. -/
theorem getElem?_bounds_rat {i : ℕ} (hi : i < c.toList.length) :
    c.bounds[i]? = some (c.starts (i + 1)) := by
  obtain ⟨first, rest, hshares⟩ := c.exists_shares_eq
  have hall := sum_shares hpos
  rw [hshares, List.sum_cons] at hall
  have hsome : first + (rest.take i).sum = c.starts (i + 1) := by
    rw [← List.sum_cons, ← List.take_succ_cons, ← hshares, shares_rat, ← List.map_take,
      sum_map_div_rat, starts]
  rw [getElem?_bounds hshares hi, foldl_add_rat, foldl_add_rat, hall, div_one, hsome]

theorem getElem_bounds_rat {i : ℕ} (hi : i < c.bounds.length) :
    c.bounds[i] = c.starts (i + 1) := by
  have hget := getElem?_bounds_rat hpos (length_bounds c ▸ hi)
  rw [List.getElem?_eq_getElem hi] at hget
  exact Option.some.inj hget

/-- A number of the unit interval picks the payload in whose share it lies. -/
theorem index_eq_iff {u : ℚ} (hu : u ∈ Set.Ico (0 : ℚ) 1) (i : ℕ) :
    c.index u = i ↔ i < c.toList.length ∧ u ∈ c.share i := by
  constructor
  · rintro rfl
    have hlast : c.toList.length - 1 < c.bounds.length := by
      rw [length_bounds, toList]
      simp
    have hone : c.bounds[c.toList.length - 1] = 1 := by
      have hlength : c.toList.length - 1 + 1 = c.toList.length := by simp [toList]
      rw [getElem_bounds_rat hpos, hlength, starts_length hpos]
    have hi : c.index u < c.toList.length :=
      index_lt_of_bound (List.getElem_mem hlast) (by rw [hone]; exact hu.2)
    have hbound : c.index u < c.bounds.length := by rwa [length_bounds]
    have hbelow : u < c.bounds[c.index u] := of_decide_eq_true (List.findIdx_getElem (w := hbound))
    refine ⟨hi, ?_, ?_⟩
    · cases hindex : c.index u with
      | zero =>
          rw [starts_zero]
          exact hu.1
      | succ j =>
          have hj : j < c.bounds.length := by omega
          have hbefore : j < c.index u := by omega
          have hskipped : ¬ u < c.bounds[j] :=
            of_decide_eq_false (List.not_of_lt_findIdx hbefore)
          rw [getElem_bounds_rat hpos] at hskipped
          exact not_lt.mp hskipped
    · rwa [getElem_bounds_rat hpos] at hbelow
  · rintro ⟨hi, hlow, hhigh⟩
    have hbound : i < c.bounds.length := by rwa [length_bounds]
    rw [index, List.findIdx_eq hbound, getElem_bounds_rat hpos]
    refine ⟨decide_eq_true hhigh, ?_⟩
    intro j hj
    rw [getElem_bounds_rat hpos]
    exact decide_eq_false (not_lt.mpr ((starts_mono hpos hj).trans hlow))

end Positive

/-- A factor that all weights have in common falls out of the bounds. -/
theorem bounds_scaled {factor : ℚ} (hfactor : 0 < factor) :
    (c.scaled factor).bounds = c.bounds := by
  have hshares : (c.scaled factor).shares = c.shares := by
    have hsum : (c.weights.map (factor * ·)).sum = factor * c.weights.sum := by
      simpa using List.sum_map_mul_left c.weights id factor
    rw [shares_rat, shares_rat, weights_scaled, hsum, List.map_map]
    apply List.map_congr_left
    intro w _
    exact mul_div_mul_left w _ hfactor.ne'
  rw [bounds, bounds, hshares]

theorem pick_scaled {factor : ℚ} (hfactor : 0 < factor) (u : ℚ) :
    (c.scaled factor).pick u = c.pick u := by
  have hindex : (c.scaled factor).index u = c.index u := by
    rw [index, index, bounds_scaled c hfactor]
  unfold pick
  rw [hindex, toList_scaled, List.getElem?_map]
  cases c.toList[c.index u]? with
  | none => rfl
  | some x => rfl

/-- The shares of the payloads divide the unit interval, and a number picks the payload in whose
share it lies. -/
structure DividesInterval (c : Choices π ℚ) : Prop where
  covered : (⋃ i ∈ Set.Iio c.toList.length, c.share i) = Set.Ico 0 1
  disjoint : ∀ i < c.toList.length, ∀ j < c.toList.length, i ≠ j →
    Disjoint (c.share i) (c.share j)
  size : ∀ i (hi : i < c.toList.length),
    c.starts (i + 1) - c.starts i = c.toList[i].2 / c.weights.sum
  picked : ∀ u ∈ Set.Ico (0 : ℚ) 1, ∀ i, c.index u = i ↔ i < c.toList.length ∧ u ∈ c.share i

variable {c}

theorem dividesInterval (hpos : ∀ x ∈ c.toList, 0 < x.2) : c.DividesInterval where
  covered := by
    ext u
    simp only [Set.mem_iUnion, Set.mem_Iio, exists_prop]
    constructor
    · rintro ⟨i, hi, hlow, hhigh⟩
      have hfirst := starts_mono hpos (Nat.zero_le i)
      have hlast := starts_mono hpos (Nat.succ_le_of_lt hi)
      rw [starts_zero] at hfirst
      rw [starts_length hpos] at hlast
      exact ⟨hfirst.trans hlow, hhigh.trans_le hlast⟩
    · intro hu
      exact ⟨c.index u, (index_eq_iff hpos hu _).mp rfl⟩
  disjoint := by
    intro i hi j hj hne
    rw [Set.disjoint_left]
    rintro u ⟨hlow, hhigh⟩ ⟨hlow', hhigh'⟩
    rcases Nat.lt_or_gt_of_ne hne with hlt | hgt
    · exact absurd (hhigh.trans_le ((starts_mono hpos hlt).trans hlow')) (lt_irrefl u)
    · exact absurd (hhigh'.trans_le ((starts_mono hpos hgt).trans hlow)) (lt_irrefl u)
  size := by
    intro i hi
    rw [starts_succ hi, add_sub_cancel_left]
  picked := fun u hu i => index_eq_iff hpos hu i

variable {σ : Type} [DrawSource σ ℚ]

theorem draw_rat {t : RuleTable π ℚ} {s : Symbol} (hs : t.choices? s = some c)
    (hpos : ∀ x ∈ c.toList, 0 < x.2) (source : σ) :
    t.draw s source =
      (.ok (c.pick (DrawSource.number source 0)), DrawSource.advance source 1) := by
  rw [RuleTable.draw, RuleTable.choicesOf, hs]
  exact (Choices.draw_eq c source).trans (if_pos (covers_rat hpos))

/-- A symbol whose weights are positive draws its payloads by its weights, exactly. The shares of
the payloads follow each other in the order of the table, each as long as its weight in the total,
and they divide the unit interval; a draw takes one number of the interval and gives the payload in
whose share it lies. A factor that all weights have in common changes no draw. -/
theorem draw_by_share {t : RuleTable π ℚ} {s : Symbol} (hs : t.choices? s = some c)
    (hpos : ∀ x ∈ c.toList, 0 < x.2) :
    c.DividesInterval ∧
    (∀ source : σ, DrawSource.number source 0 ∈ Set.Ico (0 : ℚ) 1 →
      ∃ i, ∃ hi : i < c.toList.length, DrawSource.number source 0 ∈ c.share i ∧
        t.draw s source = (.ok c.toList[i].1, DrawSource.advance source 1)) ∧
    ∀ factor, 0 < factor → (∀ u, (c.scaled factor).index u = c.index u) ∧
      ∀ twin : RuleTable π ℚ, twin.choices? s = some (c.scaled factor) →
        ∀ source : σ, twin.draw s source = t.draw s source := by
  refine ⟨dividesInterval hpos, ?_, ?_⟩
  · intro source hu
    obtain ⟨hi, hshare⟩ := (index_eq_iff hpos hu _).mp rfl
    refine ⟨_, hi, hshare, ?_⟩
    rw [draw_rat hs hpos, pick_eq_getElem hi]
  · intro factor hfactor
    refine ⟨fun u => by rw [index, index, c.bounds_scaled hfactor], ?_⟩
    intro twin htwin source
    have hscaled : ∀ x ∈ (c.scaled factor).toList, 0 < x.2 := by
      intro x hx
      rw [toList_scaled] at hx
      obtain ⟨y, hy, rfl⟩ := List.mem_map.mp hx
      exact mul_pos hfactor (hpos y hy)
    rw [draw_rat htwin hscaled, draw_rat hs hpos, c.pick_scaled hfactor]

/-- Half of the draws of a shoot are leaves. -/
def leafy : Choices Action ℚ := ⟨(.branch, 1), [(.leaf, 2), (.nothing, 1)]⟩

/-- A number at the very end of a share picks the payload after it. -/
theorem draw_leafy :
    (∀ x ∈ leafy.toList, 0 < x.2) ∧
    RuleTable.draw ⟨[('F', leafy)]⟩ 'F' (fun _ : ℕ => (3 / 4 : ℚ)) =
      (.ok .nothing, fun _ : ℕ => (3 / 4 : ℚ)) ∧
    (leafy.scaled (1 / 1000)).index (3 / 4) = leafy.index (3 / 4) := by
  have hpos : ∀ x ∈ leafy.toList, 0 < x.2 := by simp [leafy, toList]
  obtain ⟨-, hdraw, hscaled⟩ :=
    draw_by_share (c := leafy) (σ := ℕ → ℚ) (t := ⟨[('F', leafy)]⟩) (s := 'F') rfl hpos
  refine ⟨hpos, ?_, (hscaled (1 / 1000) (by norm_num)).1 _⟩
  have hnumber : DrawSource.number (fun _ : ℕ => (3 / 4 : ℚ)) 0 = 3 / 4 := rfl
  obtain ⟨i, hi, hshare, hpicked⟩ := hdraw (fun _ => 3 / 4) (by rw [hnumber]; norm_num)
  rw [hnumber] at hshare
  rw [share, starts, starts] at hshare
  obtain rfl | rfl | rfl : i = 0 ∨ i = 1 ∨ i = 2 := by
    simp only [leafy, toList, List.length_cons, List.length_nil] at hi
    omega
  · norm_num [leafy, weights, toList] at hshare
  · norm_num [leafy, weights, toList] at hshare
  · exact hpicked

end Choices

end Meristem
