import Meristem.Proofs.Rounded.Compensated
import Meristem.Proofs.Exact.Vector
import Meristem.Proofs.Shares

/-!
Shares of the unit interval on doubles. As long as the sum of the weights is finite, each share is
off by a small part of itself, the shares come to one well within the tolerance of the draws, and
the last of their bounds is one exactly, because it is a double divided by itself. A sum that is
out of range is infinite; every share of it is zero, and nothing can be drawn.
-/

namespace Meristem

open Float.Model Float.Model.UnpackedFloat

/-- A finite double above zero. -/
def Weighty (w : Float) : Prop := w.isFinite = true ∧ 0 < toReal w

theorem Weighty.ample {w : Float} (h : Weighty w) : Ample w := ⟨h.1, h.2.le⟩

theorem worth_pos {xs : List Float} (hxs : ∀ x ∈ xs, Weighty x) (hne : xs ≠ []) : 0 < worth xs := by
  apply List.sum_pos
  · intro r hr
    obtain ⟨x, hx, rfl⟩ := List.mem_map.mp hr
    exact (hxs x hx).2
  · simpa using hne

section Divided

variable {W : Float}

/-- A share of a finite sum is off by a small part of itself, or by less than the smallest double.
-/
theorem worth_divided {xs : List Float} (hW : Weighty W) (hxs : ∀ x ∈ xs, Ample x)
    (hsmall : worth xs ≤ 2 * toReal W) :
    (∀ p ∈ xs.map (· / W), Ample p) ∧
      |worth (xs.map (· / W)) - worth xs / toReal W| ≤
        worth xs / toReal W * 2 ^ (-53 : ℤ) + xs.length * 2 ^ (-1075 : ℤ) := by
  induction xs with
  | nil => simp
  | cons x rest ih =>
      obtain ⟨hx, hrest⟩ := List.forall_mem_cons.mp hxs
      have hworth := worth_nonneg hrest
      rw [worth_cons] at hsmall
      obtain ⟨hample, hnear⟩ := ih hrest (by linarith [hx.2])
      have hquotient := div_nearest hx.1 hW.1 hW.2.ne'
      have hnonneg : 0 ≤ toReal x / toReal W := div_nonneg hx.2 hW.2.le
      have hbound : toReal x / toReal W ≤ 2 := by
        rw [div_le_iff₀ hW.2]
        linarith
      have hfinite : (x / W).isFinite = true :=
        isFinite_of_small hquotient (by rw [abs_of_nonneg hnonneg]; linarith)
      have herror := hquotient.near hfinite
      rw [halfStep, abs_of_nonneg hnonneg] at herror
      simp only [List.map_cons, List.mem_cons, forall_eq_or_imp, worth_cons, List.length_cons]
      refine ⟨⟨⟨hfinite, hquotient.nonneg hfinite hnonneg⟩, hample⟩, ?_⟩
      have hsplit : toReal (x / W) + worth (rest.map (· / W)) -
          (toReal x + worth rest) / toReal W =
            (toReal (x / W) - toReal x / toReal W) +
              (worth (rest.map (· / W)) - worth rest / toReal W) := by ring
      rw [hsplit]
      refine (abs_add_le _ _).trans ((add_le_add herror hnear).trans (le_of_eq ?_))
      push_cast
      ring

/-- Nothing is left of a number that is divided by infinity. -/
theorem divided_boundless {x : Float} (hW : Boundless W) (hx : Ample x) :
    Ample (x / W) ∧ toReal (x / W) = 0 := by
  have hfits := fits_of_isFinite hx.1
  obtain ⟨s, hquotient⟩ : ∃ s, UnpackedFloat.div Format.binary64 x.toModel.unpack W.toModel.unpack =
      .zero s := by
    rw [hW]
    match x.toModel.unpack, hfits with
    | .zero t, _ => exact ⟨_, rfl⟩
    | .finite t m e hm, _ => exact ⟨_, rfl⟩
  have hzero : Fits (UnpackedFloat.div Format.binary64 x.toModel.unpack W.toModel.unpack) := by
    rw [hquotient]
    trivial
  have hvalue : toReal (x / W) = 0 := by
    refine (toReal_ofModel hzero).trans ?_
    rw [hquotient, valueOf_zero]
  exact ⟨⟨isFinite_ofModel hzero, hvalue.ge⟩, hvalue⟩

end Divided

section Running

variable {s x : Float}

/-- A sum is rounded to nothing that is smaller than one of its parts, and gains no more than the
other part. -/
theorem add_between_parts (hs : Ample s) (hx : Ample x) (hsum : toReal s + toReal x ≤ 4) :
    Ample (s + x) ∧ toReal s ≤ toReal (s + x) ∧ toReal x ≤ toReal (s + x) ∧
      toReal (s + x) ≤ toReal s + 2 * toReal x := by
  have hnonneg : 0 ≤ toReal s + toReal x := add_nonneg hs.2 hx.2
  have hnearest := add_nearest hs.1 hx.1
  have hfinite := isFinite_of_small hnearest (by rwa [abs_of_nonneg hnonneg])
  have hfirst := hnearest.closest hfinite s hs.1
  have hsecond := hnearest.closest hfinite x hx.1
  rw [sub_add_cancel_left, abs_neg, abs_of_nonneg hx.2, abs_le] at hfirst
  rw [sub_add_cancel_right, abs_neg, abs_of_nonneg hs.2, abs_le] at hsecond
  exact ⟨ample_add hs hx hfinite, by linarith, by linarith, by linarith⟩

/-- A running sum stays in range and ends above all its parts. -/
theorem foldl_above {xs : List Float} (hs : Ample s) (hxs : ∀ x ∈ xs, Ample x)
    (hsum : toReal s + 2 * worth xs ≤ 4) :
    Ample (xs.foldl (· + ·) s) ∧ toReal s ≤ toReal (xs.foldl (· + ·) s) ∧
      ∀ x ∈ xs, toReal x ≤ toReal (xs.foldl (· + ·) s) := by
  induction xs generalizing s with
  | nil => exact ⟨hs, le_rfl, by simp⟩
  | cons x rest ih =>
      obtain ⟨hx, hrest⟩ := List.forall_mem_cons.mp hxs
      have hworth := worth_nonneg hrest
      rw [worth_cons] at hsum
      obtain ⟨hnext, hfirst, hsecond, hgain⟩ := add_between_parts hs hx (by linarith [hx.2])
      obtain ⟨hlast, hstart, hall⟩ := ih hnext hrest (by linarith)
      simp only [List.foldl_cons, List.mem_cons, forall_eq_or_imp]
      exact ⟨hlast, hfirst.trans hstart, hsecond.trans hstart, hall⟩

theorem toReal_div_self (hs : Weighty s) : (s / s).isFinite = true ∧ toReal (s / s) = 1 := by
  have hnearest := div_nearest hs.1 hs.1 hs.2.ne'
  rw [div_self hs.2.ne'] at hnearest
  exact hnearest.exact (w := 1.0) rfl toReal_one

/-- Numbers of the unit interval are finite. -/
theorem isFinite_of_unit {u : Float} (hlow : 0.0 ≤ u) (hhigh : u < 1.0) : u.isFinite = true := by
  rw [le_iff_unpack] at hlow
  rw [lt_iff_unpack] at hhigh
  change u.toModel.unpack.isFinite = true
  match u.toModel.unpack, hlow, hhigh with
  | .zero s, _, _ => rfl
  | .finite s m e hm, _, _ => rfl

end Running

namespace Choices

variable {π : Type} {c : Choices π Float}

theorem toReal_tolerance : toReal tolerance = 1 / 2 ^ 26 := by
  have hvalue : toReal tolerance = (4503599627370496 : ℕ) * 2 ^ (-78 : ℤ) := rfl
  rw [hvalue]
  norm_num

/-- Whether the shares cover the interval is decided by what they come to, with room to spare. -/
theorem covers_iff (hshares : ∀ p ∈ c.shares, Ample p) (hlength : c.toList.length < 2 ^ 63)
    (hclear : worth c.shares = 0 ∨ |worth c.shares - 1| ≤ 1 / 2 ^ 40) :
    c.covers = true ↔ worth c.shares ≠ 0 := by
  rw [← length_shares] at hlength
  have hworth : worth c.shares ≤ 3 / 2 := by
    rcases hclear with hzero | hone
    · rw [hzero]
      norm_num
    · linarith [(abs_le.mp hone).2]
  obtain ⟨hfinite, hnear⟩ := compensatedSum_near hshares hworth hlength
  rw [abs_le] at hnear
  have hone : (1.0 : Float).isFinite = true := rfl
  have hnonneg := worth_nonneg hshares
  have hmiss : |toReal (compensatedSum c.shares) - 1| ≤ 2 := abs_le.mpr ⟨by linarith, by linarith⟩
  rw [← toReal_one] at hmiss
  obtain ⟨hdifference, herror⟩ := sub_within hfinite hone hmiss (by norm_num)
  obtain ⟨habs, hvalue⟩ := abs_exact hdifference
  have htolerance : (tolerance : Float).isFinite = true := rfl
  have hcovers : c.covers = true ↔ |toReal (compensatedSum c.shares - 1.0)| ≤ 1 / 2 ^ 26 := by
    rw [← hvalue, ← toReal_tolerance, ← not_lt, ← lt_iff_toReal htolerance habs, covers,
      Bool.not_eq_true', decide_eq_false_iff_not]
    exact Iff.rfl
  rw [toReal_one, slip_eq, abs_le] at herror
  rw [hcovers]
  rcases hclear with hzero | hall
  · rw [hzero] at hnear ⊢
    refine iff_of_false (fun hsmall => ?_) (fun hne => hne rfl)
    linarith [(abs_le.mp hsmall).1]
  · rw [abs_le] at hall
    refine iff_of_true (abs_le.mpr ⟨by linarith, by linarith⟩) (fun hzero => ?_)
    linarith

section Weights

variable (hweights : ∀ w ∈ c.weights, Weighty w) (hlength : c.toList.length < 2 ^ 63)

include hweights hlength

/-- What the weights come to is what their computed sum says, but for a small part of it. -/
theorem weighty_total (hfinite : (total c.weights).isFinite = true) :
    Weighty (total c.weights) ∧ |worth c.weights / toReal (total c.weights) - 1| ≤ 1 / 2 ^ 43 := by
  have hample (w : Float) (hw : w ∈ c.weights) : Ample w := (hweights w hw).ample
  have hpos := worth_pos hweights (by simp [weights, toList])
  rw [← length_weights] at hlength
  have hnear := abs_le.mp (total_near hample hlength hfinite)
  rw [slack_eq] at hnear
  have hW : 0 < toReal (total c.weights) := by linarith
  refine ⟨⟨hfinite, hW⟩, ?_⟩
  rw [abs_le]
  constructor
  · rw [neg_le_sub_iff_le_add, ← sub_le_iff_le_add, le_div_iff₀ hW]
    linarith
  · rw [sub_le_iff_le_add, div_le_iff₀ hW]
    linarith

theorem shares_of_finite (hfinite : (total c.weights).isFinite = true) :
    (∀ p ∈ c.shares, Ample p) ∧ |worth c.shares - 1| ≤ 1 / 2 ^ 40 := by
  obtain ⟨hW, hratio⟩ := weighty_total hweights hlength hfinite
  have hample (w : Float) (hw : w ∈ c.weights) : Ample w := (hweights w hw).ample
  rw [abs_le] at hratio
  have hsmall : worth c.weights ≤ 2 * toReal (total c.weights) := by
    rw [← div_le_iff₀ hW.2]
    linarith
  obtain ⟨hshares, herror⟩ := worth_divided hW hample hsmall
  rw [← shares_eq] at hshares herror
  refine ⟨hshares, ?_⟩
  have hcount : (c.weights.length : ℝ) ≤ 2 ^ (63 : ℤ) := by
    rw [length_weights]
    exact_mod_cast hlength.le
  have hlost : (c.weights.length : ℝ) * 2 ^ (-1075 : ℤ) ≤ 2 ^ (-53 : ℤ) :=
    calc (c.weights.length : ℝ) * 2 ^ (-1075 : ℤ) ≤ 2 ^ (63 : ℤ) * 2 ^ (-1075 : ℤ) := by gcongr
      _ = 2 ^ (-1012 : ℤ) := (zpow_add₀ two_ne_zero _ _).symm
      _ ≤ 2 ^ (-53 : ℤ) := zpow_le_zpow_right₀ (by norm_num) (by norm_num)
  have hbound := abs_le.mp (herror.trans (add_le_add_right hlost _))
  norm_num at hbound
  rw [abs_le]
  constructor <;> linarith

theorem covers_of_finite (hfinite : (total c.weights).isFinite = true) : c.covers = true := by
  obtain ⟨hshares, hone⟩ := shares_of_finite hweights hlength hfinite
  rw [covers_iff hshares hlength (Or.inr hone)]
  intro hzero
  rw [hzero] at hone
  norm_num at hone

theorem not_covers_of_infinite (hinfinite : (total c.weights).isFinite = false) :
    c.covers = false := by
  have hample (w : Float) (hw : w ∈ c.weights) : Ample w := (hweights w hw).ample
  have hboundless := total_boundless hample (by rwa [length_weights]) hinfinite
  have hshares : ∀ p ∈ c.shares, Ample p ∧ toReal p = 0 := by
    intro p hp
    obtain ⟨w, hw, rfl⟩ := List.mem_map.mp hp
    exact divided_boundless hboundless (hample w hw)
  have hzero : worth c.shares = 0 := by
    apply List.sum_eq_zero
    intro r hr
    obtain ⟨p, hp, rfl⟩ := List.mem_map.mp hr
    exact (hshares p hp).2
  rw [← Bool.not_eq_true, covers_iff (fun p hp => (hshares p hp).1) hlength (Or.inl hzero)]
  exact fun hne => hne hzero

/-- The last bound is one, and so every number of the unit interval lies below some bound. -/
theorem index_lt_of_finite (hfinite : (total c.weights).isFinite = true) {u : Float}
    (hlow : 0.0 ≤ u) (hhigh : u < 1.0) : c.index u < c.toList.length := by
  obtain ⟨hshares, hone⟩ := shares_of_finite hweights hlength hfinite
  obtain ⟨first, rest, hparts⟩ := c.exists_shares_eq
  have hcount := c.length_shares
  rw [hparts, List.length_cons] at hcount
  rw [hparts, worth_cons, abs_le] at hone
  simp only [hparts, List.mem_cons, forall_eq_or_imp] at hshares
  obtain ⟨hfirst, hrest⟩ := hshares
  have hnonneg := hfirst.2
  obtain ⟨hsum, hstart, hall⟩ := foldl_above hfirst hrest (by linarith)
  have hpos : 0 < toReal (rest.foldl (· + ·) first) := by
    by_contra hnone
    rw [not_lt] at hnone
    -- then all shares would be zero
    have hzero : worth rest ≤ 0 := by
      have hparts : ∀ r ∈ rest.map toReal, r ≤ 0 := by
        intro r hr
        obtain ⟨p, hp, rfl⟩ := List.mem_map.mp hr
        exact (hall p hp).trans hnone
      exact (List.sum_le_card_nsmul _ _ hparts).trans_eq (smul_zero _)
    linarith [hone.1]
  obtain ⟨hbound, hvalue⟩ := toReal_div_self ⟨hsum.1, hpos⟩
  have hlast := getElem?_bounds hparts (i := rest.length) (by omega)
  rw [List.take_length] at hlast
  apply index_lt_of_bound (List.mem_of_getElem? hlast)
  have hu := isFinite_of_unit hlow hhigh
  refine (lt_iff_toReal hu hbound).mpr ?_
  rw [hvalue, ← toReal_one]
  exact (lt_iff_toReal hu rfl).mp hhigh

end Weights

end Choices

end Meristem
