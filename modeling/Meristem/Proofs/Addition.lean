import Mathlib.Algebra.BigOperators.Group.List.Basic
import Mathlib.Tactic.Abel
import Meristem.Choice

/-!
The sum of a table of weights in any arithmetic. Which numbers are added to which depends only on
how many there are: a few one by one, up to 128 in lanes, and more in halves, so that twice as many
numbers take one more addition each. Whatever an addition keeps, the sum of the table keeps.
-/

namespace Meristem

/-- A reading of what is computed by additions: `Stands d z s` says that `z` is computed from
numbers that come to `s`, none of which goes through more than `d` additions. -/
structure Additive {α M : Type} [Arith α] [AddCommMonoid M] (Stands : ℕ → α → M → Prop) : Prop where
  zero : Stands 0 0.0 0
  mono : ∀ {d e z s}, Stands d z s → d ≤ e → Stands e z s
  add : ∀ {d x y r s}, Stands d x r → Stands d y s → Stands (d + 1) (x + y) (r + s)

namespace Additive

variable {α M : Type} [Arith α] [AddCommMonoid M] {Stands : ℕ → α → M → Prop}
  (h : Additive Stands) {value : α → M}

include h

theorem foldl {d : ℕ} {z : α} {s : M} (hz : Stands d z s) {xs : List α}
    (hxs : ∀ x ∈ xs, Stands 0 x (value x)) :
    Stands (d + xs.length) (xs.foldl (· + ·) z) (s + (xs.map value).sum) := by
  induction xs generalizing d z s with
  | nil => simpa using hz
  | cons x rest ih =>
      obtain ⟨hx, htail⟩ := List.forall_mem_cons.mp hxs
      have hrest := ih (h.add hz (h.mono hx (Nat.zero_le d))) htail
      rw [List.foldl_cons, List.length_cons, List.map_cons, List.sum_cons, ← add_assoc, ← add_assoc,
        Nat.add_right_comm]
      exact hrest

omit h in
/-- Eight sums side by side, computed from numbers that come to `s` together. -/
def Abreast (Stands : ℕ → α → M → Prop) (n : ℕ) (l : Lanes α) (s : M) : Prop :=
  ∃ a b c d e f g h, (Stands n l.a a ∧ Stands n l.b b ∧ Stands n l.c c ∧ Stands n l.d d ∧
    Stands n l.e e ∧ Stands n l.f f ∧ Stands n l.g g ∧ Stands n l.h h) ∧
    s = ((a + b) + (c + d)) + ((e + f) + (g + h))

theorem lanes_total {n : ℕ} {l : Lanes α} {s : M} (hl : Abreast Stands n l s) :
    Stands (n + 3) l.total s := by
  obtain ⟨a, b, c, d, e, f, g, k, ⟨ha, hb, hc, hd, he, hf, hg, hk⟩, rfl⟩ := hl
  exact h.add (h.add (h.add ha hb) (h.add hc hd)) (h.add (h.add he hf) (h.add hg hk))

theorem lanes_sum {n : ℕ} {l : Lanes α} {s : M} (hl : Abreast Stands n l s) {xs : List α}
    (hxs : ∀ x ∈ xs, Stands 0 x (value x)) :
    Stands (n + 3 + xs.length) (l.sum xs) (s + (xs.map value).sum) := by
  fun_induction Lanes.sum l xs generalizing n s with
  | case1 l x₁ x₂ x₃ x₄ x₅ x₆ x₇ x₈ rest ih =>
      obtain ⟨a, b, c, d, e, f, g, k, ⟨ha, hb, hc, hd, he, hf, hg, hk⟩, rfl⟩ := hl
      simp only [List.mem_cons, forall_eq_or_imp] at hxs
      obtain ⟨h₁, h₂, h₃, h₄, h₅, h₆, h₇, h₈, hrest⟩ := hxs
      have hadd {z w : α} {r : M} (hz : Stands n z r) (hw : Stands 0 w (value w)) :
          Stands (n + 1) (z + w) (r + value w) := h.add hz (h.mono hw (Nat.zero_le n))
      have hblock := ih ⟨_, _, _, _, _, _, _, _, ⟨hadd ha h₁, hadd hb h₂, hadd hc h₃, hadd hd h₄,
        hadd he h₅, hadd hf h₆, hadd hg h₇, hadd hk h₈⟩, rfl⟩ hrest
      have hsum : ((a + value x₁ + (b + value x₂)) + (c + value x₃ + (d + value x₄)) +
          ((e + value x₅ + (f + value x₆)) + (g + value x₇ + (k + value x₈)))) +
          (rest.map value).sum = ((a + b) + (c + d)) + ((e + f) + (g + k)) +
            ((x₁ :: x₂ :: x₃ :: x₄ :: x₅ :: x₆ :: x₇ :: x₈ :: rest).map value).sum := by
        simp only [List.map_cons, List.sum_cons]
        abel
      rw [← hsum]
      apply h.mono hblock
      simp only [List.length_cons]
      omega
  | case2 l rest => exact h.foldl (h.lanes_total hl) hxs

theorem laneSum {xs : List α} (hxs : ∀ x ∈ xs, Stands 0 x (value x)) :
    Stands (xs.length + 3) (laneSum xs) (xs.map value).sum := by
  unfold Meristem.laneSum
  split
  case h_1 x₁ x₂ x₃ x₄ x₅ x₆ x₇ x₈ rest =>
    simp only [List.mem_cons, forall_eq_or_imp] at hxs
    obtain ⟨h₁, h₂, h₃, h₄, h₅, h₆, h₇, h₈, hrest⟩ := hxs
    have hsum := h.lanes_sum (l := ⟨x₁, x₂, x₃, x₄, x₅, x₆, x₇, x₈⟩)
      ⟨_, _, _, _, _, _, _, _, ⟨h₁, h₂, h₃, h₄, h₅, h₆, h₇, h₈⟩, rfl⟩ hrest
    have hparts : ((value x₁ + value x₂) + (value x₃ + value x₄)) +
        ((value x₅ + value x₆) + (value x₇ + value x₈)) + (rest.map value).sum =
          ((x₁ :: x₂ :: x₃ :: x₄ :: x₅ :: x₆ :: x₇ :: x₈ :: rest).map value).sum := by
      simp only [List.map_cons, List.sum_cons]
      abel
    rw [← hparts]
    apply h.mono hsum
    simp only [List.length_cons]
    omega
  case h_2 =>
    have hsum := h.foldl h.zero hxs
    rw [Nat.zero_add, zero_add] at hsum
    exact h.mono hsum (Nat.le_add_right _ 3)

/-- Each time the numbers are halved there is one more addition. -/
theorem total {k : ℕ} {xs : List α} (hxs : ∀ x ∈ xs, Stands 0 x (value x))
    (hlength : xs.length ≤ 16 + 112 * 2 ^ k) :
    Stands (131 + k) (total xs) (xs.map value).sum := by
  induction k generalizing xs with
  | zero =>
      have hfew : xs.length ≤ 128 := hlength
      rw [Meristem.total, if_pos hfew]
      exact h.mono (h.laneSum hxs) (by omega)
  | succ k ih =>
      by_cases hfew : xs.length ≤ 128
      · rw [Meristem.total, if_pos hfew]
        exact h.mono (h.laneSum hxs) (by omega)
      · rw [Meristem.total, if_neg hfew]
        rw [pow_succ] at hlength
        have hfirst : (xs.take (xs.length / 2 / 8 * 8)).length ≤ 16 + 112 * 2 ^ k := by
          rw [List.length_take]
          omega
        have hsecond : (xs.drop (xs.length / 2 / 8 * 8)).length ≤ 16 + 112 * 2 ^ k := by
          rw [List.length_drop]
          omega
        have hsum := h.add (ih (fun x hx => hxs x (List.mem_of_mem_take hx)) hfirst)
          (ih (fun x hx => hxs x (List.mem_of_mem_drop hx)) hsecond)
        rw [← List.sum_append, ← List.map_append, List.take_append_drop] at hsum
        exact hsum

end Additive
end Meristem
