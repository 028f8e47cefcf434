import Meristem.Proofs.Draws

/-!
Where shares end, in any arithmetic. The bounds of the shares are as many as the payloads, each is
what the running sum has come to divided by what it comes to in the end, and the payload at the
first bound above a number is the one that the number picks.
-/

namespace Meristem
namespace Choices

variable {π α : Type}

/-- The weights in the order of the table. -/
def weights (c : Choices π α) : List α := c.toList.map (·.2)

theorem length_weights (c : Choices π α) : c.weights.length = c.toList.length := List.length_map _

variable [Arith α]

theorem length_runningSums (sum : α) (xs : List α) :
    (runningSums sum xs).length = xs.length + 1 := by
  induction xs generalizing sum with
  | nil => rfl
  | cons x rest ih => rw [runningSums, List.length_cons, ih, List.length_cons]

/-- A running sum at a place is the sum of all that stands before it. -/
theorem getElem?_runningSums {sum : α} {xs : List α} {i : Nat} (hi : i ≤ xs.length) :
    (runningSums sum xs)[i]? = some ((xs.take i).foldl (· + ·) sum) := by
  induction xs generalizing sum i with
  | nil =>
      obtain rfl : i = 0 := by simpa using hi
      rfl
  | cons x rest ih =>
      cases i with
      | zero => rfl
      | succ i =>
          rw [List.length_cons] at hi
          rw [runningSums, List.getElem?_cons_succ, ih (by omega), List.take_succ_cons,
            List.foldl_cons]

theorem shares_eq (c : Choices π α) : c.shares = c.weights.map (· / total c.weights) := rfl

theorem length_shares (c : Choices π α) : c.shares.length = c.toList.length := by
  rw [shares_eq, List.length_map, length_weights]

theorem length_bounds (c : Choices π α) : c.bounds.length = c.toList.length := by
  rw [← length_shares, bounds]
  cases c.shares with
  | nil => rfl
  | cons first rest => rw [List.length_map, length_runningSums, List.length_cons]

theorem exists_shares_eq (c : Choices π α) : ∃ first rest, c.shares = first :: rest := by
  cases hshares : c.shares with
  | nil =>
      have hlength := c.length_shares
      rw [hshares, toList] at hlength
      simp at hlength
  | cons first rest => exact ⟨first, rest, rfl⟩

theorem getElem?_bounds {c : Choices π α} {first : α} {rest : List α}
    (hshares : c.shares = first :: rest) {i : Nat} (hi : i < c.toList.length) :
    c.bounds[i]? = some ((rest.take i).foldl (· + ·) first / rest.foldl (· + ·) first) := by
  have hlength := c.length_shares
  rw [hshares, List.length_cons] at hlength
  rw [bounds, hshares, List.getElem?_map, getElem?_runningSums (by omega), Option.map_some]

/-- A number that is below some bound picks the payload that stands at the first such bound. -/
theorem pick_eq_getElem {c : Choices π α} {u : α} (hi : c.index u < c.toList.length) :
    c.pick u = c.toList[c.index u].1 := by
  rw [pick, List.getElem?_eq_getElem hi]

theorem index_lt_of_bound {c : Choices π α} {u bound : α} (hmem : bound ∈ c.bounds)
    (hu : u < bound) : c.index u < c.toList.length := by
  rw [← length_bounds, index]
  exact List.findIdx_lt_length_of_exists ⟨bound, hmem, decide_eq_true hu⟩

end Choices
end Meristem
