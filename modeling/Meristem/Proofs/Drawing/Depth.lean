import Meristem.Proofs.Drawing.Unmatched
import Meristem.Proofs.Drawing.Visibility

/-!
How deep the turtle at work is. Its depth is told by the brackets before the symbol it meets: it is
as many levels below the root as groups are open there.
-/

namespace Meristem

open Command

namespace Pen

/-- The depth of the turtle that meets the symbol at `i`: one more than the root's for every
bracket that is open there. -/
def depthAt {α : Type} (pen : Pen α) (root : Turtle α) (symbols : Word) (i : Nat) : Int :=
  root.depth + height pen.bracket (symbols.take i)

variable {α τ : Type} [Scalar α] [DrawSource τ α] {pen : Pen α} {symbols : Word}
  {root : Turtle α} {source rest : τ} {commands : List Command}

/-- A turtle waits for every bracket that is open on the way to the one at work. -/
theorem parents_length_eq_openOn {i : Nat} {w : Walk α} (hi : i ≤ commands.length)
    (h : pen.stateAt root commands i = .ok w) :
    w.parents.length = openOn (path (commands.take i)) := by
  have hpath (trail : List (Command × Nat)) :
      (trail.filter (·.1 ≠ .leave)).countP (·.1 = .enter) = trail.countP (·.1 = .enter) := by
    rw [List.countP_filter]
    apply List.countP_congr
    rintro ⟨c, m⟩ -
    cases c <;> simp
  simp only [openOn, countOn, path, hpath]
  induction i using Nat.strongRecOn generalizing w with
  | ind i ih =>
      rcases lineage_of_stateAt hi h with
        ⟨hbottom, hnone⟩ | ⟨j, v, inner, hj, hv, hsplit, hinner, hstack⟩
      · have hopen : (trail (commands.take i)).countP (·.1 = .enter) = 0 := by
          rw [List.countP_eq_zero]
          intro x hx
          simpa using hnone x hx
        rw [hbottom, hopen, List.length_nil]
      · have hclosed : inner.countP (·.1 = .enter) = 0 := by
          rw [List.countP_eq_zero]
          intro x hx
          simpa using hinner x hx
        rw [hstack, List.length_cons, ih j hj (by omega) hv, hsplit, List.countP_append, hclosed,
          List.countP_cons_of_pos (by simp), Nat.zero_add]

theorem Passes.depth_eq (hread : pen.read symbols source = (.ok commands, rest)) {i : Nat}
    {before after : Walk α} (h : pen.Passes symbols root source i before after) :
    before.current.depth = pen.depthAt root symbols i := by
  have hopen := parents_length_eq_openOn (h.le_length hread) (h.states hread).1
  have hwait := walk_parents (Prod.ext h.comes rfl)
  simp only [Walk.start, List.length_nil, Nat.cast_zero, zero_add] at hwait
  rw [(h.grown hread).depth_eq, ← hopen, hwait, depthAt]

end Pen
end Meristem
