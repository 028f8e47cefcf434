/-!
Lists with elements taken out. Of the elements for which `gone` holds any may go and any may stay;
all others stay, in their order. What is done to both lists element by element can be compared by
induction on how the one was made from the other.
-/

namespace Meristem

/-- The second list is the first without some of its elements, for all of which `gone` holds. -/
inductive Without {β : Type} (gone : β → Prop) : List β → List β → Prop
  | nil : Without gone [] []
  | keep (x : β) {whole rest : List β} (h : Without gone whole rest) :
      Without gone (x :: whole) (x :: rest)
  | drop {x : β} (hx : gone x) {whole rest : List β} (h : Without gone whole rest) :
      Without gone (x :: whole) rest

namespace Without

variable {β : Type} {gone : β → Prop} {whole rest : List β}

theorem refl (gone : β → Prop) (whole : List β) : Without gone whole whole := by
  induction whole with
  | nil => exact nil
  | cons x whole ih => exact keep x ih

theorem append {more left : List β} (h : Without gone whole rest) (hmore : Without gone more left) :
    Without gone (whole ++ more) (rest ++ left) := by
  induction h with
  | nil => exact hmore
  | keep x _ ih => exact keep x ih
  | drop hx _ ih => exact drop hx ih

theorem sublist (h : Without gone whole rest) : rest.Sublist whole := by
  induction h with
  | nil => exact List.Sublist.slnil
  | keep x _ ih => exact ih.cons_cons x
  | drop _ _ ih => exact ih.cons _

/-- All elements for which `gone` holds can be taken out. -/
theorem filter {stays : β → Bool} (h : ∀ x, stays x = false → gone x) (whole : List β) :
    Without gone whole (whole.filter stays) := by
  induction whole with
  | nil => exact nil
  | cons x whole ih =>
      cases hx : stays x with
      | true =>
          rw [List.filter_cons_of_pos hx]
          exact keep x ih
      | false =>
          rw [List.filter_cons_of_neg (by simp [hx])]
          exact drop (h x hx) ih

/-- What stays of the whole when all of them are taken out is what stays of the rest. -/
theorem filter_eq {stays : β → Bool} (h : Without gone whole rest)
    (hgone : ∀ x, gone x → stays x = false) : rest.filter stays = whole.filter stays := by
  induction h with
  | nil => rfl
  | keep x _ ih => rw [List.filter_cons, List.filter_cons, ih]
  | drop hx _ ih => rw [ih, List.filter_cons_of_neg (by simp [hgone _ hx])]

end Without
end Meristem
