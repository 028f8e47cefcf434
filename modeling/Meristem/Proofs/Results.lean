import Mathlib.Data.List.Forall2

/-!
Results of what can fail, and of doing it for every item of a list.
-/

namespace Meristem

theorem mapError_error {ε δ β : Type} (f : ε → δ) (e : ε) :
    (Except.error e : Except ε β).mapError f = .error (f e) := rfl

theorem mapError_ok {ε δ β : Type} (f : ε → δ) (y : β) :
    (Except.ok y : Except ε β).mapError f = .ok y := rfl

theorem mapError_eq_ok {ε δ β : Type} (f : ε → δ) (x : Except ε β) (y : β) :
    x.mapError f = .ok y ↔ x = .ok y := by
  cases x with
  | error e => simp [mapError_error]
  | ok y => simp [mapError_ok]

theorem eq_error_of_map {ε β γ : Type} {f : β → γ} {x : Except ε β} {e : ε}
    (h : x.map f = .error e) : x = .error e := by
  cases x with
  | error e => simpa [Except.map] using h
  | ok y => simp [Except.map] at h

theorem exists_eq_ok_of_isOk {ε β σ : Type} {x : Except ε β × σ} (h : x.1.isOk = true) :
    ∃ b rest, x = (.ok b, rest) := by
  obtain ⟨result, rest⟩ := x
  cases result with
  | error e => simp [Except.isOk, Except.toBool] at h
  | ok b => exact ⟨b, rest, rfl⟩

section MapM

variable {ε β γ : Type} {f : β → Except ε γ}

theorem mapM_cons_eq (x : β) (rest : List β) :
    (x :: rest).mapM f =
      match f x with
      | .error e => .error e
      | .ok y => (rest.mapM f).map (y :: ·) := by
  rw [List.mapM_cons]
  cases f x with
  | error e => rfl
  | ok y =>
      simp only [bind, Except.bind]
      cases rest.mapM f with
      | error e => rfl
      | ok ys => rfl

theorem mapM_eq_ok {xs : List β} {ys : List γ} :
    xs.mapM f = .ok ys ↔ List.Forall₂ (fun x y => f x = .ok y) xs ys := by
  induction xs generalizing ys with
  | nil =>
      rw [List.forall₂_nil_left_iff, List.mapM_nil]
      exact (Except.ok.injEq _ _).to_iff.trans eq_comm
  | cons x rest ih =>
      rw [mapM_cons_eq, List.forall₂_cons_left_iff]
      cases f x with
      | error e => simp
      | ok y =>
          simp only [Except.ok.injEq, exists_and_left, exists_eq_left', ← ih]
          cases rest.mapM f with
          | error e => simp [Except.map]
          | ok zs =>
              simp only [Except.map, Except.ok.injEq]
              exact ⟨fun h => ⟨_, rfl, h.symm⟩, fun ⟨_, hsame, h⟩ => hsame ▸ h.symm⟩

end MapM

end Meristem
