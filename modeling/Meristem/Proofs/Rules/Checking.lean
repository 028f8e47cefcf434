import Meristem.Document.Problem
import Mathlib.Data.List.Forall2

/-!
What checking finds. A check reads a value or is answered with problems, never with none. The parts
of a document have places, and a place is the way to it: the position of a part, the position of a
part of that, and so on. Checking part after part finds a problem wherever a part fails and nowhere
else, in the order of the places.
-/

namespace Meristem
namespace Checked

variable {β γ δ : Type}

@[simp] theorem under_eq_ok {step : PathStep} {c : Checked β} {v : β} :
    c.under step = .ok v ↔ c = .ok v := by
  cases c with
  | ok w => exact Iff.rfl
  | error problems => simp [under]

@[simp] theorem supply_eq_ok {f : Checked (β → γ)} {x : Checked β} {v : γ} :
    supply f x = .ok v ↔ ∃ g b, f = .ok g ∧ x = .ok b ∧ g b = v := by
  cases f with
  | ok g =>
      cases x with
      | ok b => simp [supply]
      | error problems => simp [supply]
  | error first =>
      cases x with
      | ok b => simp [supply]
      | error second => simp [supply]

theorem pair_eq_ok {x : Checked β} {y : Checked γ} {v : β × γ} :
    (supply (.ok Prod.mk) x).supply y = .ok v ↔ x = .ok v.1 ∧ y = .ok v.2 := by
  simp only [supply_eq_ok, Except.ok.injEq]
  constructor
  · rintro ⟨g, c, ⟨f, b, rfl, rfl, rfl⟩, rfl, rfl⟩
    exact ⟨rfl, rfl⟩
  · rintro ⟨rfl, rfl⟩
    exact ⟨_, _, ⟨_, _, rfl, rfl, rfl⟩, rfl, rfl⟩

theorem all_eq_ok {cs : List (Checked β)} {vs : List β} :
    all cs = .ok vs ↔ List.Forall₂ (fun c v => c = .ok v) cs vs := by
  induction cs generalizing vs with
  | nil =>
      rw [List.forall₂_nil_left_iff, all, Except.ok.injEq]
      exact eq_comm
  | cons c rest ih =>
      simp only [all, supply_eq_ok, Except.ok.injEq, List.forall₂_cons_left_iff, ih]
      constructor
      · rintro ⟨g, tail, ⟨f, head, rfl, rfl, rfl⟩, hrest, rfl⟩
        exact ⟨head, tail, rfl, hrest, rfl⟩
      · rintro ⟨head, tail, rfl, hrest, rfl⟩
        exact ⟨_, tail, ⟨_, head, rfl, rfl, rfl⟩, hrest, rfl⟩

/-- The problems that a check is answered with. -/
inductive Finds : Checked β → List Problem → Prop where
  | nothing (value : β) : Finds (.ok value) []
  | problems {ps : List Problem} (h : ps ≠ []) : Finds (.error ps) ps

theorem finds_fail (kind : ProblemKind) : Finds (fail kind : Checked β) [⟨[], kind⟩] :=
  .problems (by simp)

theorem Finds.under {c : Checked β} {ps : List Problem} (h : Finds c ps) (step : PathStep) :
    Finds (c.under step) (ps.map fun p => { p with path := step :: p.path }) := by
  cases h with
  | nothing value => exact .nothing value
  | problems h => exact .problems (by simpa using h)

theorem Finds.supply {f : Checked (β → γ)} {x : Checked β} {ps qs : List Problem}
    (hf : Finds f ps) (hx : Finds x qs) : Finds (supply f x) (ps ++ qs) := by
  cases hf with
  | nothing g =>
      cases hx with
      | nothing b => exact .nothing (g b)
      | problems h => exact .problems h
  | problems hps =>
      cases hx with
      | nothing b =>
          rw [List.append_nil]
          exact .problems hps
      | problems hqs => exact .problems (by simp [hps])

theorem Finds.eq_error {c : Checked β} {ps : List Problem} (h : Finds c ps) (hne : ps ≠ []) :
    c = .error ps := by
  cases h with
  | nothing value => exact absurd rfl hne
  | problems _ => rfl

theorem Finds.exists_eq_ok {c : Checked β} (h : Finds c []) : ∃ v, c = .ok v := by
  cases h with
  | nothing value => exact ⟨value, rfl⟩
  | problems h => exact absurd rfl h

/-- A check finds a problem at each place where something fails, and only there, in the order of the
places. -/
def Reports (c : Checked β) (Fails : List Nat → Problem → Prop) : Prop :=
  ∃ placed : List (List Nat × Problem), Finds c (placed.map (·.2)) ∧
    placed.Pairwise (fun a b => a.1 < b.1) ∧ ∀ x, x ∈ placed ↔ Fails x.1 x.2

namespace Reports

variable {Fails Others : List Nat → Problem → Prop}

theorem congr {c : Checked β} (h : Reports c Fails)
    (hsame : ∀ place p, Fails place p ↔ Others place p) : Reports c Others := by
  obtain ⟨placed, hfinds, hsorted, hmem⟩ := h
  exact ⟨placed, hfinds, hsorted, fun x => (hmem x).trans (hsame x.1 x.2)⟩

theorem nothing (v : β) : Reports (.ok v) fun _ _ => False :=
  ⟨[], .nothing v, .nil, by simp⟩

theorem fail (kind : ProblemKind) :
    Reports (fail kind : Checked β) fun place p => place = [] ∧ p = ⟨[], kind⟩ := by
  refine ⟨[([], ⟨[], kind⟩)], finds_fail kind, List.pairwise_singleton _ _, ?_⟩
  rintro ⟨place, p⟩
  simp

/-- What has no parts fails as a whole. -/
theorem leaf {c : Checked β} (h : (∃ v, c = .ok v) ∨ ∃ kind, c = Checked.fail kind) :
    Reports c fun place p => place = [] ∧ ∃ kind, c = Checked.fail kind ∧ p = ⟨[], kind⟩ := by
  rcases h with ⟨v, rfl⟩ | ⟨kind, rfl⟩
  · exact (nothing v).congr (by simp [Checked.fail])
  · exact (Reports.fail kind).congr (by simp [Checked.fail])

theorem under {c : Checked β} (h : Reports c Fails) (step : PathStep) :
    Reports (c.under step) fun place p =>
      ∃ q, Fails place q ∧ p = { q with path := step :: q.path } := by
  obtain ⟨placed, hfinds, hsorted, hmem⟩ := h
  refine ⟨placed.map fun x => (x.1, { x.2 with path := step :: x.2.path }), ?_, ?_, ?_⟩
  · have hunder := hfinds.under step
    rw [List.map_map] at hunder ⊢
    exact hunder
  · rwa [List.pairwise_map]
  · rintro ⟨place, p⟩
    simp only [List.mem_map, Prod.mk.injEq, Prod.exists, hmem]
    constructor
    · rintro ⟨_, q, hq, rfl, rfl⟩
      exact ⟨q, hq, rfl⟩
    · rintro ⟨q, hq, rfl⟩
      exact ⟨place, q, hq, rfl, rfl⟩

/-- The places inside the part at a position. -/
def Within (i : Nat) (Fails : List Nat → Problem → Prop) (place : List Nat) (p : Problem) : Prop :=
  ∃ rest, place = i :: rest ∧ Fails rest p

theorem within {c : Checked β} (h : Reports c Fails) (i : Nat) : Reports c (Within i Fails) := by
  obtain ⟨placed, hfinds, hsorted, hmem⟩ := h
  refine ⟨placed.map fun x => (i :: x.1, x.2), ?_, ?_, ?_⟩
  · rwa [List.map_map]
  · rw [List.pairwise_map]
    exact hsorted.imp fun hlt => List.cons_lt_cons_iff.mpr (Or.inr ⟨rfl, hlt⟩)
  · rintro ⟨place, p⟩
    simp only [List.mem_map, Prod.mk.injEq, Prod.exists, hmem]
    constructor
    · rintro ⟨rest, _, hp, rfl, rfl⟩
      exact ⟨rest, rfl, hp⟩
    · rintro ⟨rest, rfl, hp⟩
      exact ⟨rest, p, hp, rfl, rfl⟩

theorem supply {f : Checked (β → γ)} {x : Checked β} (hf : Reports f Fails) (hx : Reports x Others)
    (horder : ∀ a p b q, Fails a p → Others b q → a < b) :
    Reports (supply f x) fun place p => Fails place p ∨ Others place p := by
  obtain ⟨first, hfinds, hsorted, hmem⟩ := hf
  obtain ⟨second, hfinds', hsorted', hmem'⟩ := hx
  refine ⟨first ++ second, ?_, ?_, ?_⟩
  · rw [List.map_append]
    exact hfinds.supply hfinds'
  · rw [List.pairwise_append]
    exact ⟨hsorted, hsorted', fun a ha b hb => horder _ _ _ _ ((hmem a).mp ha) ((hmem' b).mp hb)⟩
  · intro y
    rw [List.mem_append, hmem, hmem']

/-- Two parts, one after the other. -/
theorem pair {x : Checked β} {y : Checked γ} (hx : Reports x Fails) (hy : Reports y Others) :
    Reports ((Checked.supply (.ok Prod.mk) x).supply y) fun place p =>
      Within 0 Fails place p ∨ Within 1 Others place p := by
  have hfirst : Reports (Checked.supply (.ok (Prod.mk (α := β) (β := γ))) x) (Within 0 Fails) :=
    ((nothing _).supply (hx.within 0) (by simp)).congr (by simp)
  apply hfirst.supply (hy.within 1)
  rintro _ p _ q ⟨a, rfl, -⟩ ⟨b, rfl, -⟩
  exact List.cons_lt_cons_iff.mpr (Or.inl Nat.zero_lt_one)

/-- Part after part, each at its position. -/
theorem all {cs : List (Checked β)} {FailsAt : Nat → List Nat → Problem → Prop}
    (h : ∀ i c, cs[i]? = some c → Reports c (FailsAt i)) :
    Reports (all cs) fun place p => ∃ i < cs.length, Within i (FailsAt i) place p := by
  suffices hfrom : ∀ k, Reports (Checked.all cs)
      fun place p => ∃ i < cs.length, Within (k + i) (FailsAt i) place p by
    simpa using hfrom 0
  induction cs generalizing FailsAt with
  | nil => exact fun k => (nothing []).congr (by simp)
  | cons c rest ih =>
      intro k
      have hhead := (h 0 c rfl).within k
      have htail := @ih (fun i => FailsAt (i + 1)) (fun i d hd => h (i + 1) d hd) (k + 1)
      have hcons : Reports (Checked.supply (.ok List.cons) c) (Within k (FailsAt 0)) :=
        ((nothing _).supply hhead (by simp)).congr (by simp)
      refine (hcons.supply htail ?_).congr ?_
      · rintro _ p _ q ⟨a, rfl, -⟩ ⟨i, -, b, rfl, -⟩
        exact List.cons_lt_cons_iff.mpr (Or.inl (by omega))
      · intro place p
        simp only [List.length_cons]
        constructor
        · rintro (hfirst | ⟨i, hi, hlater⟩)
          · exact ⟨0, by omega, hfirst⟩
          · exact ⟨i + 1, by omega, by rwa [Nat.add_right_comm] at hlater⟩
        · rintro ⟨i, hi, hin⟩
          cases i with
          | zero => exact Or.inl hin
          | succ i => exact Or.inr ⟨i, by omega, by rwa [Nat.add_right_comm]⟩

end Reports

end Checked
end Meristem
