import Meristem.Proofs.Deletion
import Meristem.Proofs.Grammar.Endomorphism

/-!
Symbols without rules take no part in growing. They are copied and take no draw, so a word from
which some of them are taken out makes the same draws for the symbols that are left, generation by
generation. The payloads bring in new ones all the time, in both words alike; what was taken out
stays missing and nothing else does. It makes the words no longer, so the bound is not met any
sooner.
-/

namespace Meristem
namespace Grammar

variable {α σ : Type} [Arith α] [DrawSource σ α] {g : Grammar α} {gone : Symbol → Prop}

section Unruled

variable (hgone : ∀ s, gone s → g.rules.contains s = false)

include hgone

/-- The two words are rewritten with the same draws, and of what is written the same is missing as
before. The induction is on how the second word comes from the first: a symbol that both have is
replaced alike, and one that only the first has is copied. -/
theorem rewrite_without {word bare : Word} (h : Without gone word bare) (source : σ) :
    Without gone (rewrite g.rules word source).1 (rewrite g.rules bare source).1 ∧
      (rewrite g.rules bare source).2 = (rewrite g.rules word source).2 := by
  induction h generalizing source with
  | nil => exact ⟨Without.nil, rfl⟩
  | keep s _ ih =>
      obtain ⟨hword, hsource⟩ := ih (DrawSource.advance source (g.rules.ruled [s]))
      rw [rewrite_cons, rewrite_cons]
      exact ⟨(Without.refl gone _).append hword, hsource⟩
  | @drop s hs _ _ _ ih =>
      have hplain : g.rules.choices? s = none := by
        simpa [RuleTable.contains] using hgone s hs
      have hcopy : part g.rules s (DrawSource.number source 0) = [s] := by
        simp [part, RuleTable.pick?, hplain]
      rw [rewrite_cons, hcopy, RuleTable.ruled_of_none hplain]
      obtain ⟨hword, hsource⟩ := ih source
      exact ⟨Without.drop hs hword, hsource⟩

theorem generation_without {start bare : Word} (h : Without gone start bare) (source : σ)
    (k : Nat) :
    Without gone (generation g.rules start source k).1 (generation g.rules bare source k).1 ∧
      (generation g.rules bare source k).2 = (generation g.rules start source k).2 := by
  induction k with
  | zero => exact ⟨h, rfl⟩
  | succ k ih =>
      obtain ⟨hword, hsource⟩ := ih
      rw [generation_succ, generation_succ, hsource]
      exact rewrite_without hgone hword _

/-- A growth that returns does so, after the same draws, from a start word without some of the
symbols without rules. -/
theorem exists_expandFrom_without {start bare word : Word} {n : Nat} {source rest : σ}
    (h : Without gone start bare) (hgrown : g.expandFrom start n source = (.ok word, rest)) :
    ∃ twin, g.expandFrom bare n source = (.ok twin, rest) ∧ Without gone word twin := by
  obtain ⟨hword, hall⟩ := (expandFrom_eq_ok_iff _ _ _ _ _).mp hgrown
  obtain ⟨htwin, hsource⟩ := generation_without hgone h source n
  rw [← hword] at htwin hsource
  refine ⟨(generation g.rules bare source n).1, ?_, htwin⟩
  apply (expandFrom_eq_ok_iff _ _ _ _ _).mpr
  refine ⟨Prod.ext rfl hsource.symm, ?_⟩
  intro k hk
  obtain ⟨hdrawn, hfits⟩ := hall k hk
  have hpart := (generation_without hgone h source k).1.sublist
  have hnext := (generation_without hgone h source (k + 1)).1.sublist
  exact ⟨fun s hs => hdrawn s (hpart.subset hs), Nat.le_trans hnext.length_le hfits⟩

end Unruled

/-- Symbols without rules do not influence what is drawn for the others. If all symbols of such a
set are taken out of the start word, the growth returns as before and makes the same draws, and what
grows is the same but for symbols of the set. -/
theorem expandFrom_filter_unruled (g : Grammar α) (U : Set Symbol) [DecidablePred (· ∈ U)]
    (hU : ∀ s ∈ U, g.rules.contains s = false) {start word : Word} {n : Int} {source rest : σ}
    (h : g.expandFrom start n source = (.ok word, rest)) :
    ∃ twin, g.expandFrom (start.filter (· ∉ U)) n source = (.ok twin, rest) ∧
      twin.filter (· ∉ U) = word.filter (· ∉ U) := by
  by_cases hsign : n < 0
  · simp [expandFrom, hsign] at h
  obtain ⟨m, rfl⟩ : ∃ m : Nat, n = m := ⟨n.toNat, by omega⟩
  have hstart : Without (· ∈ U) start (start.filter (· ∉ U)) :=
    Without.filter (by simp) start
  obtain ⟨twin, htwin, hwithout⟩ := exists_expandFrom_without hU hstart h
  exact ⟨twin, htwin, hwithout.filter_eq (by simp)⟩

/-- A shoot that either forks or only grows longer, with a leaf. -/
def bramble : Grammar Float where
  start := ['[', 'F', 'L', ']', 'F']
  rules := ⟨[('F', ⟨(['F', '[', 'F', 'L', ']'], 1.0), [(['F', 'F'], 2.0)]⟩)]⟩
  maxSymbols := 40

/-- The symbols that open and close groups. -/
def brackets : Set Symbol := {s | s = '[' ∨ s = ']'}

instance : DecidablePred (· ∈ brackets) := fun s =>
  inferInstanceAs (Decidable (s = CodePoint.ofChar '[' ∨ s = CodePoint.ofChar ']'))

/-- Two generations of a bramble, and of one that starts without its brackets. In both the first
shoot forks and the other becomes longer before the next draws are made. -/
theorem bramble_filter_brackets :
    ∃ rest : Generator,
      bramble.expandFrom ['[', 'F', 'L', ']', 'F'] 2 (⟨0, 1⟩ : Generator) =
        (.ok ['[', 'F', 'F', '[', 'F', 'F', 'L', ']', 'L', ']', 'F', '[', 'F', 'L', ']', 'F', 'F'],
          rest) ∧
      ∃ twin, bramble.expandFrom ['F', 'L', 'F'] 2 (⟨0, 1⟩ : Generator) = (.ok twin, rest) ∧
        twin.filter (· ∉ brackets) = ['F', 'F', 'F', 'F', 'L', 'L', 'F', 'F', 'L', 'F', 'F'] := by
  have hgrown : (bramble.expandFrom ['[', 'F', 'L', ']', 'F'] 2 (⟨0, 1⟩ : Generator)).1 =
      .ok ['[', 'F', 'F', '[', 'F', 'F', 'L', ']', 'L', ']', 'F', '[', 'F', 'L', ']', 'F',
        'F'] := by
    decide +kernel
  have hplain : ∀ s ∈ brackets, bramble.rules.contains s = false := by
    rintro s (rfl | rfl)
    · decide
    · decide
  obtain ⟨twin, htwin, hfilter⟩ :=
    expandFrom_filter_unruled bramble brackets hplain (Prod.ext hgrown rfl)
  exact ⟨_, Prod.ext hgrown rfl, twin, htwin, hfilter.trans (by decide)⟩

end Grammar
end Meristem
