import Meristem.Proofs.Grammar.Generations
import Meristem.Random.Generator
import Mathlib.Order.Bounds.Defs
import Mathlib.Data.List.MinMax
import Mathlib.Order.Nat

/-!
The bound on the length. A growth stops in the middle of a generation, as soon as what is written
of it is too long, and yet it stops for the bound exactly when one of the complete generations is
too long, and in the first of them: what is still to be written can only make a word longer. The
generations before it all fit, also when later ones are shorter again.
-/

namespace Meristem
namespace Grammar

section Longest

variable {α : Type}

/-- The length of the longest payload. -/
def longest (rules : ExpansionRules α) : Nat :=
  (rules.entries.flatMap fun entry => entry.2.toList.map fun x => x.1.length).foldr max 0

theorem length_le_longest {rules : ExpansionRules α} {s : Symbol} {payload : Word}
    (h : rules.Offers s payload) : payload.length ≤ longest rules := by
  obtain ⟨choices, weight, hchoices, hmem⟩ := h
  obtain ⟨entry, hentry, rfl⟩ := Option.map_eq_some_iff.mp hchoices
  have hlength : payload.length ∈
      rules.entries.flatMap fun entry => entry.2.toList.map fun x => x.1.length := by
    rw [List.mem_flatMap]
    exact ⟨entry, List.mem_of_find?_eq_some hentry, List.mem_map.mpr ⟨_, hmem, rfl⟩⟩
  exact List.le_max_of_le hlength (Nat.le_refl _)

variable [Arith α]

/-- A symbol is replaced by one of its payloads or copied. -/
theorem part_length_le (rules : ExpansionRules α) (s : Symbol) (u : α) :
    (part rules s u).length ≤ if rules.contains s = true then longest rules else 1 := by
  unfold part
  cases hpick : rules.pick? s u with
  | some payload =>
      have hoffers := RuleTable.offers_of_pick hpick
      obtain ⟨choices, -, hchoices, -⟩ := id hoffers
      rw [RuleTable.contains_of_choices hchoices]
      exact length_le_longest hoffers
  | none =>
      have hnone : rules.choices? s = none := Option.map_eq_none_iff.mp hpick
      simp [RuleTable.not_contains_of_choices hnone]

end Longest

variable {α σ : Type} [Arith α] [DrawSource σ α]

/-- One of the generations after the start, written to its end, is longer than the bound. -/
def Overlong (g : Grammar α) (start : Word) (source : σ) (k : Nat) : Prop :=
  1 ≤ k ∧ g.maxSymbols < (generation g.rules start source k).1.length

/-- The next generation after `word` is cut off at the symbol `s`, when `written` stands of it. -/
structure CutAt (g : Grammar α) (word : Word) (source : σ) (first : Word) (s : Symbol)
    (second written : Word) (rest : σ) : Prop where
  splits : word = first ++ s :: second
  fits : (rewrite g.rules first source).1.length ≤ g.maxSymbols
  writes : rewrite g.rules (first ++ [s]) source = (written, rest)
  exceeds : g.maxSymbols < written.length
  /-- Only the last replacement is too much. -/
  bounded : written.length ≤
    g.maxSymbols + if g.rules.contains s = true then longest g.rules else 1
  /-- Whatever is drawn for the symbols that are left, the generation is too long. -/
  settled : ∀ other : σ, g.maxSymbols < (written ++ (rewrite g.rules second other).1).length

/-- A growth of `n` generations is given up in generation `k + 1` when `reached` symbols of it are
written: it is the first that is too long, and it is cut off there. -/
structure TooLongAt (g : Grammar α) (start : Word) (source : σ) (n k reached : Nat) (rest : σ) :
    Prop where
  least : IsLeast {j | j ≤ n ∧ g.Overlong start source j} (k + 1)
  cut : ∃ first s second written,
    g.CutAt (generation g.rules start source k).1 (generation g.rules start source k).2
      first s second written rest ∧ written.length = reached

variable (g : Grammar α)

theorem GivesUp.fits {g : Grammar α} {number : Nat} {word first : Word} {source rest : σ}
    {s : Symbol} {e : GrowthError} (h : g.GivesUp number word source first s e rest) :
    (rewrite g.rules first source).1.length ≤ g.maxSymbols := by
  rcases g.derive_eq number first source with ⟨-, hfits⟩ | ⟨_, _, e, rest, -, hfails⟩
  · exact hfits
  · simp [h.before] at hfails

/-- A generation that is given up for its length is cut off at the symbol that is to blame. -/
theorem GivesUp.cutAt {g : Grammar α} {number : Nat} {word first : Word} {source rest : σ}
    {s : Symbol} {e : GrowthError} (h : g.GivesUp number word source first s e rest)
    (hdraw : e ≠ .uncoveredInterval) :
    ∃ second written, g.CutAt word source first s second written rest ∧
      e = .tooLong number g.maxSymbols written.length := by
  rcases h.cause with ⟨-, hrefused, -⟩ | ⟨-, hlong, htooLong, hrest⟩
  · exact absurd hrefused hdraw
  obtain ⟨second, rfl⟩ := h.inside
  refine ⟨second, _, ?_, htooLong⟩
  have hlast := rewrite_append g.rules first [s] source
  have hpart := part_length_le g.rules s
    (DrawSource.number (rewrite g.rules first source).2 0)
  have hfits := h.fits
  exact {
    splits := by simp
    fits := hfits
    writes := Prod.ext rfl hrest.symm
    exceeds := hlong
    bounded := by
      rw [rewrite_singleton] at hlast
      simp only [hlast, List.length_append]
      omega
    settled := by
      intro other
      rw [List.length_append]
      omega }

/-- The generation in which a growth is cut off is the first that is too long when complete. -/
theorem tooLongAt_of_cutAt {start : Word} {source rest : σ} {n k : Nat} {first second : Word}
    {s : Symbol} {written : Word} (hk : k < n) (hreaches : g.Reaches start source k)
    (h : g.CutAt (generation g.rules start source k).1 (generation g.rules start source k).2
      first s second written rest) :
    g.TooLongAt start source n k written.length rest := by
  refine ⟨⟨⟨by omega, by omega, ?_⟩, ?_⟩, first, s, second, written, h, rfl⟩
  · have hpart : first ++ [s] <+: (generation g.rules start source k).1 := by
      rw [h.splits]
      exact ⟨second, by simp⟩
    have hlong := rewrite_length_le g.rules hpart (generation g.rules start source k).2
    rw [h.writes] at hlong
    rw [generation_succ]
    exact Nat.lt_of_lt_of_le h.exceeds hlong
  · rintro j ⟨-, hone, hover⟩
    by_contra hbefore
    have hfits := hreaches.fits j hone (by omega)
    omega

/-- A growth whose draws are not refused is given up for the bound exactly when one of its complete
generations is too long. It names the first of them, and stops inside it with at most one
replacement too many. Else it returns the last generation, and all generations fit. The start word
is taken whatever its length. -/
theorem expandFrom_too_long_iff (start : Word) (n : Nat) (source : σ)
    (hdraws : (g.expandFrom start n source).1 ≠ .error .uncoveredInterval) :
    ((∃ e, (g.expandFrom start n source).1 = .error e ∧ e.isMalformed = true) ↔
      ∃ k ≤ n, g.Overlong start source k) ∧
    (∀ e rest, g.expandFrom start n source = (.error e, rest) →
      ∃ k reached, e = .tooLong (k + 1) g.maxSymbols reached ∧
        g.TooLongAt start source n k reached rest) ∧
    (∀ word rest, g.expandFrom start n source = (.ok word, rest) ↔
      (word, rest) = generation g.rules start source n ∧
        ∀ k, 1 ≤ k → k ≤ n → (generation g.rules start source k).1.length ≤ g.maxSymbols) ∧
    g.expandFrom start 0 source = (.ok start, source) := by
  rcases g.reaches_or_gives_up start source n with hreaches |
      ⟨k, hk, hreaches, first, s, e, rest, hup, hfails⟩
  · have hresult := hreaches.expands n (Nat.le_refl n)
    refine ⟨?_, ?_, ?_, rfl⟩
    · constructor
      · rintro ⟨e, herror, -⟩
        simp [hresult] at herror
      · rintro ⟨k, hk, hone, hlong⟩
        have hfits := hreaches.fits k hone hk
        omega
    · intro e rest herror
      simp [hresult] at herror
    · intro word rest
      rw [hresult]
      constructor
      · intro h
        simp only [Prod.mk.injEq, Except.ok.injEq] at h
        exact ⟨Prod.ext h.1.symm h.2.symm, hreaches.fits⟩
      · rintro ⟨h, -⟩
        rw [← h]
  · have hdraw : e ≠ .uncoveredInterval := by
      rintro rfl
      exact hdraws (congrArg Prod.fst hfails)
    obtain ⟨second, written, hcutAt, rfl⟩ := hup.cutAt hdraw
    have hcut := g.tooLongAt_of_cutAt hk hreaches hcutAt
    refine ⟨?_, ?_, ?_, rfl⟩
    · constructor
      · intro _
        exact ⟨k + 1, hcut.least.1.1, hcut.least.1.2⟩
      · intro _
        exact ⟨_, congrArg Prod.fst hfails, rfl⟩
    · intro e' rest' herror
      obtain ⟨rfl, rfl⟩ : _ = e' ∧ rest = rest' := by simpa [hfails] using herror
      exact ⟨k, _, rfl, hcut⟩
    · intro word rest'
      constructor
      · intro hreturns
        simp [hfails] at hreturns
      · rintro ⟨-, hfits⟩
        have hlong := hcut.least.1.2.2
        have hshort := hfits (k + 1) (by omega) hcut.least.1.1
        omega

/-- Two letters, of which one doubles and the other goes away, and room for four. -/
def doubling : Grammar Float where
  start := ['F']
  rules := ⟨[('F', .only ['F', 'F'] 1.0), ('G', .only [] 1.0)]⟩
  maxSymbols := 4

/-- A start word that is too long itself, and whose first two generations fit: the third is given
up with its third symbol, when six of its eight symbols are written. -/
theorem doubling_too_long :
    (doubling.expandFrom ['G', 'G', 'G', 'G', 'G', 'F'] 5 (⟨0, 1⟩ : Generator)).1 =
      .error (.tooLong 3 4 6) ∧
    (∃ rest, doubling.TooLongAt ['G', 'G', 'G', 'G', 'G', 'F'] (⟨0, 1⟩ : Generator) 5 2 6 rest) ∧
    doubling.Overlong ['G', 'G', 'G', 'G', 'G', 'F'] (⟨0, 1⟩ : Generator) 3 := by
  have hresult : (doubling.expandFrom ['G', 'G', 'G', 'G', 'G', 'F'] 5 (⟨0, 1⟩ : Generator)).1 =
      .error (.tooLong 3 4 6) := by decide +kernel
  obtain ⟨-, hstops, -, -⟩ := doubling.expandFrom_too_long_iff
    ['G', 'G', 'G', 'G', 'G', 'F'] 5 (⟨0, 1⟩ : Generator) (by
      intro hrefused
      have hsame := hresult.symm.trans hrefused
      simp at hsame)
  obtain ⟨k, reached, htooLong, hcut⟩ := hstops _ _ (Prod.ext hresult rfl)
  obtain ⟨rfl, rfl⟩ : 2 = k ∧ 6 = reached := by
    simp only [GrowthError.tooLong.injEq] at htooLong
    omega
  exact ⟨hresult, ⟨_, hcut⟩, hcut.least.1.2⟩

end Grammar
end Meristem
