import Meristem.Proofs.Grammar.Generations
import Meristem.Proofs.Rounded.Shares
import Meristem.Proofs.Rules.Reading
import Meristem.Random.Generator

/-!
Draws on doubles. The weights of a table that is read from a document are finite and above zero,
one by one; nothing is asked of what they come to. A draw divides by their sum, and the sum of
finite weights may be infinite. That is the only way in which a draw can fail: as long as the sum
is finite, every number of the unit interval picks one of the payloads, whatever the weights are
and however they are rounded.
-/

namespace Meristem

open Float.Model Float.Model.UnpackedFloat

/-- The numbers of the source lie in the unit interval, one excluded. -/
def DrawSource.InUnit (σ : Type) [DrawSource σ Float] : Prop :=
  ∀ source : σ, 0.0 ≤ number source 0 ∧ number source 0 < 1.0

section Generator

theorem toReal_toFloat {n : UInt64} (hn : n.toNat < 2 ^ 53) :
    n.toFloat.isFinite = true ∧ toReal n.toFloat = n.toNat := by
  have hnearest := (rounds_normalize (n.toNat : ℤ) 0 .positive).nearest
  rw [Int.cast_natCast, zpow_zero, mul_one] at hnearest
  obtain ⟨w, hw, hvalue⟩ := exists_double_scaled (n := n.toNat) (q := 0) (by simpa using hn)
    (by norm_num) (by norm_num)
  rw [Int.cast_natCast, zpow_zero, mul_one] at hvalue
  exact Nearest.exact (z := n.toFloat) hnearest hw hvalue

/-- The generator keeps to the unit interval. -/
theorem Generator.inUnit : DrawSource.InUnit Generator := by
  intro g
  obtain ⟨n, hn, hnumber⟩ : ∃ n : UInt64, n.toNat < 2 ^ 53 ∧
      DrawSource.number g 0 = n.toFloat * (1.0 / 9007199254740992.0) := by
    refine ⟨g.next.1 >>> 11, ?_, rfl⟩
    have hbits := g.next.1.toNat_lt
    have heleven : (11 : UInt64).toNat % 64 = 11 := rfl
    rw [UInt64.toNat_shiftRight, heleven, Nat.shiftRight_eq_div_pow]
    omega
  obtain ⟨hfloat, hvalue⟩ := toReal_toFloat hn
  have hunit : toReal (1.0 / 9007199254740992.0) = 2 ^ (-53 : ℤ) := by
    have hscaled : toReal (1.0 / 9007199254740992.0) =
        (4503599627370496 : ℕ) * 2 ^ (-105 : ℤ) := rfl
    rw [hscaled]
    norm_num
  have hnearest := @mul_nearest n.toFloat (1.0 / 9007199254740992.0) hfloat rfl
  rw [hvalue, hunit] at hnearest
  obtain ⟨w, hw, hproduct⟩ := exists_double_scaled (n := n.toNat) (q := -53) (by simpa using hn)
    (by norm_num) (by norm_num)
  rw [Int.cast_natCast] at hproduct
  obtain ⟨hfinite, hresult⟩ := hnearest.exact hw hproduct
  have hless : (n.toNat : ℝ) < 2 ^ (53 : ℤ) := by exact_mod_cast hn
  rw [hnumber]
  constructor
  · rw [le_iff_toReal rfl hfinite, hresult, toReal_zero]
    positivity
  · rw [lt_iff_toReal hfinite rfl, hresult, toReal_one]
    calc (n.toNat : ℝ) * 2 ^ (-53 : ℤ) < 2 ^ (53 : ℤ) * 2 ^ (-53 : ℤ) := by gcongr
      _ = 1 := by norm_num

end Generator

namespace RuleTable

variable {π : Type} [SpelledPayload π] {d : Document} {t : RuleTable π Float} {s : Symbol}
  {c : Choices π Float}

/-- No symbol has more choices than 63 bits can count. -/
def Indexable (t : RuleTable π Float) : Prop :=
  ∀ s c, t.choices? s = some c → c.toList.length < 2 ^ 63

/-- The weights of a table that is read from a document are finite and above zero. -/
theorem weighty_of_ofDocument (h : ofDocument d = .ok t) (hs : t.choices? s = some c) :
    ∀ w ∈ c.weights, Weighty w := by
  have hspelled : ∃ entries : Document.Entries, List.Forall₂ SpellsEntry entries t.entries := by
    cases d with
    | table entries => exact ⟨entries, ofDocument_eq_ok.mp h⟩
    | _ => simp [ofDocument, Checked.fail, Checked.under] at h
  obtain ⟨entries, hspelled⟩ := hspelled
  obtain ⟨rule, hrule, rfl⟩ := Option.map_eq_some_iff.mp hs
  obtain ⟨entry, -, -, hchoices⟩ :=
    exists_mem_of_forall₂ hspelled.flip (List.mem_of_find?_eq_some hrule)
  intro w hw
  obtain ⟨choice, hchoice, rfl⟩ := List.mem_map.mp hw
  obtain ⟨hfinite, hpos⟩ := weights_of_spelled hchoices hchoice
  rw [lt_iff_toReal rfl hfinite, toReal_zero] at hpos
  exact ⟨hfinite, hpos⟩

variable {σ : Type} [DrawSource σ Float]

omit [SpelledPayload π] in
theorem draw_of_choices (hs : t.choices? s = some c) (source : σ) :
    t.draw s source =
      if c.covers = true then
        (.ok (c.pick (DrawSource.number source 0)), DrawSource.advance source 1)
      else (.error .uncoveredInterval, source) := by
  rw [draw, choicesOf, hs]
  exact c.draw_eq source

theorem draw_of_finite (hunit : DrawSource.InUnit σ) (h : ofDocument d = .ok t)
    (hs : t.choices? s = some c) (hlength : c.toList.length < 2 ^ 63)
    (hfinite : (total c.weights).isFinite = true) (source : σ) :
    ∃ i, ∃ hi : i < c.toList.length,
      t.draw s source = (.ok c.toList[i].1, DrawSource.advance source 1) := by
  have hweights := weighty_of_ofDocument h hs
  obtain ⟨hlow, hhigh⟩ := hunit source
  have hindex := Choices.index_lt_of_finite hweights hlength hfinite hlow hhigh
  refine ⟨_, hindex, ?_⟩
  rw [draw_of_choices hs, if_pos (Choices.covers_of_finite hweights hlength hfinite),
    Choices.pick_eq_getElem hindex]

theorem draw_of_infinite (h : ofDocument d = .ok t) (hs : t.choices? s = some c)
    (hlength : c.toList.length < 2 ^ 63) (hinfinite : (total c.weights).isFinite = false)
    (source : σ) : t.draw s source = (.error .uncoveredInterval, source) := by
  have hweights := weighty_of_ofDocument h hs
  rw [draw_of_choices hs, Choices.not_covers_of_infinite hweights hlength hinfinite]
  rfl

/-- The symbol is refused exactly where the sum of its weights is out of range. -/
theorem infinite_of_refuses (h : ofDocument d = .ok t) (hindexable : t.Indexable)
    (hrefuses : t.refuses s = true) :
    ∃ c, t.choices? s = some c ∧ (total c.weights).isFinite = false := by
  rw [refuses, Option.any_eq_true] at hrefuses
  obtain ⟨c, hs, hcovers⟩ := hrefuses
  refine ⟨c, hs, ?_⟩
  by_contra hfinite
  rw [Bool.not_eq_false] at hfinite
  have hcovered := Choices.covers_of_finite (weighty_of_ofDocument h hs) (hindexable s c hs) hfinite
  simp [hcovered] at hcovers

end RuleTable

namespace Grammar

open RuleTable

variable {σ : Type} [DrawSource σ Float]

/-- A growth fails on a negative number of generations, on a generation that is too long, or at a
symbol whose weights are out of range together. -/
theorem expandFrom_error_cases {d : Document} {g : Grammar Float} (h : ofDocument d = .ok g.rules)
    (hindexable : g.rules.Indexable) {start : Word} {n : Int} {source rest : σ} {e : GrowthError}
    (hfails : g.expandFrom start n source = (.error e, rest)) :
    (n < 0 ∧ e = .negativeGenerations (toString n)) ∨
    (∃ k reached, g.maxSymbols < reached ∧ e = .tooLong k g.maxSymbols reached) ∨
    (e = .uncoveredInterval ∧
      ∃ s c, g.rules.choices? s = some c ∧ (total c.weights).isFinite = false) := by
  by_cases hneg : n < 0
  · rw [expandFrom, if_pos hneg, Prod.mk.injEq, Except.error.injEq] at hfails
    exact Or.inl ⟨hneg, hfails.1.symm⟩
  · obtain ⟨k, rfl⟩ := Int.eq_ofNat_of_zero_le (Int.not_lt.mp hneg)
    rcases g.reaches_or_gives_up start source k with hreaches |
        ⟨j, -, -, first, s, cause, last, hup, hstops⟩
    · rw [hreaches.expands k (Nat.le_refl k)] at hfails
      simp at hfails
    · rw [hstops, Prod.mk.injEq, Except.error.injEq] at hfails
      obtain ⟨rfl, rfl⟩ := hfails
      rcases hup.cause with ⟨hrefuses, rfl, -⟩ | ⟨-, hlong, rfl, -⟩
      · exact Or.inr (Or.inr ⟨rfl, s, infinite_of_refuses h hindexable hrefuses⟩)
      · exact Or.inr (Or.inl ⟨_, _, hlong, rfl⟩)

end Grammar

namespace RuleTable

/-- A table that is read from a document can be drawn from wherever the weights of a symbol have a
finite sum: every number of the unit interval picks one of the payloads. Where the sum is not
finite, every draw is refused and takes no number. Which of the two holds is decided by what the
weights come to, but for one part in `2 ^ 44`: up to the largest double the sum is finite, and
above it is not. A growth fails on such a symbol, on a negative number of generations and on its
length, and on nothing else. -/
theorem draw_refused_iff_out_of_range {π σ : Type} [SpelledPayload π] [DrawSource σ Float]
    (hunit : DrawSource.InUnit σ) {d : Document} {t : RuleTable π Float}
    (h : ofDocument d = .ok t) (hindexable : t.Indexable) :
    (∀ s c, t.choices? s = some c →
      ((total c.weights).isFinite = true → ∀ source : σ, ∃ i, ∃ hi : i < c.toList.length,
        t.draw s source = (.ok c.toList[i].1, DrawSource.advance source 1)) ∧
      ((total c.weights).isFinite = false → ∀ source : σ,
        t.draw s source = (.error .uncoveredInterval, source)) ∧
      (worth c.weights * (1 + slack) ≤ largest → (total c.weights).isFinite = true) ∧
      ((total c.weights).isFinite = true → worth c.weights * (1 - slack) ≤ largest)) ∧
    ∀ (g : Grammar Float) (rules : Document), ofDocument rules = .ok g.rules → g.rules.Indexable →
      ∀ start n (source : σ) e rest, g.expandFrom start n source = (.error e, rest) →
        (n < 0 ∧ e = .negativeGenerations (toString n)) ∨
        (∃ k reached, g.maxSymbols < reached ∧ e = .tooLong k g.maxSymbols reached) ∨
        (e = .uncoveredInterval ∧
          ∃ s c, g.rules.choices? s = some c ∧ (total c.weights).isFinite = false) := by
  constructor
  · intro s c hs
    have hlength := hindexable s c hs
    have hample (w : Float) (hw : w ∈ c.weights) : Ample w :=
      (weighty_of_ofDocument h hs w hw).ample
    refine ⟨draw_of_finite hunit h hs hlength, draw_of_infinite h hs hlength, ?_, ?_⟩
    · exact total_isFinite hample (by rwa [Choices.length_weights])
    · exact worth_le_of_total hample (by rwa [Choices.length_weights])
  · intro g rules hrules hrulesIndexable start n source e rest hfails
    exact Grammar.expandFrom_error_cases hrules hrulesIndexable hfails

/-- A weight that is in range where two of it are not. -/
def huge : Float := 1e308

theorem huge_spelled : (Document.real huge).SpellsWeight huge :=
  ⟨rfl, by decide +kernel, by decide +kernel⟩

/-- A symbol with two huge weights, and one with a single one. -/
def heavy : ExpansionRules Float :=
  ⟨[('F', ⟨(['A'], huge), [(['A'], huge)]⟩), ('X', .only ['B'] huge)]⟩

def heavyDocument : Document :=
  .table [(.text ['F'], .list [.list [.text ['A'], .real huge], .list [.text ['A'], .real huge]]),
    (.text ['X'], .table [(.text ['B'], .real huge)])]

theorem draw_heavy :
    DrawSource.InUnit Generator ∧ ofDocument heavyDocument = .ok heavy ∧ heavy.Indexable ∧
    ∀ g : Generator, heavy.draw 'F' g = (.error .uncoveredInterval, g) ∧
      heavy.draw 'X' g = (.ok ['B'], DrawSource.advance g 1) := by
  have hread : ofDocument heavyDocument = .ok heavy := by
    have hpair (c : Symbol) : SpellsPair (.list [.text [c], .real huge]) (([c] : Word), huge) :=
      .pair [c] huge_spelled
    rw [heavyDocument, ofDocument_eq_ok]
    refine .cons ⟨rfl, _, .list _, ?_⟩ (.cons ⟨rfl, _, .table _, ?_⟩ .nil)
    · exact .cons (hpair 'A') (.cons (hpair 'A') .nil)
    · exact .cons (hpair 'B') .nil
  have hindexable : heavy.Indexable := by
    intro s c hs
    obtain ⟨rule, hrule, rfl⟩ := Option.map_eq_some_iff.mp hs
    have hmem := List.mem_of_find?_eq_some hrule
    simp only [heavy, List.mem_cons, List.not_mem_nil, or_false] at hmem
    rcases hmem with rfl | rfl
    · norm_num [Choices.toList]
    · norm_num [Choices.toList, Choices.only]
  obtain ⟨hdraws, -⟩ := draw_refused_iff_out_of_range Generator.inUnit hread hindexable
  obtain ⟨-, hrefused, -, -⟩ := hdraws 'F' _ rfl
  obtain ⟨hdrawn, -, -, -⟩ := hdraws 'X' (.only ['B'] huge) rfl
  have hinfinite : (total [huge, huge]).isFinite = false := by
    have hsum : (0.0 + huge + huge).isFinite = false := by decide +kernel
    rw [total, if_pos (by simp)]
    exact hsum
  have hfinite : (total [huge]).isFinite = true := by
    have hsum : (0.0 + huge).isFinite = true := by decide +kernel
    rw [total, if_pos (by simp)]
    exact hsum
  refine ⟨Generator.inUnit, hread, hindexable, fun g => ⟨hrefused hinfinite g, ?_⟩⟩
  obtain ⟨i, hi, hdraw⟩ := hdrawn hfinite g
  obtain rfl : i = 0 := Nat.lt_one_iff.mp hi
  exact hdraw

end RuleTable

end Meristem
