import Meristem.Proofs.Grammar.Endomorphism
import Mathlib.Algebra.Ring.GeomSum
import Mathlib.Data.Fintype.OfMap
import Mathlib.Data.Matrix.Mul

/-!
How often each symbol occurs. Where all payloads of a symbol hold each symbol equally often, the
draws decide about the order of a generation but not about its symbols, and counting them is linear:
one round of rewriting multiplies the counts by a matrix that the rules give, and so many rounds by
its power. The default rule has one payload, and its counts have a closed form, by which it can be
said beforehand how far a growth comes.
-/

namespace Meristem

instance : Fintype CodePoint :=
  .ofEquiv (Fin 0x110000) ⟨.mk, CodePoint.point, fun _ => rfl, fun _ => rfl⟩

/-- All payloads of a symbol hold each symbol equally often. -/
def RuleTable.PayloadsAgree {α : Type} (rules : ExpansionRules α) : Prop :=
  ∀ s first second, rules.Offers s first → rules.Offers s second →
    ∀ c, first.count c = second.count c

theorem RuleTable.Decided.payloadsAgree {α : Type} {rules : ExpansionRules α}
    (h : rules.Decided) : rules.PayloadsAgree := by
  intro s first second hfirst hsecond c
  rw [h s first second hfirst hsecond]

namespace Grammar

/-- How often each symbol occurs in a word. -/
def tally (word : Word) (c : Symbol) : ℕ := word.count c

/-- How often each symbol occurs in what stands for another one in the next generation. -/
def growthMatrix {α : Type} (rules : ExpansionRules α) : Matrix Symbol Symbol ℕ :=
  .of fun s => tally (image rules s)

open Matrix

variable {α σ : Type} [Arith α] [DrawSource σ α]

section Agree

variable {rules : ExpansionRules α} (hrules : rules.PayloadsAgree)

include hrules

/-- Whatever is drawn for a symbol holds the symbols that its image holds. -/
theorem tally_part (s : Symbol) (u : α) : tally (part rules s u) = tally (image rules s) := by
  unfold part image
  cases hchoices : rules.choices? s with
  | none => simp [RuleTable.pick?, hchoices]
  | some choices =>
      have hpick : rules.pick? s u = some (choices.pick u) := by simp [RuleTable.pick?, hchoices]
      have hfirst : rules.Offers s choices.first.1 :=
        ⟨choices, choices.first.2, hchoices, by simp [Choices.toList]⟩
      rw [hpick, Option.getD_some]
      exact funext (hrules s _ _ (RuleTable.offers_of_pick hpick) hfirst)

/-- One round of rewriting is linear in the counts. -/
theorem tally_rewrite (word : Word) (source : σ) :
    tally (rewrite rules word source).1 = tally word ᵥ* growthMatrix rules := by
  induction word generalizing source with
  | nil =>
      funext c
      simp [tally, vecMul, dotProduct]
  | cons s word ih =>
      have hcons : tally (s :: word) = Pi.single s 1 + tally word := by
        funext c
        by_cases hc : c = s
        · simp [tally, hc, add_comm]
        · simp [tally, hc, List.count_cons_of_ne (Ne.symm hc)]
      have hconcat (first second : Word) : tally (first ++ second) = tally first + tally second :=
        funext fun c => List.count_append
      rw [rewrite_cons, hconcat, tally_part hrules, ih, hcons, add_vecMul, single_one_vecMul]
      rfl

/-- So many generations multiply the counts by the power of the matrix. -/
theorem tally_generation (start : Word) (source : σ) (k : ℕ) :
    tally (generation rules start source k).1 = tally start ᵥ* growthMatrix rules ^ k := by
  induction k with
  | zero => rw [generation_zero, pow_zero, vecMul_one]
  | succ k ih => rw [generation_succ, tally_rewrite hrules, ih, vecMul_vecMul, pow_succ]

end Agree

section Default

/-- The only symbol with a default rule. -/
def shoot : Symbol := 'F'

/-- The payload of the default rule. -/
def defaultPayload : Word := Text.ofString "FF+[+F-F-F]-[-F+F+F]"

theorem default_decided : (ExpansionRules.default : ExpansionRules Float).Decided := by
  apply RuleTable.decided_of_single
  intro s choices h
  obtain ⟨entry, hentry, rfl⟩ := Option.map_eq_some_iff.mp h
  have hmem : entry ∈ (ExpansionRules.default : ExpansionRules Float).entries :=
    List.mem_of_find?_eq_some hentry
  rw [List.mem_singleton.mp hmem]
  rfl

theorem default_not_refuses (s : Symbol) :
    (ExpansionRules.default : ExpansionRules Float).refuses s = false := by
  unfold RuleTable.refuses
  cases hchoices : (ExpansionRules.default : ExpansionRules Float).choices? s with
  | none => rfl
  | some choices =>
      obtain ⟨entry, hentry, rfl⟩ := Option.map_eq_some_iff.mp hchoices
      have hmem : entry ∈ (ExpansionRules.default : ExpansionRules Float).entries :=
        List.mem_of_find?_eq_some hentry
      rw [List.mem_singleton.mp hmem]
      decide +kernel

theorem image_default (s : Symbol) :
    image (ExpansionRules.default : ExpansionRules Float) s =
      if s = shoot then defaultPayload else [s] := by
  have hshoot : CodePoint.ofChar 'F' = shoot := rfl
  unfold image RuleTable.choices?
  by_cases hs : s = shoot
  · simp [ExpansionRules.default, hs, hshoot, Choices.only, defaultPayload]
  · simp [ExpansionRules.default, hs, hshoot, Ne.symm hs]

/-- The matrix of the default rule has the eight shoots of the payload in one column. -/
theorem growthMatrix_default (s : Symbol) :
    growthMatrix (ExpansionRules.default : ExpansionRules Float) s shoot =
      if s = shoot then 8 else 0 := by
  rw [growthMatrix, of_apply, image_default]
  split
  · decide
  · rename_i hs
    simp [tally, hs]

variable {τ : Type} [DrawSource τ Float]

theorem shoots_rewrite (word : Word) (source : τ) :
    (rewrite (ExpansionRules.default : ExpansionRules Float) word source).1.count shoot =
      word.count shoot * 8 := by
  have hcounts := congrFun (tally_rewrite default_decided.payloadsAgree word source) shoot
  simpa [tally, vecMul, dotProduct, growthMatrix_default] using hcounts

/-- Each shoot gives way to twenty symbols, and all else stays. -/
theorem length_rewrite (word : Word) (source : τ) :
    (rewrite (ExpansionRules.default : ExpansionRules Float) word source).1.length =
      word.length + word.count shoot * 19 := by
  rw [rewrite_eq_flatMap default_decided]
  induction word with
  | nil => rfl
  | cons s word ih =>
      rw [List.flatMap_cons, List.length_append, ih, image_default, List.length_cons]
      by_cases hs : s = shoot
      · have hlength : defaultPayload.length = 20 := by decide
        rw [if_pos hs, hs, List.count_cons_self, hlength]
        omega
      · rw [if_neg hs, List.count_cons_of_ne hs, List.length_singleton]
        omega

/-- The closed forms for all generations of the default rule. -/
theorem generation_default (start : Word) (source : τ) (k : ℕ) :
    (generation ExpansionRules.default start source k).1.count shoot = start.count shoot * 8 ^ k ∧
      (generation ExpansionRules.default start source k).1.length =
        start.length + start.count shoot * 19 * ∑ j ∈ Finset.range k, 8 ^ j := by
  induction k with
  | zero => simp
  | succ k ih =>
      obtain ⟨hshoots, hlength⟩ := ih
      rw [generation_succ, shoots_rewrite, length_rewrite, hshoots, hlength,
        Finset.sum_range_succ]
      constructor
      · ring
      · ring

theorem length_eq_div (f k : ℕ) :
    f * 19 * ∑ j ∈ Finset.range k, 8 ^ j = f * 19 * (8 ^ k - 1) / 7 := by
  have hsum : 8 ^ k - 1 = (∑ j ∈ Finset.range k, 8 ^ j) * 7 := by
    have hgeometric : (∑ j ∈ Finset.range k, 8 ^ j) * 7 + 1 = 8 ^ k := geom_sum_mul_add 7 k
    omega
  rw [hsum, ← mul_assoc, Nat.mul_div_cancel _ (by norm_num)]

/-- What `n` generations of the default rule come to. -/
structure DefaultGrowth (g : Grammar Float) (start : Word) (n : ℕ) (source : τ) : Prop where
  counts : ∀ word rest, g.expandFrom start n source = (.ok word, rest) →
    word.count shoot = start.count shoot * 8 ^ n ∧
      word.length = start.length + start.count shoot * 19 * (8 ^ n - 1) / 7
  returns : 1 ≤ n → ((∃ word rest, g.expandFrom start n source = (.ok word, rest)) ↔
    start.length + start.count shoot * 19 * (8 ^ n - 1) / 7 ≤ g.maxSymbols)

/-- No draw is refused and no generation is shorter than the one before, so a growth by the default
rule returns if the last of its generations fits. -/
theorem defaultGrowth {g : Grammar Float} (hdefault : g.rules = .default) (start : Word) (n : ℕ)
    (source : τ) : g.DefaultGrowth start n source := by
  have hclosed (k : ℕ) := generation_default start source k
  refine ⟨?_, ?_⟩
  · intro word rest h
    have hword : word = (generation .default start source n).1 := by
      rw [← hdefault]
      exact congrArg Prod.fst (expandFrom_eq_generation h)
    rw [hword, ← length_eq_div]
    exact hclosed n
  · intro hn
    obtain ⟨m, rfl⟩ : ∃ m, n = m + 1 := ⟨n - 1, by omega⟩
    rw [← length_eq_div, ← (hclosed (m + 1)).2]
    constructor
    · rintro ⟨word, rest, h⟩
      rw [← hdefault]
      exact (((expandFrom_eq_ok_iff _ _ _ _ _).mp h).2 m (Nat.lt_succ_self m)).2
    · intro hfits
      refine ⟨_, _, (expandFrom_eq_ok_iff _ _ _ _ _).mpr ⟨rfl, ?_⟩⟩
      intro k hk
      rw [hdefault]
      refine ⟨fun s _ => default_not_refuses s, le_trans ?_ hfits⟩
      rw [(hclosed (k + 1)).2, (hclosed (m + 1)).2]
      have hmore : ∑ j ∈ Finset.range (k + 1), 8 ^ j ≤ ∑ j ∈ Finset.range (m + 1), 8 ^ j :=
        Finset.sum_le_sum_of_subset (Finset.range_mono (by omega))
      gcongr

end Default

/-- Where the payloads of each symbol agree in their counts, the symbols of what a growth returns
are known without its draws: their counts are those of the start word times a power of the matrix
of the rules. For the default rule they have closed forms, and whether a growth returns at all can
be read off the length that these forms give. -/
theorem expandFrom_count {τ : Type} [DrawSource τ Float] {g : Grammar α}
    (hagree : g.rules.PayloadsAgree) (start : Word) (n : Int) (source : σ) :
    (∀ word rest, g.expandFrom start n source = (.ok word, rest) →
      ∃ k : ℕ, n = k ∧
        ∀ c, word.count c = ∑ s, start.count s * (growthMatrix g.rules ^ k) s c) ∧
    ∀ plain : Grammar Float, plain.rules = .default →
      ∀ (seedling : Word) (k : ℕ) (other : τ), plain.DefaultGrowth seedling k other := by
  refine ⟨?_, fun plain hdefault => defaultGrowth hdefault⟩
  intro word rest h
  by_cases hsign : n < 0
  · simp [expandFrom, hsign] at h
  obtain ⟨k, rfl⟩ : ∃ k : ℕ, n = k := ⟨n.toNat, by omega⟩
  refine ⟨k, rfl, ?_⟩
  intro c
  have hword : word = (generation g.rules start source k).1 :=
    congrArg Prod.fst (expandFrom_eq_generation h)
  rw [hword]
  exact congrFun (tally_generation hagree start source k) c

/-- A shoot that bears a bud before it or behind it, and a bud that becomes two shoots. -/
def budding : Grammar Float where
  start := ['F', 'B']
  rules := ⟨[('F', ⟨(['F', 'B'], 1.0), [(['B', 'F'], 2.0)]⟩), ('B', .only ['F', 'F'] 1.0)]⟩
  maxSymbols := 200

theorem budding_payloadsAgree : budding.rules.PayloadsAgree := by
  rintro s first second ⟨choices, weight, hchoices, hfirst⟩ ⟨same, other, hsame, hsecond⟩
  obtain rfl : choices = same := Option.some.inj (hchoices.symm.trans hsame)
  obtain ⟨entry, hentry, rfl⟩ := Option.map_eq_some_iff.mp hchoices
  have hmem : entry ∈ budding.rules.entries := List.mem_of_find?_eq_some hentry
  rcases List.mem_pair.mp hmem with rfl | rfl
  · have hperm : first.Perm second := by
      simp only [Choices.toList, List.mem_pair, Prod.mk.injEq] at hfirst hsecond
      rcases hfirst with ⟨rfl, -⟩ | ⟨rfl, -⟩ <;> rcases hsecond with ⟨rfl, -⟩ | ⟨rfl, -⟩
      · rfl
      · exact List.Perm.swap _ _ _
      · exact List.Perm.swap _ _ _
      · rfl
    exact fun c => hperm.count_eq c
  · simp only [Choices.toList, Choices.only, List.mem_singleton, Prod.mk.injEq] at hfirst hsecond
    rw [hfirst.1, hsecond.1]
    exact fun c => rfl

/-- Two generations of a budding shoot, in which both of its payloads are drawn, and two of the
default rule on two shoots, for which a bound of 344 symbols is just enough. -/
theorem budding_count :
    (∃ rest : Generator, budding.expandFrom ['F', 'B'] 2
      (⟨99999999999999999999999999999999999, 12345678901234567895671⟩ : Generator) =
        (.ok ['F', 'F', 'B', 'F', 'F', 'B', 'B', 'F'], rest)) ∧
    (∀ c, List.count c (['F', 'F', 'B', 'F', 'F', 'B', 'B', 'F'] : Word) =
      ∑ s, List.count s budding.start * (growthMatrix budding.rules ^ 2) s c) ∧
    (⟨['F', 'F'], .default, 344⟩ : Grammar Float).DefaultGrowth ['F', 'F'] 2
      (⟨0, 1⟩ : Generator) := by
  obtain ⟨hcount, hdefault⟩ := @expandFrom_count Float Generator _ _ Generator _ budding
    budding_payloadsAgree budding.start 2
    ⟨99999999999999999999999999999999999, 12345678901234567895671⟩
  have hgrown : (budding.expandFrom ['F', 'B'] 2
      (⟨99999999999999999999999999999999999, 12345678901234567895671⟩ : Generator)).1 =
      .ok ['F', 'F', 'B', 'F', 'F', 'B', 'B', 'F'] := by decide +kernel
  obtain ⟨k, hk, hsum⟩ := hcount _ _ (Prod.ext hgrown rfl)
  obtain rfl : 2 = k := by exact_mod_cast hk
  refine ⟨⟨_, Prod.ext hgrown rfl⟩, hsum, ?_⟩
  exact hdefault ⟨['F', 'F'], .default, 344⟩ rfl ['F', 'F'] 2 ⟨0, 1⟩

end Grammar
end Meristem
