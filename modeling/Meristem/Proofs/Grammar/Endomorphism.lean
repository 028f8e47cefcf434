import Meristem.Proofs.Grammar.Generations
import Meristem.Random.Generator
import Mathlib.Logic.Function.Iterate

/-!
Growth without choices. Where every symbol has a single payload, nothing is left to the draws, and
a generation is the image of the one before under a map of words that is known by its symbols. Such
a map takes a concatenation to the concatenation of the images, so the parts of a word grow as if
the others were not there. The bound on the length is handed down to the parts: what fits as a whole
fits in pieces.
-/

namespace Meristem
namespace Grammar

/-- What stands for a symbol in the next generation when nothing is left to choose. -/
def image {α : Type} (rules : ExpansionRules α) (s : Symbol) : Word :=
  match rules.choices? s with
  | some choices => choices.first.1
  | none => [s]

variable {α σ τ : Type} [Arith α] [DrawSource σ α] [DrawSource τ α]

section Returned

variable {g : Grammar α}

/-- A generation that is written to its end refuses no draw on the way. -/
theorem not_refuses_of_derive {number : Nat} {word next : Word} {source rest : σ}
    (h : g.derive number word source = (.ok next, rest)) {s : Symbol} (hs : s ∈ word) :
    g.rules.refuses s = false := by
  obtain ⟨first, second, rfl⟩ := List.append_of_mem hs
  by_contra hrefuses
  obtain ⟨e, left, hstops⟩ :
      ∃ e left, g.derive number (first ++ [s]) source = (.error e, left) := by
    rw [derive_concat]
    cases g.derive number first source with
    | mk result left =>
        cases result with
        | error e => exact ⟨e, left, rfl⟩
        | ok written => simp [hrefuses]
  have hwhole := g.derive_append_of_error number (first ++ [s]) second source hstops
  simp only [List.append_assoc, List.singleton_append] at hwhole
  simp [hwhole] at h

/-- A generation is written to its end exactly when no draw is refused and it fits as a whole. -/
theorem derive_eq_ok_iff (number : Nat) (word next : Word) (source rest : σ) :
    g.derive number word source = (.ok next, rest) ↔
      (next, rest) = rewrite g.rules word source ∧
        (∀ s ∈ word, g.rules.refuses s = false) ∧ next.length ≤ g.maxSymbols := by
  rcases g.derive_eq number word source with ⟨hwhole, hfits⟩ | ⟨first, s, e, left, hup, hfails⟩
  · constructor
    · intro h
      obtain ⟨rfl, rfl⟩ : _ = next ∧ _ = rest := by simpa [hwhole] using h
      exact ⟨rfl, fun s hs => not_refuses_of_derive hwhole hs, hfits⟩
    · rintro ⟨hnext, -, -⟩
      rw [hwhole, ← hnext]
  · constructor
    · intro h
      simp [hfails] at h
    · rintro ⟨hnext, hdrawn, hfits⟩
      rcases hup.cause with ⟨hrefuses, -, -⟩ | ⟨-, hlong, -, -⟩
      · have hfalse := hdrawn s (hup.inside.subset (by simp))
        simp [hrefuses] at hfalse
      · have hshort := rewrite_length_le g.rules hup.inside source
        have hword : next = (rewrite g.rules word source).1 := congrArg Prod.fst hnext
        rw [hword] at hfits
        omega

/-- A growth goes one generation further exactly when it has come so far and the next generation
can be written. -/
theorem expandFrom_succ_eq_ok_iff (start word : Word) (n : Nat) (source rest : σ) :
    g.expandFrom start (n + 1 : Nat) source = (.ok word, rest) ↔
      ∃ last left, g.expandFrom start n source = (.ok last, left) ∧
        g.derive (n + 1) last left = (.ok word, rest) := by
  rw [expandFrom_succ]
  cases g.expandFrom start n source with
  | mk result left =>
      cases result with
      | error e => simp
      | ok last => simp

/-- A growth returns exactly when each of its generations can be written to its end. -/
theorem expandFrom_eq_ok_iff (start word : Word) (n : Nat) (source rest : σ) :
    g.expandFrom start n source = (.ok word, rest) ↔
      (word, rest) = generation g.rules start source n ∧
        ∀ k < n, (∀ s ∈ (generation g.rules start source k).1, g.rules.refuses s = false) ∧
          (generation g.rules start source (k + 1)).1.length ≤ g.maxSymbols := by
  induction n generalizing word rest with
  | zero =>
      have hstart : g.expandFrom start (0 : Nat) source = (.ok start, source) := rfl
      simp only [hstart, generation_zero, Prod.mk.injEq, Except.ok.injEq, Nat.not_lt_zero,
        false_implies, implies_true, and_true]
      exact and_congr eq_comm eq_comm
  | succ n ih =>
      rw [expandFrom_succ_eq_ok_iff, Nat.forall_lt_succ_right]
      constructor
      · rintro ⟨last, left, hlast, hnext⟩
        obtain ⟨hgeneration, hbefore⟩ := (ih last left).mp hlast
        obtain ⟨hword, hdrawn, hfits⟩ := (derive_eq_ok_iff _ _ _ _ _).mp hnext
        rw [generation_succ, ← hgeneration, ← hword]
        exact ⟨rfl, hbefore, hdrawn, hfits⟩
      · rintro ⟨hword, hbefore, hdrawn, hfits⟩
        refine ⟨_, _, (ih _ _).mpr ⟨rfl, hbefore⟩, ?_⟩
        rw [generation_succ] at hword hfits
        rw [← hword] at hfits
        exact (derive_eq_ok_iff _ _ _ _ _).mpr ⟨hword, hdrawn, hfits⟩

end Returned

section Decided

variable {rules : ExpansionRules α} (hrules : rules.Decided)

include hrules

/-- Whatever is drawn for a symbol, its image takes its place. -/
theorem part_eq_image (s : Symbol) (u : α) : part rules s u = image rules s := by
  unfold part image
  cases hchoices : rules.choices? s with
  | none => simp [RuleTable.pick?, hchoices]
  | some choices =>
      have hpick : rules.pick? s u = some (choices.pick u) := by simp [RuleTable.pick?, hchoices]
      have hfirst : rules.Offers s choices.first.1 :=
        ⟨choices, choices.first.2, hchoices, by simp [Choices.toList]⟩
      rw [hpick, Option.getD_some]
      exact hrules s _ _ (RuleTable.offers_of_pick hpick) hfirst

theorem rewrite_eq_flatMap (word : Word) (source : σ) :
    (rewrite rules word source).1 = word.flatMap (image rules) := by
  induction word generalizing source with
  | nil => rfl
  | cons s word ih => rw [rewrite_cons, part_eq_image hrules, ih, List.flatMap_cons]

theorem generation_eq_iterate (start : Word) (source : σ) (k : Nat) :
    (generation rules start source k).1 = (fun word => word.flatMap (image rules))^[k] start := by
  induction k with
  | zero => rfl
  | succ k ih => rw [generation_succ, rewrite_eq_flatMap hrules, ih, Function.iterate_succ_apply']

/-- The generations of a concatenation are the concatenations of the generations. -/
theorem generation_append (first second : Word) (source : σ) (left right : τ) (k : Nat) :
    (generation rules (first ++ second) source k).1 =
      (generation rules first left k).1 ++ (generation rules second right k).1 := by
  induction k with
  | zero => rfl
  | succ k ih =>
      simp only [generation_succ, rewrite_eq_flatMap hrules]
      rw [ih, List.flatMap_append]

end Decided

/-- A draw is refused or made whatever numbers are drawn, and it decides nothing. -/
theorem replace_fst {rules : ExpansionRules α} (hrules : rules.Decided) (s : Symbol) (source : σ)
    (other : τ) :
    (replace rules s source).1 = (replace rules s other).1 := by
  simp only [replace_eq, part_eq_image hrules]
  cases rules.refuses s with
  | true => rfl
  | false => rfl

theorem deriveFrom_fst {g : Grammar α} (hrules : g.rules.Decided) (number : Nat)
    (word written : Word) (length : Nat) (source : σ) (other : τ) :
    (g.deriveFrom number word written length source).1 =
      (g.deriveFrom number word written length other).1 := by
  induction word generalizing written length source other with
  | nil => rfl
  | cons s word ih =>
      have hsame := replace_fst hrules s source other
      simp only [deriveFrom]
      cases hsource : replace g.rules s source with
      | mk result rest =>
          cases hother : replace g.rules s other with
          | mk twin left =>
              obtain rfl : result = twin := by simpa [hsource, hother] using hsame
              cases result with
              | error e => rfl
              | ok next =>
                  simp only
                  split
                  · rfl
                  · exact ih _ _ _ _

theorem grow_fst {g : Grammar α} (hrules : g.rules.Decided) (more number : Nat) (word : Word)
    (source : σ) (other : τ) :
    (g.grow more number word source).1 = (g.grow more number word other).1 := by
  induction more generalizing number word source other with
  | zero => rfl
  | succ more ih =>
      have hsame : (g.derive (number + 1) word source).1 = (g.derive (number + 1) word other).1 :=
        deriveFrom_fst hrules _ _ _ _ _ _
      simp only [grow]
      cases hsource : g.derive (number + 1) word source with
      | mk result rest =>
          cases hother : g.derive (number + 1) word other with
          | mk twin left =>
              obtain rfl : result = twin := by simpa [hsource, hother] using hsame
              cases result with
              | error e => rfl
              | ok next => exact ih _ _ _ _

/-- The outcome of a growth without choices, also of one that fails, is the same with any draws. -/
theorem expandFrom_fst {g : Grammar α} (hrules : g.rules.Decided) (start : Word) (n : Int)
    (source : σ) (other : τ) :
    (g.expandFrom start n source).1 = (g.expandFrom start n other).1 := by
  unfold expandFrom
  split
  · rfl
  · exact grow_fst hrules _ _ _ _ _

/-- What can be written of a word can be written of a part of it that stays a part. -/
theorem exists_expandFrom_part {g : Grammar α} {whole piece word : Word} {n : Nat}
    {source rest : σ} (h : g.expandFrom whole n source = (.ok word, rest))
    (hpiece : ∀ k,
      (generation g.rules piece source k).1 <:+: (generation g.rules whole source k).1) :
    (g.expandFrom piece n source).1 = .ok (generation g.rules piece source n).1 := by
  obtain ⟨-, hall⟩ := (expandFrom_eq_ok_iff _ _ _ _ _).mp h
  refine congrArg Prod.fst ((expandFrom_eq_ok_iff _ _ _ _ _).mpr ⟨rfl, ?_⟩)
  intro k hk
  obtain ⟨hdrawn, hfits⟩ := hall k hk
  refine ⟨fun s hs => hdrawn s ((hpiece k).subset hs), ?_⟩
  exact Nat.le_trans (hpiece (k + 1)).length_le hfits

/-- Where each symbol has a single payload, growth does not depend on the draws, and it takes a
concatenation to the concatenation of what grows from its parts. All symbols of a generation give
way to their images at once: of what is written for one, nothing is replaced again before the
generation ends. -/
theorem expandFrom_append_of_decided (g : Grammar α) (hrules : g.rules.Decided) (n : Int) :
    (∀ start (source : σ) (other : τ),
      (g.expandFrom start n source).1 = (g.expandFrom start n other).1) ∧
    (∀ first second (source : σ) word, (g.expandFrom (first ++ second) n source).1 = .ok word →
      ∀ other : τ, ∃ left right, (g.expandFrom first n other).1 = .ok left ∧
        (g.expandFrom second n other).1 = .ok right ∧ word = left ++ right) ∧
    (∀ start (source : σ) word, (g.expandFrom start n source).1 = .ok word →
      word = (fun last => last.flatMap (image g.rules))^[n.toNat] start ∧
      ∀ next, (g.expandFrom start (n + 1) source).1 = .ok next →
        next = word.flatMap (image g.rules)) := by
  refine ⟨fun start source other => expandFrom_fst hrules start n source other, ?_⟩
  by_cases hsign : n < 0
  · have hnever (start : Word) (source : σ) (word : Word) :
        (g.expandFrom start n source).1 ≠ .ok word := by
      simp [expandFrom, hsign]
    exact ⟨fun _ _ _ _ h => absurd h (hnever _ _ _), fun _ _ _ h => absurd h (hnever _ _ _)⟩
  obtain ⟨m, rfl⟩ : ∃ m : Nat, n = m := ⟨n.toNat, by omega⟩
  have hlast (k : Nat) (start : Word) (source : σ) (word : Word)
      (h : (g.expandFrom start k source).1 = .ok word) :
      word = (generation g.rules start source k).1 :=
    congrArg Prod.fst (expandFrom_eq_generation (Prod.ext h rfl))
  constructor
  · intro first second source word h other
    have hsplit := generation_append hrules first second source source source
    refine ⟨(generation g.rules first source m).1, (generation g.rules second source m).1,
      ?_, ?_, ?_⟩
    · rw [← expandFrom_fst hrules first m source other]
      apply exists_expandFrom_part (Prod.ext h rfl)
      intro k
      rw [hsplit]
      exact (List.prefix_append _ _).isInfix
    · rw [← expandFrom_fst hrules second m source other]
      apply exists_expandFrom_part (Prod.ext h rfl)
      intro k
      rw [hsplit]
      exact (List.suffix_append _ _).isInfix
    · rw [hlast m _ _ _ h, hsplit]
  · intro start source word h
    obtain rfl := hlast m _ _ _ h
    refine ⟨generation_eq_iterate hrules start source m, ?_⟩
    intro next hnext
    rw [hlast (m + 1) _ _ _ hnext, generation_succ, rewrite_eq_flatMap hrules]

/-- Algae: a cell divides into itself and a young one, which then grows up. -/
def algae : Grammar Float where
  start := ['A']
  rules := ⟨[('A', .only ['A', 'B'] 1.0), ('B', .only ['A'] 1.0)]⟩
  maxSymbols := 8

theorem algae_decided : algae.rules.Decided := by
  apply RuleTable.decided_of_single
  intro s choices h
  obtain ⟨entry, hentry, rfl⟩ := Option.map_eq_some_iff.mp h
  have hmem : entry ∈ algae.rules.entries := List.mem_of_find?_eq_some hentry
  rcases List.mem_pair.mp hmem with rfl | rfl
  · rfl
  · rfl

/-- Three generations of two cells are three of the one and three of the other. -/
theorem algae_append :
    (algae.expandFrom (['A'] ++ ['B']) 3 (⟨0, 1⟩ : Generator)).1 =
        .ok ['A', 'B', 'A', 'A', 'B', 'A', 'B', 'A'] ∧
      ∃ left right, (algae.expandFrom ['A'] 3 (⟨5, 7⟩ : Generator)).1 = .ok left ∧
        (algae.expandFrom ['B'] 3 (⟨5, 7⟩ : Generator)).1 = .ok right ∧
        (['A', 'B', 'A', 'A', 'B', 'A', 'B', 'A'] : Word) = left ++ right := by
  have hgrown : (algae.expandFrom (['A'] ++ ['B']) 3 (⟨0, 1⟩ : Generator)).1 =
      .ok ['A', 'B', 'A', 'A', 'B', 'A', 'B', 'A'] := by decide +kernel
  obtain ⟨-, happend, -⟩ :=
    @expandFrom_append_of_decided Float Generator Generator _ _ _ algae algae_decided 3
  exact ⟨hgrown, happend _ _ _ _ hgrown _⟩

end Grammar
end Meristem
