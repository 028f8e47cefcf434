import Meristem.Proofs.Drawing.Descent
import Meristem.Proofs.Grammar.Generations
import Meristem.Species

/-!
Balanced rules make balanced plants. Where a plain symbol is replaced by a balanced payload, the
number of open groups is what it was before and after, and in between it rises by no more than the
payload is nested; so a generation is balanced if the one before is, and at most so much deeper.
A balanced word is drawn without a complaint about its brackets, since the turtles that wait are
those of the bracket tree. What is left to complain about is the length.
-/

namespace Meristem

namespace Grammar

/-- A grammar that never takes a bracket apart from its group: brackets have no rules, and the
payloads and the start word are balanced, the payloads at most `depth` groups deep. -/
structure KeepsBrackets {α : Type} (g : Grammar α) (depth : Nat) : Prop where
  opening : g.rules.choices? '[' = none
  closing : g.rules.choices? ']' = none
  payload : ∀ s payload, g.rules.Offers s payload →
    Balanced Symbol.bracket payload ∧ nesting Symbol.bracket payload ≤ depth
  start : Balanced Symbol.bracket g.start

variable {α σ : Type} [Arith α] {g : Grammar α} {depth : Nat}

/-- A symbol stays, or it is no bracket and gives way to a balanced payload. -/
theorem KeepsBrackets.part_cases (h : g.KeepsBrackets depth) (s : Symbol) (u : α) :
    part g.rules s u = [s] ∨
      (rise Symbol.bracket s = 0 ∧ height Symbol.bracket (part g.rules s u) = 0 ∧
        LevelsWithin Symbol.bracket 0 depth (part g.rules s u)) := by
  unfold part
  cases hpick : g.rules.pick? s u with
  | none => exact Or.inl rfl
  | some payload =>
      have hoffers := RuleTable.offers_of_pick hpick
      obtain ⟨choices, -, hchoices, -⟩ := id hoffers
      have hopen : s ≠ '[' := by
        rintro rfl
        simp [h.opening] at hchoices
      have hclose : s ≠ ']' := by
        rintro rfl
        simp [h.closing] at hchoices
      have hplain : rise Symbol.bracket s = 0 := by
        simp [rise, Symbol.bracket, hopen, hclose]
      obtain ⟨hlevels, hclosed⟩ :=
        (balanced_and_nesting_le_iff _ _ _).mp (h.payload s payload hoffers)
      exact Or.inr ⟨hplain, hclosed, hlevels⟩

theorem KeepsBrackets.part_height (h : g.KeepsBrackets depth) (s : Symbol) (u : α) :
    height Symbol.bracket (part g.rules s u) = rise Symbol.bracket s := by
  rcases h.part_cases s u with hcopied | ⟨hplain, hclosed, -⟩
  · rw [hcopied]
    simp
  · rw [hplain, hclosed]

variable [DrawSource σ α]

theorem KeepsBrackets.rewrite_height (h : g.KeepsBrackets depth) (word : Word) (source : σ) :
    height Symbol.bracket (rewrite g.rules word source).1 = height Symbol.bracket word := by
  induction word generalizing source with
  | nil => rfl
  | cons s word ih =>
      rw [rewrite_cons, height_append, h.part_height, ih, height_cons]

/-- Rewriting raises no level by more than the payloads are nested, and lowers none. The induction
is over the word, for any levels that are open before it. -/
theorem KeepsBrackets.rewrite_levels (h : g.KeepsBrackets depth) {low high : Int} {word : Word}
    (source : σ) (hword : LevelsWithin Symbol.bracket low high word) :
    LevelsWithin Symbol.bracket low (high + depth) (rewrite g.rules word source).1 := by
  induction word generalizing low high source with
  | nil => exact hword.mono (Int.le_refl low) (by omega)
  | cons s word ih =>
      rw [rewrite_cons]
      apply LevelsWithin.append
      · rcases h.part_cases s (DrawSource.number source 0) with hcopied | ⟨-, -, hlevels⟩
        · rw [hcopied]
          exact hword.head.mono (Int.le_refl low) (by omega)
        · obtain ⟨hlow, hhigh⟩ := hword.zero
          exact hlevels.mono hlow (by omega)
      · rw [h.part_height]
        have htail := ih (DrawSource.advance source (g.rules.ruled [s])) hword.tail
        exact htail.mono (by omega) (by omega)

/-- Every generation is balanced, and at most `depth` groups deeper than the one before. -/
theorem KeepsBrackets.generation_balanced (h : g.KeepsBrackets depth) (source : σ) (k : Nat) :
    Balanced Symbol.bracket (generation g.rules g.start source k).1 ∧
      nesting Symbol.bracket (generation g.rules g.start source k).1 ≤
        nesting Symbol.bracket g.start + k * depth := by
  induction k with
  | zero => exact ⟨h.start, by simp⟩
  | succ k ih =>
      obtain ⟨hlevels, hclosed⟩ := (balanced_and_nesting_le_iff _ _ _).mp ih
      have hdeeper : nesting Symbol.bracket g.start + (k + 1) * depth =
          (nesting Symbol.bracket g.start + k * depth) + depth := by
        rw [Nat.succ_mul]
        omega
      rw [generation_succ, hdeeper]
      apply (balanced_and_nesting_le_iff _ _ _).mpr
      refine ⟨?_, (h.rewrite_height _ _).trans hclosed⟩
      rw [Int.natCast_add]
      exact h.rewrite_levels _ hlevels

end Grammar

section Drawing

variable {α σ : Type} [Scalar α] [DrawSource σ α] {pen : Pen α}

theorem Pen.readStroke_error {s : Symbol} {source rest : σ} {e : GrowthError}
    (h : pen.readStroke s source = (.error e, rest)) : e = .uncoveredInterval := by
  unfold Pen.readStroke at h
  cases hchoices : pen.rules.choices? s with
  | none => simp [hchoices] at h
  | some choices =>
      simp only [hchoices, choices.draw_eq] at h
      cases hcovers : choices.covers with
      | true => simp [hcovers] at h
      | false =>
          obtain ⟨rfl, -⟩ : GrowthError.uncoveredInterval = e ∧ source = rest := by
            simpa [hcovers] using h
          rfl

/-- The descent of a bracket tree complains of no bracket and of no length. -/
theorem Bough.descend_error (tree : Bough) {bottom : Bool} {k : Sketch α} {source rest : σ}
    {e : GrowthError} (h : tree.descend pen bottom k source = (.error e, rest)) :
    e.isMalformed = false := by
  induction tree generalizing bottom k source with
  | tip => simp [descend] at h
  | symbol s plain more ih =>
      simp only [descend] at h
      cases hread : pen.readStroke s source with
      | mk result next =>
          cases result with
          | error e' =>
              obtain ⟨rfl, -⟩ : e' = e ∧ next = rest := by simpa [hread] using h
              rw [Pen.readStroke_error hread]
              rfl
          | ok stroke =>
              simp only [hread] at h
              cases hstroke : k.stroke pen bottom stroke with
              | error e' =>
                  obtain ⟨rfl, -⟩ : e' = e ∧ next = rest := by simpa [hstroke] using h
                  rcases Sketch.stroke_error hstroke with rfl | ⟨fault, rfl⟩
                  · rfl
                  · rfl
              | ok drawn =>
                  simp only [hstroke] at h
                  exact ih h
  | group inner more ihInner ihMore =>
      simp only [descend] at h
      cases hjitter : Pen.jittered k.turtle.deeper with
      | error e' =>
          obtain ⟨rfl, -⟩ : e' = e ∧ source = rest := by simpa [hjitter] using h
          rw [Pen.jittered_error hjitter]
          rfl
      | ok child =>
          simp only [hjitter] at h
          cases hinner : inner.descend pen false { k with turtle := child } source with
          | mk result next =>
              cases result with
              | error e' =>
                  obtain ⟨rfl, rfl⟩ : e' = e ∧ next = rest := by simpa [hinner] using h
                  exact ihInner hinner
              | ok drawn =>
                  simp only [hinner] at h
                  exact ihMore h

/-- A balanced word is drawn from any root without a complaint about its brackets. -/
theorem Pen.draw_balanced_error (hopen : pen.rules.choices? '[' = none)
    (hclose : pen.rules.choices? ']' = none) {word : Word}
    (hbalanced : Balanced Symbol.bracket word) {root : Turtle α} {source rest : σ}
    {e : GrowthError} (h : pen.draw word root source = (.error e, rest)) :
    e.isMalformed = false := by
  obtain ⟨tree, rfl⟩ := Bough.exists_word_eq word hbalanced
  have hwalk : pen.walk 0 tree.word (.start root) source = _ :=
    pen.walk_word_eq_descend hopen hclose tree 0 ⟨root, .empty, .empty, false⟩ [] source
  unfold Pen.draw at h
  rw [hwalk] at h
  cases hdescend : tree.descend pen true ⟨root, .empty, .empty, false⟩ source with
  | mk result next =>
      cases result with
      | error e' =>
          obtain ⟨rfl, -⟩ : e' = e ∧ next = rest := by
            simpa [hdescend, Except.map] using h
          exact tree.descend_error hdescend
      | ok drawn => simp [hdescend, Except.map, Pen.finish] at h

end Drawing

namespace Species

variable {α σ : Type} [Scalar α] [DrawSource σ α]

/-- A species with balanced rules grows balanced words, each generation at most `depth` groups
deeper, and no drawing of such a word complains of its brackets, from any root and with any draws.
So all that growing and drawing together can complain of is the length. -/
theorem grows_balanced (s : Species α) (depth : Nat) (hrules : s.grammar.KeepsBrackets depth)
    (hopen : s.pen.rules.choices? '[' = none) (hclose : s.pen.rules.choices? ']' = none)
    (source : σ) :
    (∀ word rest, s.grammar.expand s.generations source = (.ok word, rest) →
      Balanced Symbol.bracket word ∧
      (nesting Symbol.bracket word : Int) ≤
        nesting Symbol.bracket s.grammar.start + s.generations * depth ∧
      ∀ (τ : Type) [DrawSource τ α] (root : Turtle α) (draws left : τ) (e : GrowthError),
        s.pen.draw word root draws = (.error e, left) → e.isMalformed = false) ∧
    (0 ≤ s.generations → ∀ e rest, s.grow source = (.error e, rest) → e.isMalformed = true →
      ∃ k reached, e = .tooLong k s.grammar.maxSymbols reached) := by
  obtain ⟨g, generations, pen, place⟩ := s
  by_cases hsign : generations < 0
  · refine ⟨?_, fun hcount => by simp only at hcount; omega⟩
    intro word rest h
    simp [Grammar.expand, Grammar.expandFrom, hsign] at h
  obtain ⟨n, rfl⟩ : ∃ n : Nat, generations = n := ⟨generations.toNat, by omega⟩
  have hword (word : Word) (rest : σ) (h : g.expand n source = (.ok word, rest)) :
      Balanced Symbol.bracket word ∧ nesting Symbol.bracket word ≤
        nesting Symbol.bracket g.start + n * depth := by
    have hlast := Grammar.expandFrom_eq_generation h
    obtain rfl : word = (Grammar.generation g.rules g.start source n).1 :=
      congrArg Prod.fst hlast
    exact hrules.generation_balanced source n
  constructor
  · intro word rest h
    obtain ⟨hbalanced, hnesting⟩ := hword word rest h
    refine ⟨hbalanced, Int.ofNat_le.mpr hnesting, ?_⟩
    intro τ _ root draws left e hdraw
    exact pen.draw_balanced_error hopen hclose hbalanced hdraw
  · intro _ e rest h he
    unfold grow at h
    simp only at h
    cases hexpand : g.expand n source with
    | mk result next =>
        cases result with
        | error e' =>
            obtain ⟨rfl, -⟩ : e' = e ∧ next = rest := by simpa [hexpand] using h
            exact Grammar.eq_tooLong_of_isMalformed hexpand he
        | ok word =>
            simp only [hexpand] at h
            have hfair := pen.draw_balanced_error hopen hclose (hword word next hexpand).1 h
            simp [hfair] at he

/-- The species that is grown when nothing else is asked for, for two generations. -/
def sapling : Species Float where
  grammar := ⟨.default, .default, Grammar.defaultMaxSymbols⟩
  generations := 2
  pen := .plain .default
  root := ⟨0.0, 0.0, 0.0⟩

theorem sapling_keepsBrackets : sapling.grammar.KeepsBrackets 1 where
  opening := rfl
  closing := rfl
  payload := by
    rintro s payload ⟨choices, weight, hchoices, hmem⟩
    obtain ⟨entry, hentry, rfl⟩ := Option.map_eq_some_iff.mp hchoices
    obtain rfl : entry =
        (CodePoint.ofChar 'F', Choices.only (Text.ofString "FF+[+F-F-F]-[-F+F+F]") 1.0) := by
      simpa [sapling, ExpansionRules.default] using List.mem_of_find?_eq_some hentry
    obtain ⟨rfl, -⟩ : payload = Text.ofString "FF+[+F-F-F]-[-F+F+F]" ∧ weight = 1.0 := by
      simpa [Choices.toList, Choices.only] using hmem
    decide
  start := by decide

/-- Two generations of it stand in two levels of groups at most. -/
theorem sapling_grows_balanced :
    ∃ word rest, sapling.grammar.expand 2 (⟨0, 1⟩ : Generator) = (.ok word, rest) ∧
      Balanced Symbol.bracket word ∧ nesting Symbol.bracket word ≤ 2 ∧
      ∀ (root : Turtle Float) (draws left : Generator) (e : GrowthError),
        sapling.pen.draw word root draws = (.error e, left) → e.isMalformed = false := by
  obtain ⟨word, rest, hexpand⟩ := exists_eq_ok_of_isOk
    (x := sapling.grammar.expand 2 (⟨0, 1⟩ : Generator)) (by decide +kernel)
  obtain ⟨hgrows, -⟩ := sapling.grows_balanced 1 sapling_keepsBrackets rfl rfl (⟨0, 1⟩ : Generator)
  obtain ⟨hbalanced, hnesting, hdraw⟩ := hgrows word rest hexpand
  have hstart : nesting Symbol.bracket sapling.grammar.start = 0 := by decide
  have hcount : sapling.generations = 2 := rfl
  rw [hstart, hcount] at hnesting
  exact ⟨word, rest, hexpand, hbalanced, by omega, hdraw Generator⟩

end Species

end Meristem
