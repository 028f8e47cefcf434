import Meristem.Proofs.Draws
import Meristem.Proofs.Grammar.Composition
import Mathlib.Data.List.Induction

/-!
Growth against complete generations. `rewrite` replaces every symbol of a word, whatever the
length of what comes out and whatever the weights, and `generation` does so again and again with
the draws continued. A growth writes these generations one after the other until it has to give
up: at a symbol whose draw is refused, or at one whose replacement makes the word too long.
-/

namespace Meristem

/-- The failures that lay the blame on the word or on the size of the growth. -/
def GrowthError.isMalformed : GrowthError → Bool
  | .negativeGenerations _ | .tooLong .. | .unmatchedClose _ | .unmatchedOpen _ => true
  | .noRules _ | .negativeSeed | .uncoveredInterval | .noDirection | .badColor _ => false

namespace Grammar

variable {α σ : Type} [Arith α] [DrawSource σ α]

/-- What stands for a symbol in the next generation when `u` is the number drawn for it. -/
def part (rules : ExpansionRules α) (s : Symbol) (u : α) : Word := (rules.pick? s u).getD [s]

/-- All symbols of a word replaced, from left to right. -/
def rewrite (rules : ExpansionRules α) : Word → σ → Word × σ
  | [], source => ([], source)
  | s :: rest, source =>
    match rules.choices? s with
    | some choices =>
      let drawn := DrawSource.next source
      let more := rewrite rules rest drawn.2
      (choices.pick drawn.1 ++ more.1, more.2)
    | none =>
      let more := rewrite rules rest source
      (s :: more.1, more.2)

/-- The word that stands after so many generations, each rewritten to its end, and the source it
leaves. -/
def generation (rules : ExpansionRules α) (start : Word) (source : σ) : Nat → Word × σ
  | 0 => (start, source)
  | k + 1 =>
    let last := generation rules start source k
    rewrite rules last.1 last.2

@[simp] theorem generation_zero (rules : ExpansionRules α) (start : Word) (source : σ) :
    generation rules start source 0 = (start, source) := rfl

theorem generation_succ (rules : ExpansionRules α) (start : Word) (source : σ) (k : Nat) :
    generation rules start source (k + 1) =
      rewrite rules (generation rules start source k).1 (generation rules start source k).2 := rfl

section Rewrite

variable (rules : ExpansionRules α)

@[simp] theorem rewrite_nil (source : σ) : rewrite rules [] source = ([], source) := rfl

theorem rewrite_cons (s : Symbol) (word : Word) (source : σ) :
    rewrite rules (s :: word) source =
      (part rules s (DrawSource.number source 0) ++
          (rewrite rules word (DrawSource.advance source (rules.ruled [s]))).1,
        (rewrite rules word (DrawSource.advance source (rules.ruled [s]))).2) := by
  simp only [rewrite, part, RuleTable.pick?]
  cases hchoices : rules.choices? s with
  | none =>
      rw [RuleTable.ruled_of_none hchoices]
      rfl
  | some choices =>
      rw [RuleTable.ruled_of_choices hchoices]
      rfl

theorem rewrite_append (first second : Word) (source : σ) :
    rewrite rules (first ++ second) source =
      ((rewrite rules first source).1 ++
          (rewrite rules second (rewrite rules first source).2).1,
        (rewrite rules second (rewrite rules first source).2).2) := by
  induction first generalizing source with
  | nil => rfl
  | cons s first ih =>
      simp only [List.cons_append, rewrite_cons, ih, List.append_assoc]

/-- Rewriting takes one draw for each symbol that has rules. -/
theorem rewrite_snd (word : Word) (source : σ) :
    (rewrite rules word source).2 = DrawSource.advance source (rules.ruled word) := by
  induction word generalizing source with
  | nil => rfl
  | cons s word ih =>
      rw [rewrite_cons, ih, rules.ruled_cons s word, DrawSource.advance_add]

theorem rewrite_singleton (s : Symbol) (source : σ) :
    rewrite rules [s] source =
      (part rules s (DrawSource.number source 0),
        DrawSource.advance source (rules.ruled [s])) := by
  simp [rewrite_cons]

/-- What is written for the first symbols of a word is never longer than what is written for
all. -/
theorem rewrite_length_le {first word : Word} (h : first <+: word) (source : σ) :
    (rewrite rules first source).1.length ≤ (rewrite rules word source).1.length := by
  obtain ⟨second, rfl⟩ := h
  rw [rewrite_append, List.length_append]
  omega

theorem replace_eq (s : Symbol) (source : σ) :
    replace rules s source =
      if rules.refuses s = true then (.error .uncoveredInterval, source)
      else (.ok (part rules s (DrawSource.number source 0)),
        DrawSource.advance source (rules.ruled [s])) := by
  unfold replace
  cases hchoices : rules.choices? s with
  | none =>
      have hnever : rules.refuses s = false := by simp [RuleTable.refuses, hchoices]
      have hpart : part rules s (DrawSource.number source 0) = [s] := by
        simp [part, RuleTable.pick?, hchoices]
      simp [hnever, hpart, RuleTable.ruled_of_none hchoices]
  | some choices =>
      have hpart : part rules s (DrawSource.number source 0) =
          choices.pick (DrawSource.number source 0) := by
        simp [part, RuleTable.pick?, hchoices]
      simp only [choices.draw_eq, hpart, RuleTable.ruled_of_choices hchoices]
      cases hcovers : choices.covers with
      | false => simp [RuleTable.refuses, hchoices, hcovers]
      | true => simp [RuleTable.refuses, hchoices, hcovers]

end Rewrite

section Derive

variable (g : Grammar α)

theorem deriveFrom_append (number : Nat) (first second written : Word) (length : Nat)
    (source : σ) (hlength : length = written.length) :
    g.deriveFrom number (first ++ second) written length source =
      match g.deriveFrom number first written length source with
      | (.error e, rest) => (.error e, rest)
      | (.ok word, rest) => g.deriveFrom number second word.reverse word.length rest := by
  induction first generalizing written length source with
  | nil => simp [deriveFrom, hlength]
  | cons s first ih =>
      simp only [List.cons_append, deriveFrom]
      cases replace g.rules s source with
      | mk result rest =>
          cases result with
          | error e => rfl
          | ok word =>
              simp only
              split
              · rfl
              · apply ih
                rw [List.length_append, List.length_reverse, hlength]
                omega

/-- One more symbol of a generation: an earlier failure stays, and else its replacement is
written if it is not refused and there is room for it. -/
theorem derive_concat (number : Nat) (word : Word) (s : Symbol) (source : σ) :
    g.derive number (word ++ [s]) source =
      match g.derive number word source with
      | (.error e, rest) => (.error e, rest)
      | (.ok written, rest) =>
        if g.rules.refuses s = true then (.error .uncoveredInterval, rest)
        else
          let next := part g.rules s (DrawSource.number rest 0)
          let after := DrawSource.advance rest (g.rules.ruled [s])
          if g.maxSymbols < written.length + next.length then
            (.error (.tooLong number g.maxSymbols (written.length + next.length)), after)
          else (.ok (written ++ next), after) := by
  unfold derive
  rw [g.deriveFrom_append number word [s] [] 0 source rfl]
  cases g.deriveFrom number word [] 0 source with
  | mk result rest =>
      cases result with
      | error e => rfl
      | ok written =>
          simp only [deriveFrom, replace_eq]
          cases g.rules.refuses s with
          | true => rfl
          | false =>
              simp only [Bool.false_eq_true, ↓reduceIte, List.reverse_append,
                List.reverse_reverse]

theorem derive_append_of_error (number : Nat) (first second : Word) (source : σ)
    {e : GrowthError} {rest : σ} (h : g.derive number first source = (.error e, rest)) :
    g.derive number (first ++ second) source = (.error e, rest) := by
  unfold derive at h ⊢
  rw [g.deriveFrom_append number first second [] 0 source rfl, h]

/-- The generation with this number is given up at the symbol `s`. Before it the symbols are all
replaced; its own draw is refused, or its replacement makes what is written too long. -/
structure GivesUp (number : Nat) (word : Word) (source : σ) (first : Word) (s : Symbol)
    (e : GrowthError) (rest : σ) : Prop where
  inside : first ++ [s] <+: word
  before : g.derive number first source = (.ok (rewrite g.rules first source).1,
    (rewrite g.rules first source).2)
  stops : g.derive number (first ++ [s]) source = (.error e, rest)
  cause :
    (g.rules.refuses s = true ∧ e = .uncoveredInterval ∧
      rest = (rewrite g.rules first source).2) ∨
    (g.rules.refuses s = false ∧
      g.maxSymbols < (rewrite g.rules (first ++ [s]) source).1.length ∧
      e = .tooLong number g.maxSymbols (rewrite g.rules (first ++ [s]) source).1.length ∧
      rest = (rewrite g.rules (first ++ [s]) source).2)

/-- A generation is written to its end and fits, or is given up at one of its symbols. The
induction is over the symbols from the left, since a generation is given up at the first symbol
that gives a reason. -/
theorem derive_eq (number : Nat) (word : Word) (source : σ) :
    (g.derive number word source =
        (.ok (rewrite g.rules word source).1, (rewrite g.rules word source).2) ∧
      (rewrite g.rules word source).1.length ≤ g.maxSymbols) ∨
    ∃ first s e rest, g.GivesUp number word source first s e rest ∧
      g.derive number word source = (.error e, rest) := by
  induction word using List.reverseRecOn with
  | nil => exact Or.inl ⟨rfl, by simp⟩
  | append_singleton word s ih =>
      rcases ih with ⟨hword, hfits⟩ | ⟨first, t, e, rest, hup, hword⟩
      · have hnext := g.derive_concat number word s source
        have hlast := rewrite_append g.rules word [s] source
        rw [rewrite_singleton] at hlast
        simp only [hword] at hnext
        cases hrefuses : g.rules.refuses s with
        | true =>
            simp only [hrefuses, ↓reduceIte] at hnext
            refine Or.inr ⟨word, s, _, _, ?_, hnext⟩
            exact ⟨List.prefix_rfl, hword, hnext, Or.inl ⟨hrefuses, rfl, rfl⟩⟩
        | false =>
            simp only [hrefuses, Bool.false_eq_true, ↓reduceIte, ← List.length_append] at hnext
            by_cases hlong : g.maxSymbols < (rewrite g.rules (word ++ [s]) source).1.length
            · rw [hlast] at hlong
              simp only [hlong, ↓reduceIte] at hnext
              refine Or.inr ⟨word, s, _, _, ?_, hnext⟩
              refine ⟨List.prefix_rfl, hword, hnext, Or.inr ⟨hrefuses, ?_, ?_, ?_⟩⟩
              · rw [hlast]
                exact hlong
              · rw [hlast]
              · rw [hlast]
            · rw [hlast] at hlong ⊢
              simp only [hlong, ↓reduceIte] at hnext
              exact Or.inl ⟨hnext, Nat.le_of_not_lt hlong⟩
      · refine Or.inr ⟨first, t, e, rest, ?_, ?_⟩
        · exact ⟨hup.inside.trans (List.prefix_append word [s]), hup.before, hup.stops, hup.cause⟩
        · exact g.derive_append_of_error number word [s] source hword

end Derive

section Expand

variable (g : Grammar α) (start : Word) (source : σ)

/-- The growth comes as far as generation `k`: it writes all generations up to it in full. -/
structure Reaches (k : Nat) : Prop where
  expands : ∀ j ≤ k, g.expandFrom start j source =
    (.ok (generation g.rules start source j).1, (generation g.rules start source j).2)
  fits : ∀ j, 1 ≤ j → j ≤ k → (generation g.rules start source j).1.length ≤ g.maxSymbols

theorem expandFrom_zero : g.expandFrom start 0 source = (.ok start, source) := rfl

theorem expandFrom_succ (n : Nat) :
    g.expandFrom start (n + 1 : Nat) source =
      match g.expandFrom start n source with
      | (.error e, rest) => (.error e, rest)
      | (.ok word, rest) => g.derive (n + 1) word rest := by
  simp only [expandFrom_natCast, grow_add g n 1 0 start source]
  cases g.grow n 0 start source with
  | mk result rest =>
      cases result with
      | error e => rfl
      | ok word =>
          simp only [grow, Nat.zero_add]
          cases g.derive (n + 1) word rest with
          | mk next last =>
              cases next with
              | error e => rfl
              | ok next => rfl

/-- A growth writes all its generations, or it gives up inside the first that cannot be
written. -/
theorem reaches_or_gives_up (n : Nat) :
    g.Reaches start source n ∨
      ∃ k < n, g.Reaches start source k ∧ ∃ first s e rest,
        g.GivesUp (k + 1) (generation g.rules start source k).1
          (generation g.rules start source k).2 first s e rest ∧
        g.expandFrom start n source = (.error e, rest) := by
  induction n with
  | zero =>
      refine Or.inl ⟨?_, ?_⟩
      · intro j hj
        obtain rfl : j = 0 := by omega
        exact g.expandFrom_zero start source
      · intro j hfirst hlast
        omega
  | succ n ih =>
      have hnext := g.expandFrom_succ start source n
      rcases ih with hreaches | ⟨k, hk, hreaches, first, s, e, rest, hup, hfails⟩
      · simp only [hreaches.expands n (Nat.le_refl n)] at hnext
        rcases g.derive_eq (n + 1) (generation g.rules start source n).1
          (generation g.rules start source n).2 with ⟨hwhole, hfits⟩ |
            ⟨first, s, e, rest, hup, hfails⟩
        · refine Or.inl ⟨?_, ?_⟩
          · intro j hj
            by_cases hlast : j = n + 1
            · rw [hlast, hnext, hwhole, generation_succ]
            · exact hreaches.expands j (by omega)
          · intro j hone hj
            by_cases hlast : j = n + 1
            · rw [hlast, generation_succ]
              exact hfits
            · exact hreaches.fits j hone (by omega)
        · exact Or.inr ⟨n, by omega, hreaches, first, s, e, rest, hup, hnext.trans hfails⟩
      · simp only [hfails] at hnext
        exact Or.inr ⟨k, by omega, hreaches, first, s, e, rest, hup, hnext⟩

end Expand

/-- What a growth returns is its last generation. -/
theorem expandFrom_eq_generation {g : Grammar α} {start word : Word} {n : Nat} {source rest : σ}
    (h : g.expandFrom start n source = (.ok word, rest)) :
    (word, rest) = generation g.rules start source n := by
  rcases g.reaches_or_gives_up start source n with hreaches | ⟨_, _, _, _, _, _, _, -, hfails⟩
  · have hresult := hreaches.expands n (Nat.le_refl n)
    rw [h] at hresult
    simp only [Prod.mk.injEq, Except.ok.injEq] at hresult
    exact Prod.ext hresult.1 hresult.2
  · simp [h] at hfails

/-- A growth by some number of generations complains of nothing but its length. -/
theorem eq_tooLong_of_isMalformed {g : Grammar α} {start : Word} {n : Nat} {source rest : σ} {e : GrowthError}
    (h : g.expandFrom start n source = (.error e, rest)) (he : e.isMalformed = true) :
    ∃ k reached, e = .tooLong k g.maxSymbols reached := by
  rcases g.reaches_or_gives_up start source n with hreaches |
      ⟨k, -, -, first, s, e, rest, hup, hfails⟩
  · have hresult := hreaches.expands n (Nat.le_refl n)
    simp [h] at hresult
  · obtain ⟨rfl, rfl⟩ : _ = e ∧ _ = rest := by simpa [h] using hfails
    rcases hup.cause with ⟨-, rfl, -⟩ | ⟨-, -, htooLong, -⟩
    · simp [GrowthError.isMalformed] at he
    · exact ⟨_, _, htooLong⟩

end Grammar
end Meristem
