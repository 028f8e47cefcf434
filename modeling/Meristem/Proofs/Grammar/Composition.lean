import Meristem.Grammar

/-!
Growth in two parts. Growing `m` generations and then `n` more from the word that stands, with
the draws that are left, is growing `m + n` generations at once: the same word, the same draws,
and the same failure. Each part numbers its generations from one, so a second part that is given
up for its length names a number that is `m` too small, and nothing else tells the two ways apart.
-/

namespace Meristem

/-- A failure of a growth as one that began `earlier` generations before reports it. Only the
bound on the length names a generation. -/
def GrowthError.after (earlier : Nat) : GrowthError → GrowthError
  | .tooLong generation limit reached => .tooLong (generation + earlier) limit reached
  | e => e

namespace Grammar

variable {α σ : Type} [Arith α] [DrawSource σ α]

/-- A symbol is replaced alike in every generation, also when the draw is refused. -/
theorem replace_error_after (rules : ExpansionRules α) (symbol : Symbol)
    (source rest : σ) (e : GrowthError) (earlier : Nat)
    (h : replace rules symbol source = (.error e, rest)) : e.after earlier = e := by
  unfold replace at h
  cases hchoices : rules.choices? symbol with
  | none => simp [hchoices] at h
  | some choices =>
      simp only [hchoices, Choices.draw] at h
      split at h
      · simp at h
      · obtain ⟨rfl, -⟩ : GrowthError.uncoveredInterval = e ∧ source = rest := by simpa using h
        rfl

/-- The number of a generation shows in nothing but the failure. The induction is over the
symbols not yet replaced, for any part of the next generation that stands already. -/
theorem deriveFrom_after (g : Grammar α) (earlier generation : Nat)
    (word written : Word) (length : Nat) (source : σ) :
    g.deriveFrom (generation + earlier) word written length source =
      ((g.deriveFrom generation word written length source).1.mapError (.after earlier),
        (g.deriveFrom generation word written length source).2) := by
  induction word generalizing written length source with
  | nil => rfl
  | cons symbol rest ih =>
      simp only [deriveFrom]
      cases hreplace : replace g.rules symbol source with
      | mk result next =>
          cases result with
          | error e =>
              have hsame : e.after earlier = e :=
                replace_error_after g.rules symbol source next e earlier hreplace
              exact congrArg (fun e => (Except.error e, next)) hsame.symm
          | ok replacement =>
              simp only
              split
              · rfl
              · exact ih _ _ _

theorem derive_after (g : Grammar α) (earlier generation : Nat) (word : Word) (source : σ) :
    g.derive (generation + earlier) word source =
      ((g.derive generation word source).1.mapError (.after earlier),
        (g.derive generation word source).2) :=
  g.deriveFrom_after earlier generation word [] 0 source

/-- Where the numbering of the generations begins shows in nothing but the failure. -/
theorem grow_after (g : Grammar α) (earlier more generation : Nat)
    (word : Word) (source : σ) :
    g.grow more (generation + earlier) word source =
      ((g.grow more generation word source).1.mapError (.after earlier),
        (g.grow more generation word source).2) := by
  induction more generalizing generation word source with
  | zero => rfl
  | succ more ih =>
      have hnumber : generation + earlier + 1 = generation + 1 + earlier := by omega
      have hderive := derive_after g earlier (generation + 1) word source
      simp only [grow, hnumber]
      rw [hderive]
      cases g.derive (generation + 1) word source with
      | mk result rest =>
          cases result with
          | error e => rfl
          | ok next => exact ih (generation + 1) next rest

/-- The generations of a growth can be split anywhere; the second part goes on with the word,
the draws and the numbering that the first part leaves. -/
theorem grow_add (g : Grammar α) (m n generation : Nat) (word : Word) (source : σ) :
    g.grow (m + n) generation word source =
      match g.grow m generation word source with
      | (.error e, rest) => (.error e, rest)
      | (.ok next, rest) => g.grow n (generation + m) next rest := by
  induction m generalizing generation word source with
  | zero => simp [grow]
  | succ m ih =>
      have hcount : m + 1 + n = (m + n) + 1 := by omega
      have hnumber : generation + (m + 1) = generation + 1 + m := by omega
      simp only [hcount, hnumber, grow]
      cases g.derive (generation + 1) word source with
      | mk result rest =>
          cases result with
          | error e => rfl
          | ok next => exact ih (generation + 1) next rest

theorem expandFrom_natCast (g : Grammar α) (start : Word) (n : Nat) (source : σ) :
    g.expandFrom start n source = g.grow n 0 start source := by
  have hcount : ¬ (n : Int) < 0 := by omega
  simp [expandFrom, hcount]

/-- Growing in two parts on one source of draws is growing at once, for every grammar, start
word, state of the source and split, the empty parts included: both ways return the same word or
both fail alike, and both leave the source in the same state. A failure of the second part is
the failure of the whole with its generation counted from the start of the first. -/
theorem expandFrom_add (g : Grammar α) (start : Word) (m n : Nat) (source : σ) :
    g.expandFrom start ((m : Int) + n) source =
      match g.expandFrom start m source with
      | (.error e, rest) => (.error e, rest)
      | (.ok word, rest) =>
          match g.expandFrom word n rest with
          | (.error e, rest) => (.error (e.after m), rest)
          | (.ok last, rest) => (.ok last, rest) := by
  have hsum : (m : Int) + n = ((m + n : Nat) : Int) := by simp
  rw [hsum]
  simp only [expandFrom_natCast]
  rw [grow_add]
  cases g.grow m 0 start source with
  | mk first rest =>
      cases first with
      | error e => rfl
      | ok word =>
          simp only [grow_after]
          cases g.grow n 0 word rest with
          | mk second last =>
              cases second with
              | error e => rfl
              | ok whole => rfl

end Grammar
end Meristem
