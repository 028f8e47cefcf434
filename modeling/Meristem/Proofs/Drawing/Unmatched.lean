import Meristem.Proofs.Accounting
import Meristem.Proofs.Drawing.Trail
import Mathlib.Order.Bounds.Basic

/-!
What a drawing says about the brackets of its word. While a walk lasts, as many turtles wait as
groups are open, so a closing bracket finds no turtle exactly when the part of the word up to it
closes more groups than it opens, and the groups that lack their end are the turtles that still
wait. Which symbols are brackets is settled by the pen: a bracket with a drawing rule is none.
-/

namespace Meristem

/-- Where a part of a word from its start closes more groups than it opens. -/
def belowAt {β : Type} (bracket : β → Option Bracket) (word : List β) : Set Nat :=
  {i | i < word.length ∧ height bracket (word.take (i + 1)) < 0}

namespace Pen

variable {α σ : Type} [Scalar α] [DrawSource σ α]

/-- The brackets that the pen reads as brackets. -/
def bracket (pen : Pen α) (s : Symbol) : Option Bracket :=
  if pen.rules.contains s = true then none else Symbol.bracket s

/-- What a drawing that fails for nothing else says about the brackets of its word. -/
structure JudgesBrackets (pen : Pen α) (word : Word) (root : Turtle α) (source : σ) : Prop where
  /-- The complaint names the first symbol that closes a group which is not open. -/
  closing : ∀ i, (pen.draw word root source).1 = .error (.unmatchedClose i) ↔
    IsLeast (belowAt pen.bracket word) i
  /-- A word that closes no group too many lacks the ends of the groups it leaves open. -/
  opening : ∀ k, (pen.draw word root source).1 = .error (.unmatchedOpen k) ↔
    belowAt pen.bracket word = ∅ ∧ 0 < k ∧ (k : Int) = height pen.bracket word
  returns : (∃ plant, (pen.draw word root source).1 = .ok plant) ↔
    belowAt pen.bracket word = ∅ ∧ height pen.bracket word = 0
  /-- The symbols behind an unmatched closing bracket are not visited: the outcome and the draws
  are the same whatever they are. -/
  unvisited : ∀ i, IsLeast (belowAt pen.bracket word) i → ∃ w rest,
    pen.walk 0 (word.take i) (.start root) source = (.ok w, rest) ∧ w.parents = [] ∧
    ∀ after, pen.draw (word.take (i + 1) ++ after) root source =
      (.error (.unmatchedClose i), rest)
  closing_message : ∀ i, (GrowthError.unmatchedClose i).message =
    "Unmatched ']' at index " ++ toString i
  opening_message : ∀ k, (GrowthError.unmatchedOpen k).message =
    toString k ++ " unmatched '[' at end of input"
  /-- A symbol with a drawing rule leaves the turtles that wait alone, also if it is a bracket. -/
  ruled : ∀ s, pen.rules.contains s = true → ∀ index w (start rest : σ) next,
    pen.step index s w start = (.ok next, rest) → next.parents = w.parents

variable {pen : Pen α}

omit [Scalar α] in
theorem bracket_of_contains {s : Symbol} (h : pen.rules.contains s = true) :
    pen.bracket s = none := by
  simp [bracket, h]

/-- A command is a bracket exactly when its symbol is read as one. -/
theorem bracket_of_command {s : Symbol} {source rest : σ} {c : Command}
    (h : pen.command s source = (.ok c, rest)) : Command.bracket c = pen.bracket s := by
  rcases command_eq_ok h with ⟨hchoices, rfl, -⟩ | ⟨choices, hchoices, rfl, -⟩
  · have hplain := RuleTable.not_contains_of_choices hchoices
    unfold bracket Symbol.bracket Command.ofSymbol
    simp only [hplain, Bool.false_eq_true, ↓reduceIte]
    split
    · rfl
    split
    · rfl
    · rfl
  · rw [bracket_of_contains (RuleTable.contains_of_choices hchoices)]
    rfl

theorem command_error {s : Symbol} {source rest : σ} {e : GrowthError}
    (h : pen.command s source = (.error e, rest)) : e = .uncoveredInterval := by
  unfold command at h
  cases hchoices : pen.rules.choices? s with
  | none => simp [hchoices] at h
  | some choices =>
      simp only [hchoices, choices.draw_eq] at h
      cases hcovers : choices.covers with
      | true => simp [hcovers] at h
      | false =>
          obtain ⟨rfl, -⟩ : GrowthError.uncoveredInterval = e ∧ source = rest := by
            simpa [hcovers] using h
          rfl

section Obey

variable {index : Nat} {c : Command} {w next : Walk α}

theorem obey_parents (h : pen.obey index c w = .ok next) :
    (next.parents.length : Int) = w.parents.length + rise Command.bracket c := by
  cases c with
  | enter =>
      obtain ⟨child, -, rfl⟩ := Walk.openGroup_eq_ok h
      simp [rise, Command.bracket]
  | leave =>
      obtain ⟨parent, others, hparents, rfl⟩ := Walk.closeGroup_eq_ok h
      simp [rise, Command.bracket, hparents]
  | stroke s =>
      obtain ⟨k, -, rfl⟩ := pen.obey_stroke_eq_ok h
      simp [rise, Command.bracket]

/-- Of all commands only the end of a group can find fault with the brackets. -/
theorem obey_error {e : GrowthError} (h : pen.obey index c w = .error e)
    (he : e.isMalformed = true) :
    c = .leave ∧ w.parents = [] ∧ e = .unmatchedClose index := by
  obtain ⟨current, parents, branches, leaves, begun⟩ := w
  cases c with
  | enter =>
      simp only [obey, Walk.openGroup] at h
      cases hjitter : jittered current.deeper with
      | error stuck =>
          obtain rfl : stuck = e := by simpa [hjitter, bind, Except.bind] using h
          rw [jittered_error hjitter] at he
          simp [GrowthError.isMalformed] at he
      | ok child => simp [hjitter, bind, Except.bind, pure, Except.pure] at h
  | leave =>
      cases parents with
      | nil => exact ⟨rfl, rfl, (Except.error.inj h).symm⟩
      | cons parent others => simp [obey, Walk.closeGroup] at h
  | stroke s =>
      simp only [obey] at h
      cases hstroke : Sketch.stroke pen parents.isEmpty s ⟨current, branches, leaves, begun⟩ with
      | error stuck =>
          obtain rfl : stuck = e := by simpa [Walk.sketch, hstroke, Except.map] using h
          rcases Sketch.stroke_error hstroke with rfl | ⟨fault, rfl⟩
          · simp [GrowthError.isMalformed] at he
          · simp [GrowthError.isMalformed] at he
      | ok k => simp [Walk.sketch, hstroke, Except.map] at h

end Obey

section Step

variable {index : Nat} {s : Symbol} {w next : Walk α} {source rest : σ}

/-- The turtles that wait are the groups that are open. -/
theorem step_parents (h : pen.step index s w source = (.ok next, rest)) :
    (next.parents.length : Int) = w.parents.length + rise pen.bracket s := by
  rw [step_eq] at h
  cases hcommand : pen.command s source with
  | mk result left =>
      cases result with
      | error e => simp [hcommand] at h
      | ok c =>
          simp only [hcommand, Prod.mk.injEq] at h
          rw [obey_parents h.1, rise, rise, bracket_of_command hcommand]

/-- A step that finds fault with the brackets stands at a closing bracket that no turtle waits
for. -/
theorem step_error {e : GrowthError} (h : pen.step index s w source = (.error e, rest))
    (he : e.isMalformed = true) :
    pen.bracket s = some .closing ∧ w.parents = [] ∧ e = .unmatchedClose index ∧
      rest = source := by
  rw [step_eq] at h
  cases hcommand : pen.command s source with
  | mk result left =>
      cases result with
      | error stuck =>
          obtain ⟨rfl, -⟩ : stuck = e ∧ left = rest := by simpa [hcommand] using h
          rw [command_error hcommand] at he
          simp [GrowthError.isMalformed] at he
      | ok c =>
          simp only [hcommand, Prod.mk.injEq] at h
          obtain ⟨hobey, rfl⟩ := h
          obtain ⟨rfl, hparents, hfault⟩ := obey_error hobey he
          refine ⟨(bracket_of_command hcommand).symm, hparents, hfault, ?_⟩
          rcases command_eq_ok hcommand with ⟨-, -, hkept⟩ | ⟨_, -, hdrawn, -⟩
          · exact hkept
          · simp at hdrawn

/-- An action has no turtle wait and none come back. -/
theorem parents_of_contains (hs : pen.rules.contains s = true)
    (h : pen.step index s w source = (.ok next, rest)) : next.parents = w.parents := by
  rw [step_eq] at h
  cases hcommand : pen.command s source with
  | mk result left =>
      cases result with
      | error e => simp [hcommand] at h
      | ok c =>
          simp only [hcommand, Prod.mk.injEq] at h
          rcases command_eq_ok hcommand with ⟨hnone, -, -⟩ | ⟨_, -, rfl, -⟩
          · simp [RuleTable.not_contains_of_choices hnone] at hs
          · obtain ⟨k, -, rfl⟩ := pen.obey_stroke_eq_ok h.1
            rfl

end Step

section Walk

variable {index : Nat} {word : Word} {w final : Walk α} {source rest : σ}

theorem walk_parents (h : pen.walk index word w source = (.ok final, rest)) :
    (final.parents.length : Int) = w.parents.length + height pen.bracket word := by
  induction word generalizing index w source with
  | nil =>
      obtain ⟨rfl, -⟩ : w = final ∧ source = rest := by simpa [walk] using h
      simp
  | cons s word ih =>
      simp only [walk] at h
      cases hstep : pen.step index s w source with
      | mk result left =>
          cases result with
          | error e => simp [hstep] at h
          | ok next =>
              simp only [hstep] at h
              rw [ih h, step_parents hstep, height_cons]
              omega

theorem exists_walk_take (h : pen.walk index word w source = (.ok final, rest)) (j : Nat) :
    ∃ middle left, pen.walk index (word.take j) w source = (.ok middle, left) := by
  rw [← List.take_append_drop j word, walk_append] at h
  cases hfirst : pen.walk index (word.take j) w source with
  | mk result left =>
      cases result with
      | error e => simp [hfirst] at h
      | ok middle => exact ⟨middle, left, rfl⟩

variable {root : Turtle α}

/-- Where a walk has come, no group was closed that was not open. -/
theorem belowAt_eq_empty (h : pen.walk 0 word (.start root) source = (.ok final, rest)) :
    belowAt pen.bracket word = ∅ := by
  rw [Set.eq_empty_iff_forall_notMem]
  rintro i ⟨-, hbelow⟩
  obtain ⟨middle, left, hmiddle⟩ := exists_walk_take h (i + 1)
  have hwait := walk_parents hmiddle
  simp only [Walk.start, List.length_nil] at hwait
  omega

/-- A walk that finds fault with the brackets ends at the first symbol where more groups are
closed than opened, with the draws of the symbols before it. -/
theorem exists_isLeast_of_walk_error {e : GrowthError}
    (h : pen.walk 0 word (.start root) source = (.error e, rest)) (he : e.isMalformed = true) :
    ∃ i w, IsLeast (belowAt pen.bracket word) i ∧ e = .unmatchedClose i ∧
      pen.walk 0 (word.take i) (.start root) source = (.ok w, rest) ∧ w.parents = [] ∧
      pen.walk 0 (word.take (i + 1)) (.start root) source = (.error e, rest) := by
  obtain ⟨first, s, middle, ⟨second, rfl⟩, hfirst, hstops, -⟩ := walk_error h
  have hstep := hstops
  rw [walk_concat, hfirst] at hstep
  obtain ⟨hclosing, hparents, rfl, rfl⟩ := step_error hstep he
  have hbefore : (first ++ [s] ++ second).take first.length = first := by simp
  have hupto : (first ++ [s] ++ second).take (first.length + 1) = first ++ [s] := by
    rw [List.take_append_of_le_length (by simp), List.take_of_length_le (by simp)]
  refine ⟨first.length, middle, ⟨⟨by simp, ?_⟩, ?_⟩, by simp, ?_, hparents, ?_⟩
  · have hwait := walk_parents hfirst
    have hfall : rise pen.bracket s = -1 := by simp [rise, hclosing]
    simp only [Walk.start, hparents, List.length_nil] at hwait
    rw [hupto, height_append, height_cons, hfall, height_nil]
    omega
  · -- Every shorter part of the word is part of what was walked.
    rintro j ⟨hj, hbelow⟩
    by_contra hearly
    have hshort : (first ++ [s] ++ second).take (j + 1) = first.take (j + 1) := by
      rw [List.append_assoc, List.take_append_of_le_length (by omega)]
    rw [hshort] at hbelow
    have hinside : j ∈ belowAt pen.bracket first := ⟨by omega, hbelow⟩
    simp [belowAt_eq_empty hfirst] at hinside
  · rw [hbefore]
    exact hfirst
  · rw [hupto]
    exact hstops

end Walk

/-- A walk that visits the whole word leaves it to the turtles that still wait whether the word is
drawn. -/
theorem draw_of_walk {word : Word} {root : Turtle α} {source rest : σ} {w : Walk α}
    (h : pen.walk 0 word (.start root) source = (.ok w, rest)) :
    belowAt pen.bracket word = ∅ ∧
      ((height pen.bracket word = 0 ∧
          pen.draw word root source = (.ok ⟨word, w.branches, w.leaves⟩, rest)) ∨
        ∃ k : Nat, 0 < k ∧ height pen.bracket word = k ∧
          pen.draw word root source = (.error (.unmatchedOpen k), rest)) := by
  have hwait : height pen.bracket word = w.parents.length := by
    simpa [Walk.start] using (walk_parents h).symm
  refine ⟨belowAt_eq_empty h, ?_⟩
  by_cases hparents : w.parents = []
  · exact Or.inl ⟨by simp [hwait, hparents], by simp [draw, h, finish, hparents]⟩
  · exact Or.inr ⟨w.parents.length, List.length_pos_iff.mpr hparents, hwait,
      by simp [draw, h, finish, hparents]⟩

/-- A drawing that fails for no other reason fails exactly for its first unmatched closing bracket,
which ends it, or else for the groups it leaves open; a word with neither is drawn. -/
theorem judgesBrackets_of_draw (word : Word) (root : Turtle α) (source : σ)
    (hother : ∀ e, (pen.draw word root source).1 = .error e → e.isMalformed = true) :
    pen.JudgesBrackets word root source := by
  have hruled (s : Symbol) (hs : pen.rules.contains s = true) (index : Nat) (w : Walk α)
      (start rest : σ) (next : Walk α) (h : pen.step index s w start = (.ok next, rest)) :
      next.parents = w.parents := parents_of_contains hs h
  cases hwalk : pen.walk 0 word (.start root) source with
  | mk result rest =>
      cases result with
      | ok w =>
          obtain ⟨hnone, hends⟩ := draw_of_walk hwalk
          have hnever (i : Nat) : ¬ IsLeast (belowAt pen.bracket word) i := by
            rintro ⟨hi, -⟩
            simp [hnone] at hi
          rcases hends with ⟨hclosed, hdraw⟩ | ⟨n, hpos, hopen, hdraw⟩
          · refine ⟨?_, ?_, ?_, fun i hi => absurd hi (hnever i), fun i => rfl, fun k => rfl, hruled⟩
            · intro i
              simp [hdraw, hnever]
            · intro k
              simp only [hdraw, hnone, hclosed, reduceCtorEq, true_and, false_iff]
              omega
            · simp [hdraw, hnone, hclosed]
          · refine ⟨?_, ?_, ?_, fun i hi => absurd hi (hnever i), fun i => rfl, fun k => rfl, hruled⟩
            · intro i
              simp [hdraw, hnever]
            · intro k
              simp only [hdraw, hnone, hopen, Except.error.injEq, GrowthError.unmatchedOpen.injEq,
                true_and]
              omega
            · have hne : n ≠ 0 := Nat.ne_of_gt hpos
              simp [hdraw, hopen, hne]
      | error e =>
          have hdraw : pen.draw word root source = (.error e, rest) := by simp [draw, hwalk]
          have hmalformed : e.isMalformed = true := hother e (by rw [hdraw])
          obtain ⟨i, w, hleast, rfl, hbefore, hparents, hstops⟩ :=
            exists_isLeast_of_walk_error hwalk hmalformed
          have hsome : belowAt pen.bracket word ≠ ∅ := Set.Nonempty.ne_empty ⟨i, hleast.1⟩
          refine ⟨?_, ?_, ?_, ?_, fun i => rfl, fun k => rfl, hruled⟩
          · intro j
            simp only [hdraw, Except.error.injEq, GrowthError.unmatchedClose.injEq]
            constructor
            · rintro rfl
              exact hleast
            · intro hj
              exact hleast.unique hj
          · intro k
            simp [hdraw, hsome]
          · simp [hdraw, hsome]
          · intro j hj
            obtain rfl : i = j := hleast.unique hj
            refine ⟨w, rest, hbefore, hparents, ?_⟩
            intro after
            simp [draw, walk_append, hstops]

/-- Draws a segment for every opening bracket. -/
def bristle : Pen Float := plain ⟨[('[', .only .branch 1.0)]⟩

/-- Where opening brackets stand for segments, the first closing bracket closes nothing. -/
theorem bristle_judgesBrackets :
    (bristle.draw ['[', ']', ']'] .origin (⟨0, 1⟩ : Generator)).1 = .error (.unmatchedClose 1) ∧
      bristle.JudgesBrackets ['[', ']', ']'] .origin (⟨0, 1⟩ : Generator) ∧
      IsLeast (belowAt bristle.bracket ['[', ']', ']']) 1 := by
  have hfails : (bristle.draw ['[', ']', ']'] .origin (⟨0, 1⟩ : Generator)).1.map
      (fun p => p.branches.count) = .error (.unmatchedClose 1) := by decide +kernel
  have hdraw := eq_error_of_map hfails
  have hjudges : bristle.JudgesBrackets ['[', ']', ']'] .origin (⟨0, 1⟩ : Generator) := by
    apply judgesBrackets_of_draw
    intro e he
    obtain rfl : GrowthError.unmatchedClose 1 = e := Except.error.inj (hdraw.symm.trans he)
    rfl
  exact ⟨hdraw, hjudges, (hjudges.closing 1).mp hdraw⟩

end Pen
end Meristem
