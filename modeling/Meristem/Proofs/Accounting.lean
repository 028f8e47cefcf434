import Meristem.Proofs.Drawing.Reading
import Meristem.Proofs.Grammar.Generations
import Meristem.Species
import Mathlib.Algebra.BigOperators.Group.Finset.Basic

/-!
Every draw accounted for. A plant that is grown again from the same source comes out the same, and
a small change of its rules or of its word must not shift the draws of the rest by accident. So it
is said here of every draw which symbol takes it: in a growth the symbols with expansion rules, one
generation after the other and each from left to right, and in a drawing the symbols with drawing
rules, whatever becomes of their actions. Nothing else takes a draw, on success and on failure.
-/

namespace Meristem

namespace Grammar

variable {α σ : Type} [Arith α] [DrawSource σ α]

/-- How many draws are made before generation `k` is complete: one for each symbol with rules in
each generation before it. -/
def spent (rules : ExpansionRules α) (start : Word) (source : σ) (k : Nat) : Nat :=
  ∑ j ∈ Finset.range k, rules.ruled (generation rules start source j).1

/-- What a growth of `n` generations does with its source. -/
structure GrowthAccount (g : Grammar α) (start : Word) (n : Int) (source : σ) : Prop where
  returned : ∀ word rest, g.expandFrom start n source = (.ok word, rest) →
    word = (generation g.rules start source n.toNat).1 ∧
    rest = DrawSource.advance source (spent g.rules start source n.toNat) ∧
    ∀ k ≤ n.toNat, g.expandFrom start k source =
      (.ok (generation g.rules start source k).1,
        DrawSource.advance source (spent g.rules start source k))
  /-- A symbol with rules gives way to the payload that is picked by the number at its own place
  among the draws; a symbol without rules is copied. -/
  picked : ∀ k, (generation g.rules start source (k + 1)).1 =
    ((generation g.rules start source k).1.mapIdx fun i s =>
      part g.rules s (DrawSource.number source (spent g.rules start source k +
        g.rules.ruled ((generation g.rules start source k).1.take i)))).flatten
  /-- A growth that fails has made the draws up to the symbol where it stops. That symbol has made
  its own, unless just this draw was refused. -/
  failed : ∀ e rest, g.expandFrom start n source = (.error e, rest) →
    (n < 0 ∧ rest = source) ∨
    ∃ (k : Nat) (first : Word) (s : Symbol) (written : Word), (k : Int) < n ∧
      g.expandFrom start k source = (.ok (generation g.rules start source k).1,
        DrawSource.advance source (spent g.rules start source k)) ∧
      first ++ [s] <+: (generation g.rules start source k).1 ∧
      g.derive (k + 1) first (DrawSource.advance source (spent g.rules start source k)) =
        (.ok written,
          DrawSource.advance source (spent g.rules start source k + g.rules.ruled first)) ∧
      g.derive (k + 1) (first ++ [s])
        (DrawSource.advance source (spent g.rules start source k)) = (.error e, rest) ∧
      rest = DrawSource.advance source (spent g.rules start source k +
        g.rules.ruled (if g.rules.refuses s = true then first else first ++ [s]))

theorem generation_snd (rules : ExpansionRules α) (start : Word) (source : σ) (k : Nat) :
    (generation rules start source k).2 =
      DrawSource.advance source (spent rules start source k) := by
  induction k with
  | zero => rfl
  | succ k ih =>
      rw [generation_succ, rewrite_snd, ih, ← DrawSource.advance_add, spent, spent,
        Finset.sum_range_succ]

theorem rewrite_fst (rules : ExpansionRules α) (word : Word) (source : σ) :
    (rewrite rules word source).1 =
      (word.mapIdx fun i s =>
        part rules s (DrawSource.number source (rules.ruled (word.take i)))).flatten := by
  induction word generalizing source with
  | nil => rfl
  | cons s word ih =>
      rw [rewrite_cons, List.mapIdx_cons, List.flatten_cons, ih]
      simp only [List.take_zero, RuleTable.ruled_nil, List.take_succ_cons,
        rules.ruled_cons s (word.take _), DrawSource.number_advance]

theorem growthAccount (g : Grammar α) (start : Word) (n : Int) (source : σ) :
    g.GrowthAccount start n source := by
  have hpicked (k : Nat) : (generation g.rules start source (k + 1)).1 =
      ((generation g.rules start source k).1.mapIdx fun i s =>
        part g.rules s (DrawSource.number source (spent g.rules start source k +
          g.rules.ruled ((generation g.rules start source k).1.take i)))).flatten := by
    rw [generation_succ, generation_snd, rewrite_fst]
    simp only [DrawSource.number_advance]
  by_cases hsign : n < 0
  · have hresult : g.expandFrom start n source =
        (.error (.negativeGenerations (toString n)), source) := by
      simp [expandFrom, hsign]
    refine ⟨?_, hpicked, ?_⟩
    · intro word rest h
      simp [hresult] at h
    · intro e rest h
      obtain ⟨-, rfl⟩ : GrowthError.negativeGenerations (toString n) = e ∧ source = rest := by
        simpa [hresult] using h
      exact Or.inl ⟨hsign, rfl⟩
  obtain ⟨m, rfl⟩ : ∃ m : Nat, n = m := ⟨n.toNat, by omega⟩
  rcases g.reaches_or_gives_up start source m with hreaches |
      ⟨k, hk, hreaches, first, s, e, rest, hup, hfails⟩
  · have hresult := hreaches.expands m (Nat.le_refl m)
    refine ⟨?_, hpicked, ?_⟩
    · intro word rest h
      obtain ⟨rfl, rfl⟩ : _ = word ∧ _ = rest := by simpa [hresult] using h
      refine ⟨rfl, generation_snd g.rules start source m, ?_⟩
      intro j hj
      rw [hreaches.expands j hj, generation_snd]
    · intro e rest h
      simp [hresult] at h
  · refine ⟨?_, hpicked, ?_⟩
    · intro word rest' h
      simp [hfails] at h
    · intro e' rest' h
      obtain ⟨rfl, rfl⟩ : e = e' ∧ rest = rest' := by simpa [hfails] using h
      have hplace := generation_snd g.rules start source k
      have hbefore := hup.before
      have hstops := hup.stops
      rw [rewrite_snd, hplace, ← DrawSource.advance_add] at hbefore
      rw [hplace] at hstops
      refine Or.inr ⟨k, first, s, _, by omega, ?_, hup.inside, hbefore, hstops, ?_⟩
      · rw [hreaches.expands k (Nat.le_refl k), hplace]
      · rcases hup.cause with ⟨hrefuses, -, hrest⟩ | ⟨hrefuses, -, -, hrest⟩
        · rw [hrest, rewrite_snd, hplace, ← DrawSource.advance_add]
          simp [hrefuses]
        · rw [hrest, rewrite_snd, hplace, ← DrawSource.advance_add]
          simp [hrefuses]

end Grammar

/-- The action that a command carries out, if it came from a drawing rule. -/
def Command.action? : Command → Option Action
  | .stroke (.act action) => some action
  | _ => none

/-- The actions among commands, in their order. -/
def Command.actions (commands : List Command) : List Action := commands.filterMap Command.action?

theorem Command.action?_ofSymbol (s : Symbol) : (Command.ofSymbol s).action? = none := by
  unfold Command.ofSymbol
  split
  · rfl
  split
  · rfl
  · unfold Stroke.ofSymbol
    split
    · rfl
    split
    · rfl
    · rfl

namespace Pen

variable {α σ : Type} [Scalar α] [DrawSource σ α] (pen : Pen α)

/-- What a symbol does to a walk when `u` is the number drawn for it. -/
def perform (index : Nat) (s : Symbol) (u : α) (w : Walk α) : Except GrowthError (Walk α) :=
  match pen.rules.pick? s u with
  | some action => pen.act action w
  | none => w.steer index s

/-- What the drawing of a word does with its source. -/
structure DrawingAccount (word : Word) (root : Turtle α) (source : σ) : Prop where
  /-- A symbol that is visited performs what is picked by the number at its own place among the
  draws, and takes that draw if it has rules and is not refused. -/
  visited : ∀ first s w rest, first ++ [s] <+: word →
    pen.walk 0 first (.start root) source = (.ok w, rest) →
    rest = DrawSource.advance source (pen.rules.ruled first) ∧
    pen.walk 0 (first ++ [s]) (.start root) source =
      if pen.rules.refuses s = true then (.error .uncoveredInterval, rest)
      else (pen.perform first.length s
          (DrawSource.number source (pen.rules.ruled first)) w,
        DrawSource.advance source (pen.rules.ruled (first ++ [s])))
  returned : ∀ plant rest, pen.draw word root source = (.ok plant, rest) →
    rest = DrawSource.advance source (pen.rules.ruled word) ∧
    ∃ commands final, pen.read word source = (.ok commands, rest) ∧
      pen.follow 0 commands (.start root) = .ok final ∧
      plant = ⟨word, final.branches, final.leaves⟩ ∧
      (Command.actions commands).map some =
        (word.filter pen.rules.contains).mapIdx fun j s =>
          pen.rules.pick? s (DrawSource.number source j)
  /-- By the same rules and from the same source the same actions are chosen for every word with
  the same symbols that have rules, whatever stands between them. -/
  steady : ∀ (other : Pen α) (twin : Word) (commands others : List Command) (rest left : σ),
    other.rules = pen.rules →
    twin.filter pen.rules.contains = word.filter pen.rules.contains →
    pen.read word source = (.ok commands, rest) → other.read twin source = (.ok others, left) →
    Command.actions others = Command.actions commands ∧ left = rest
  /-- A drawing that fails has made the draws up to the symbol where it stops, or all of them if
  it only lacks the end of a group. -/
  failed : ∀ e rest, pen.draw word root source = (.error e, rest) →
    (∃ w, pen.walk 0 word (.start root) source = (.ok w, rest) ∧
      rest = DrawSource.advance source (pen.rules.ruled word)) ∨
    ∃ first s w, first ++ [s] <+: word ∧
      pen.walk 0 first (.start root) source =
        (.ok w, DrawSource.advance source (pen.rules.ruled first)) ∧
      pen.walk 0 (first ++ [s]) (.start root) source = (.error e, rest) ∧
      rest = DrawSource.advance source
        (pen.rules.ruled (if pen.rules.refuses s = true then first else first ++ [s]))

variable {pen}

theorem step_eq_perform (index : Nat) (s : Symbol) (w : Walk α) (source : σ) :
    pen.step index s w source =
      if pen.rules.refuses s = true then (.error .uncoveredInterval, source)
      else (pen.perform index s (DrawSource.number source 0) w,
        DrawSource.advance source (pen.rules.ruled [s])) := by
  unfold step perform
  cases hchoices : pen.rules.choices? s with
  | none =>
      simp [RuleTable.refuses, RuleTable.pick?, hchoices, RuleTable.ruled_of_none hchoices]
  | some choices =>
      simp only [choices.draw_eq, RuleTable.ruled_of_choices hchoices]
      cases hcovers : choices.covers with
      | false => simp [RuleTable.refuses, hchoices, hcovers]
      | true => simp [RuleTable.refuses, RuleTable.pick?, hchoices, hcovers]

theorem walk_concat (index : Nat) (first : Word) (s : Symbol) (w : Walk α) (source : σ) :
    pen.walk index (first ++ [s]) w source =
      match pen.walk index first w source with
      | (.error e, rest) => (.error e, rest)
      | (.ok middle, rest) => pen.step (index + first.length) s middle rest := by
  rw [walk_append]
  cases pen.walk index first w source with
  | mk result rest =>
      cases result with
      | error e => rfl
      | ok middle =>
          simp only [walk]
          cases pen.step (index + first.length) s middle rest with
          | mk last left =>
              cases last with
              | error e => rfl
              | ok final => rfl

/-- A walk takes one draw for each symbol with rules that it visits. -/
theorem walk_rest {index : Nat} {word : Word} {w final : Walk α} {source rest : σ}
    (h : pen.walk index word w source = (.ok final, rest)) :
    rest = DrawSource.advance source (pen.rules.ruled word) := by
  induction word using List.reverseRecOn generalizing final rest with
  | nil =>
      obtain ⟨-, rfl⟩ : w = final ∧ source = rest := by simpa [walk] using h
      rfl
  | append_singleton word s ih =>
      rw [walk_concat] at h
      cases hword : pen.walk index word w source with
      | mk result middle =>
          cases result with
          | error e => simp [hword] at h
          | ok next =>
              simp only [hword, step_eq_perform] at h
              cases hrefuses : pen.rules.refuses s with
              | true => simp [hrefuses] at h
              | false =>
                  simp only [hrefuses, Bool.false_eq_true, ↓reduceIte, Prod.mk.injEq] at h
                  rw [← h.2, ih hword, ← DrawSource.advance_add, RuleTable.ruled_append]

/-- A walk that fails does so at one of its symbols, after the draws of those before. -/
theorem walk_error {index : Nat} {word : Word} {w : Walk α} {source rest : σ} {e : GrowthError}
    (h : pen.walk index word w source = (.error e, rest)) :
    ∃ first s middle, first ++ [s] <+: word ∧
      pen.walk index first w source =
        (.ok middle, DrawSource.advance source (pen.rules.ruled first)) ∧
      pen.walk index (first ++ [s]) w source = (.error e, rest) ∧
      rest = DrawSource.advance source
        (pen.rules.ruled (if pen.rules.refuses s = true then first else first ++ [s])) := by
  induction word using List.reverseRecOn with
  | nil => simp [walk] at h
  | append_singleton word s ih =>
      cases hword : pen.walk index word w source with
      | mk result middle =>
          cases result with
          | error e' =>
              have hlast := h
              rw [walk_concat] at hlast
              obtain ⟨rfl, rfl⟩ : e' = e ∧ middle = rest := by simpa [hword] using hlast
              obtain ⟨first, t, next, hinside, hrest⟩ := ih hword
              exact ⟨first, t, next, hinside.trans (List.prefix_append word [s]), hrest⟩
          | ok next =>
              have hdraws := walk_rest hword
              refine ⟨word, s, next, List.prefix_rfl, ?_, h, ?_⟩
              · rw [hword, hdraws]
              · rw [walk_concat] at h
                simp only [hword, step_eq_perform] at h
                cases hrefuses : pen.rules.refuses s with
                | true =>
                    obtain ⟨-, rfl⟩ : GrowthError.uncoveredInterval = e ∧ middle = rest := by
                      simpa [hrefuses] using h
                    simpa [hrefuses] using hdraws
                | false =>
                    simp only [hrefuses, Bool.false_eq_true, ↓reduceIte, Prod.mk.injEq] at h
                    rw [← h.2, hdraws, ← DrawSource.advance_add, ← RuleTable.ruled_append]
                    simp

/-- Reading draws the actions of the symbols with rules, each by the number at its own place among
them. Nothing of the other symbols shows in it. -/
theorem read_actions {word : Word} {source rest : σ} {commands : List Command}
    (h : pen.read word source = (.ok commands, rest)) :
    (Command.actions commands).map some =
        (word.filter pen.rules.contains).mapIdx (fun j s =>
          pen.rules.pick? s (DrawSource.number source j)) ∧
      rest = DrawSource.advance source (pen.rules.ruled word) := by
  induction word generalizing source commands with
  | nil =>
      obtain ⟨rfl, rfl⟩ : [] = commands ∧ source = rest := by simpa [read] using h
      exact ⟨rfl, rfl⟩
  | cons s word ih =>
      obtain ⟨c, next, more, hcommand, hmore, rfl⟩ := (pen.read_cons_eq_ok_iff _ _ _ _ _).mp h
      obtain ⟨hactions, hrest⟩ := ih hmore
      rcases command_eq_ok hcommand with ⟨hchoices, rfl, rfl⟩ | ⟨choices, hchoices, rfl, rfl⟩
      · have hplain := RuleTable.not_contains_of_choices hchoices
        refine ⟨?_, ?_⟩
        · simpa [Command.actions, Command.action?_ofSymbol, hplain] using hactions
        · rw [pen.rules.ruled_cons, RuleTable.ruled_of_none hchoices, Nat.zero_add]
          exact hrest
      · have hruled := RuleTable.contains_of_choices hchoices
        have hpick : pen.rules.pick? s (DrawSource.number source 0) =
            some (choices.pick (DrawSource.number source 0)) := by
          simp [RuleTable.pick?, hchoices]
        refine ⟨?_, ?_⟩
        · rw [List.filter_cons_of_pos hruled, List.mapIdx_cons, hpick]
          simp only [DrawSource.number_advance, Nat.add_comm 1] at hactions
          rw [← hactions]
          rfl
        · rw [hrest, ← DrawSource.advance_add, pen.rules.ruled_cons,
            RuleTable.ruled_of_choices hchoices]

theorem drawingAccount (pen : Pen α) (word : Word) (root : Turtle α) (source : σ) :
    pen.DrawingAccount word root source where
  visited := by
    intro first s w rest _ hfirst
    have hrest := walk_rest hfirst
    refine ⟨hrest, ?_⟩
    rw [walk_concat, hfirst]
    simp only [step_eq_perform, Nat.zero_add]
    rw [hrest, DrawSource.number_advance, ← DrawSource.advance_add, RuleTable.ruled_append]
    rfl
  returned := by
    intro plant rest h
    obtain ⟨commands, final, hread, hfollow, -, rfl⟩ := (pen.draw_eq_ok_iff _ _ _ _ _).mp h
    obtain ⟨hactions, hrest⟩ := read_actions hread
    exact ⟨hrest, commands, final, hread, hfollow, rfl, hactions⟩
  steady := by
    intro other twin commands others rest left hrules hsymbols hread hother
    obtain ⟨hactions, hrest⟩ := read_actions hread
    obtain ⟨htwins, hleft⟩ := read_actions hother
    rw [hrules, hsymbols, ← hactions] at htwins
    rw [hrules, RuleTable.ruled, List.countP_eq_length_filter, hsymbols,
      ← List.countP_eq_length_filter] at hleft
    exact ⟨List.map_injective_iff.mpr (Option.some_injective _) htwins, hleft.trans hrest.symm⟩
  failed := by
    intro e rest h
    unfold draw at h
    cases hwalk : pen.walk 0 word (.start root) source with
    | mk result left =>
        cases result with
        | error e' =>
            obtain ⟨rfl, rfl⟩ : e' = e ∧ left = rest := by simpa [hwalk] using h
            exact Or.inr (walk_error hwalk)
        | ok w =>
            simp only [hwalk, Prod.mk.injEq] at h
            obtain ⟨-, rfl⟩ := h
            exact Or.inl ⟨w, rfl, walk_rest hwalk⟩

end Pen

namespace Species

variable {α σ : Type} [Scalar α] [DrawSource σ α]

/-- How growing and drawing share a source: the drawing goes on with what the growth leaves, and
nothing is drawn before, between or after them. -/
structure PlantAccount (s : Species α) (source : σ) : Prop where
  returned : ∀ plant rest, s.grow source = (.ok plant, rest) →
    ∃ word middle, s.grammar.expand s.generations source = (.ok word, middle) ∧
      s.pen.draw word (.atRoot s.root) middle = (.ok plant, rest) ∧
      middle = DrawSource.advance source
        (Grammar.spent s.grammar.rules s.grammar.start source s.generations.toNat) ∧
      rest = DrawSource.advance source
        (Grammar.spent s.grammar.rules s.grammar.start source s.generations.toNat +
          s.pen.rules.ruled word)
  failed : ∀ e rest, s.grow source = (.error e, rest) →
    s.grammar.expand s.generations source = (.error e, rest) ∨
    ∃ word middle, s.grammar.expand s.generations source = (.ok word, middle) ∧
      s.pen.draw word (.atRoot s.root) middle = (.error e, rest)

theorem plantAccount (s : Species α) (source : σ) : s.PlantAccount source where
  returned := by
    intro plant rest h
    unfold grow at h
    cases hexpand : s.grammar.expand s.generations source with
    | mk result middle =>
        cases result with
        | error e => simp [hexpand] at h
        | ok word =>
            simp only [hexpand] at h
            have hgrowth := s.grammar.growthAccount s.grammar.start s.generations source
            obtain ⟨-, hmiddle, -⟩ := hgrowth.returned word middle hexpand
            obtain ⟨hrest, -⟩ := (s.pen.drawingAccount word _ middle).returned plant rest h
            refine ⟨word, middle, rfl, h, hmiddle, ?_⟩
            rw [hrest, hmiddle, ← DrawSource.advance_add]
  failed := by
    intro e rest h
    unfold grow at h
    cases hexpand : s.grammar.expand s.generations source with
    | mk result middle =>
        cases result with
        | error e' => exact Or.inl (by simpa [hexpand] using h)
        | ok word =>
            simp only [hexpand] at h
            exact Or.inr ⟨word, middle, rfl, h⟩

/-- Every draw of a plant is accounted for, whatever the rules, the words, the root and the
source: in its growth, in its drawing, and in the two together. -/
theorem draws_accounted (s : Species α) (source : σ) :
    (∀ start n, s.grammar.GrowthAccount start n source) ∧
      (∀ word root, s.pen.DrawingAccount word root source) ∧ s.PlantAccount source := by
  refine ⟨?_, ?_, s.plantAccount source⟩
  · intro start n
    exact s.grammar.growthAccount start n source
  · intro word root
    exact s.pen.drawingAccount word root source

end Species

end Meristem
