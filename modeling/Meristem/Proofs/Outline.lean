import Mathlib.Order.Bounds.Basic
import Meristem.Outline.Document
import Meristem.Proofs.Drawing.Depth

/-!
What an outline tells of the brackets of a word. It has one line for every run of symbols between
brackets, in their order. A closing bracket that finds no open group is passed over, so the depth of
a line is the most that the brackets before its run rise from any place on. The outline of a word
without line breaks can be read back into its lines. In a word that can be drawn no bracket is
passed over, and a line stands as many levels deep as the turtle that meets its symbols is below
the root.
-/

namespace Meristem.Outline

/-- How far the brackets rise to the end of a word, from each place in it. -/
def climbs (word : Word) : Set Int :=
  {rises | ∃ part, part <:+ word ∧ rises = height Symbol.bracket part}

/-- A run of a word: symbols that are no brackets, as many as stand side by side. -/
structure IsRun (word : Word) (start : Nat) (run : Word) : Prop where
  nonempty : run ≠ []
  plain : ∀ s ∈ run, Symbol.bracket s = none
  maximal : ∃ before after, word = before ++ run ++ after ∧ before.length = start ∧
    (∀ s, before.getLast? = some s → Symbol.bracket s ≠ none) ∧
    (∀ s, after.head? = some s → Symbol.bracket s ≠ none)

/-- The lines of the runs of a part of a word, each with the place of its run in the part. What
stands before the part is open where the part begins. -/
structure Marks (before word : Word) (marks : List (Nat × Line)) : Prop where
  sorted : marks.Pairwise fun first second => first.1 < second.1
  mem_iff : ∀ start line, (start, line) ∈ marks ↔
    IsRun word start line.run ∧ IsGreatest (climbs (before ++ word.take start)) line.depth

theorem Mark.ofSymbol_cases (s : Symbol) :
    (Symbol.bracket s = some .opening ∧ ofSymbol s = opening) ∨
      (Symbol.bracket s = some .closing ∧ ofSymbol s = closing) ∨
        (Symbol.bracket s = none ∧ ofSymbol s = plain [s]) := by
  unfold ofSymbol Symbol.bracket
  split
  · exact Or.inl ⟨rfl, rfl⟩
  · split
    · exact Or.inr (Or.inl ⟨rfl, rfl⟩)
    · exact Or.inr (Or.inr ⟨rfl, rfl⟩)

/-- A text is gone through symbol by symbol. -/
theorem marks?_text (word : Word) : marks? (.text word) = some (word.map .ofSymbol) := by
  have hone (s : Symbol) : Mark.ofText [s] = .ofSymbol s := by
    have hshort : ["", "]", "[]"].map Text.ofString =
      [[], [CodePoint.ofChar ']'], [CodePoint.ofChar '[', CodePoint.ofChar ']']] := by decide
    have hopen : Text.ofString "[" = [CodePoint.ofChar '['] := by decide
    simp [Mark.ofText, Mark.ofSymbol, hshort, hopen]
  simp only [marks?, Document.items?, Option.bind_eq_bind, Option.bind_some, List.mapM_map,
    Function.comp_def, hone]
  exact List.mapM_pure

section Climbs

variable {word : Word} {depth : Nat}

theorem isGreatest_climbs_nil : IsGreatest (climbs []) 0 := by
  constructor
  · exact ⟨[], List.nil_suffix, rfl⟩
  · rintro rises ⟨part, hpart, rfl⟩
    rw [List.suffix_nil.mp hpart, height_nil]

/-- A counter that does not fall below zero keeps the greatest rise. -/
theorem isGreatest_climbs_concat (s : Symbol) (h : IsGreatest (climbs word) depth) :
    IsGreatest (climbs (word ++ [s])) ((depth + rise Symbol.bracket s).toNat : Nat) := by
  obtain ⟨⟨top, htop, hdepth⟩, hmost⟩ := h
  have hlast (part : Word) : height Symbol.bracket (part ++ [s]) =
      height Symbol.bracket part + rise Symbol.bracket s := by simp
  constructor
  · by_cases hfalls : (depth : Int) + rise Symbol.bracket s < 0
    · refine ⟨[], List.nil_suffix, ?_⟩
      rw [height_nil]
      omega
    · refine ⟨top ++ [s], List.suffix_concat_iff.mpr (Or.inr ⟨top, rfl, htop⟩), ?_⟩
      rw [hlast]
      omega
  · rintro rises ⟨part, hpart, rfl⟩
    rcases List.suffix_concat_iff.mp hpart with rfl | ⟨shorter, rfl, hshorter⟩
    · rw [height_nil]
      omega
    · have hbound := hmost ⟨shorter, hshorter, rfl⟩
      rw [hlast]
      omega

/-- Symbols that are no brackets change no depth. -/
theorem isGreatest_climbs_append {run : Word} (hrun : ∀ s ∈ run, Symbol.bracket s = none)
    (h : IsGreatest (climbs word) depth) : IsGreatest (climbs (word ++ run)) depth := by
  induction run using List.reverseRecOn with
  | nil => simpa using h
  | append_singleton run s ih =>
      have hs : rise Symbol.bracket s = 0 := by simp [rise, hrun s (by simp)]
      have hbefore := ih fun other hother => hrun other (by simp [hother])
      have hnext := isGreatest_climbs_concat s hbefore
      rw [hs, Int.add_zero, Int.toNat_natCast, List.append_assoc] at hnext
      exact hnext

end Climbs

section Runs

variable {left rest run : Word} {b : Symbol} {start : Nat}

theorem IsRun.le_length (h : IsRun left start run) : start ≤ left.length := by
  obtain ⟨before, after, rfl, rfl, -⟩ := h.maximal
  rw [List.append_assoc, List.length_append]
  omega

/-- A word without brackets is one run, unless it is empty. -/
theorem isRun_of_plain (hleft : ∀ s ∈ left, Symbol.bracket s = none) :
    IsRun left start run ↔ left ≠ [] ∧ start = 0 ∧ run = left := by
  constructor
  · rintro ⟨hnonempty, -, before, after, rfl, rfl, hbefore, hafter⟩
    have hfirst : before = [] := by
      by_contra hsome
      exact hbefore _ (List.getLast?_eq_some_getLast hsome)
        (hleft _ (by simp [List.getLast_mem hsome]))
    have hlast : after = [] := by
      by_contra hsome
      exact hafter _ (List.head?_eq_some_head hsome) (hleft _ (by simp [List.head_mem hsome]))
    subst hfirst hlast
    simpa using hnonempty
  · rintro ⟨hnonempty, rfl, rfl⟩
    exact ⟨hnonempty, hleft, [], [], by simp, rfl, by simp, by simp⟩

/-- The runs of a word are those before a bracket of it and those after the bracket. -/
theorem isRun_append_bracket (hb : Symbol.bracket b ≠ none) :
    IsRun (left ++ b :: rest) start run ↔
      IsRun left start run ∨ ∃ later, IsRun rest later run ∧ start = left.length + 1 + later := by
  constructor
  · rintro ⟨hnonempty, hplain, before, after, hword, rfl, hbefore, hafter⟩
    rcases List.append_eq_append_iff.mp hword with ⟨more, hlong, hrest⟩ | ⟨more, hleft, hrest⟩
    · cases more with
      | nil =>
          rw [List.append_nil] at hlong
          refine Or.inl ⟨hnonempty, hplain, before, [], by simp [hlong], rfl, hbefore, by simp⟩
      | cons c more =>
          obtain ⟨rfl, rfl⟩ : b = c ∧ rest = more ++ after := by simpa using hrest
          -- The bracket does not belong to the run, so it stands before it.
          rcases List.append_eq_append_iff.mp hlong with ⟨less, hshort, hend⟩ | ⟨less, hsplit, hend⟩
          · exact absurd (hplain b (by simp [hend])) hb
          · cases less with
            | nil =>
                rw [List.nil_append] at hend
                exact absurd (hplain b (hend ▸ List.mem_cons_self)) hb
            | cons d less =>
                obtain ⟨rfl, rfl⟩ : b = d ∧ more = less ++ run := by simpa using hend
                refine Or.inr ⟨less.length, ?_, ?_⟩
                · refine ⟨hnonempty, hplain, less, after, rfl, rfl, ?_, hafter⟩
                  intro s hs
                  apply hbefore
                  rw [hsplit, List.getLast?_append, List.getLast?_cons, hs]
                  rfl
                · rw [hsplit, List.length_append, List.length_cons]
                  omega
    · refine Or.inl ⟨hnonempty, hplain, before, more, hleft, rfl, hbefore, ?_⟩
      intro s hs
      apply hafter
      rw [hrest, List.head?_append, hs]
      rfl
  · rintro (⟨hnonempty, hplain, before, after, rfl, rfl, hbefore, hafter⟩ |
      ⟨later, ⟨hnonempty, hplain, before, after, rfl, rfl, hbefore, hafter⟩, rfl⟩)
    · refine ⟨hnonempty, hplain, before, after ++ b :: rest, by simp, rfl, hbefore, ?_⟩
      intro s hs
      cases after with
      | nil =>
          obtain rfl : b = s := by simpa using hs
          exact hb
      | cons c after => exact hafter s (by simpa using hs)
    · refine ⟨hnonempty, hplain, left ++ b :: before, after, by simp, ?_, ?_, hafter⟩
      · rw [List.length_append, List.length_cons]
        omega
      · intro s hs
        rw [List.getLast?_append, List.getLast?_cons] at hs
        cases hlast : before.getLast? with
        | none =>
            obtain rfl : b = s := by simpa [hlast] using hs
            exact hb
        | some c =>
            obtain rfl : c = s := by simpa [hlast] using hs
            exact hbefore c hlast

end Runs

section Marks

variable {before left rest : Word} {depth : Nat}

/-- A run that has come to its end makes one line. -/
theorem exists_marks_flush (hleft : ∀ s ∈ left, Symbol.bracket s = none)
    (h : IsGreatest (climbs before) depth) :
    ∃ marks, Marks before left marks ∧ flush depth left = marks.map (·.2) := by
  cases left with
  | nil =>
      refine ⟨[], ⟨List.Pairwise.nil, ?_⟩, rfl⟩
      intro start line
      simp [isRun_of_plain hleft]
  | cons s left =>
      refine ⟨[(0, ⟨depth, s :: left⟩)], ⟨List.pairwise_singleton _ _, ?_⟩, rfl⟩
      rintro start ⟨level, run⟩
      simp only [List.mem_singleton, Prod.mk.injEq, Line.mk.injEq, isRun_of_plain hleft]
      constructor
      · rintro ⟨rfl, rfl, rfl⟩
        exact ⟨⟨by simp, rfl, rfl⟩, by simpa using h⟩
      · rintro ⟨⟨-, rfl, rfl⟩, hlevel⟩
        have hsame : (level : Int) = depth := hlevel.unique (by simpa using h)
        exact ⟨rfl, by exact_mod_cast hsame, rfl⟩

theorem Marks.append_bracket {b : Symbol} (hb : Symbol.bracket b ≠ none)
    {first second : List (Nat × Line)} (hfirst : Marks before left first)
    (hsecond : Marks (before ++ left ++ [b]) rest second) :
    Marks before (left ++ b :: rest)
      (first ++ second.map fun mark => (left.length + 1 + mark.1, mark.2)) where
  sorted := by
    rw [List.pairwise_append, List.pairwise_map]
    refine ⟨hfirst.sorted, hsecond.sorted.imp fun h => by omega, ?_⟩
    rintro ⟨start, line⟩ hmark other hother
    obtain ⟨mark, -, rfl⟩ := List.mem_map.mp hother
    have hle := ((hfirst.mem_iff start line).mp hmark).1.le_length
    simp only
    omega
  mem_iff := by
    intro start line
    rw [List.mem_append, hfirst.mem_iff, isRun_append_bracket hb, or_and_right]
    apply or_congr
    · refine and_congr_right fun hrun => ?_
      rw [List.take_append_of_le_length hrun.le_length]
    · have hplace (later : Nat) : before ++ (left ++ b :: rest).take (left.length + 1 + later) =
          before ++ left ++ [b] ++ rest.take later := by
        rw [Nat.add_assoc, List.take_length_add_append, Nat.add_comm 1 later, List.take_succ_cons]
        simp
      constructor
      · intro hmark
        obtain ⟨⟨later, other⟩, hother, hsame⟩ := List.mem_map.mp hmark
        obtain ⟨rfl, rfl⟩ := Prod.mk.injEq .. ▸ hsame
        obtain ⟨hrun, hdepth⟩ := (hsecond.mem_iff later other).mp hother
        exact ⟨⟨later, hrun, rfl⟩, by rwa [hplace]⟩
      · rintro ⟨⟨later, hrun, rfl⟩, hdepth⟩
        rw [hplace] at hdepth
        exact List.mem_map.mpr ⟨(later, line), (hsecond.mem_iff later line).mpr ⟨hrun, hdepth⟩, rfl⟩

/-- The lines of the rest of a word are those of its runs, the first of which may have begun. -/
theorem exists_marks_linesFrom (rest run : Word) {before : Word} {depth : Nat}
    (hrun : ∀ s ∈ run, Symbol.bracket s = none) (h : IsGreatest (climbs before) depth) :
    ∃ marks, Marks before (run.reverse ++ rest) marks ∧
      linesFrom depth run (rest.map .ofSymbol) = marks.map (·.2) := by
  induction rest generalizing before run depth with
  | nil =>
      rw [List.append_nil]
      exact exists_marks_flush (by simpa using hrun) h
  | cons s rest ih =>
      have hreverse : ∀ other ∈ run.reverse, Symbol.bracket other = none := by simpa using hrun
      have hbracket (hs : Symbol.bracket s ≠ none) (next : Nat)
          (hnext : ((depth : Int) + rise Symbol.bracket s).toNat = next) :
          ∃ marks, Marks before (run.reverse ++ s :: rest) marks ∧
            flush depth run.reverse ++ linesFrom next [] (rest.map .ofSymbol) =
              marks.map (·.2) := by
        have hbelow := isGreatest_climbs_concat s (isGreatest_climbs_append hreverse h)
        rw [hnext] at hbelow
        obtain ⟨first, hfirst, hflush⟩ := exists_marks_flush hreverse h
        obtain ⟨second, hsecond, hlines⟩ := ih [] (by simp) hbelow
        refine ⟨_, hfirst.append_bracket hs hsecond, ?_⟩
        rw [hflush, hlines, List.map_append, List.map_map]
        rfl
      rcases Mark.ofSymbol_cases s with ⟨hs, hmark⟩ | ⟨hs, hmark⟩ | ⟨hs, hmark⟩
      · have hrise : rise Symbol.bracket s = 1 := by simp [rise, hs]
        rw [List.map_cons, hmark]
        exact hbracket (by simp [hs]) (depth + 1) (by omega)
      · have hrise : rise Symbol.bracket s = -1 := by simp [rise, hs]
        rw [List.map_cons, hmark]
        exact hbracket (by simp [hs]) (depth - 1) (by omega)
      · obtain ⟨marks, hmarks, hlines⟩ := ih (s :: run) (by simpa [hs] using hrun) h
        refine ⟨marks, by simpa using hmarks, ?_⟩
        rw [List.map_cons, hmark]
        exact hlines

/-- The lines hold every symbol that is no bracket. -/
theorem flatMap_run_linesFrom (rest : Word) (depth : Nat) (run : Word) :
    (linesFrom depth run (rest.map .ofSymbol)).flatMap (·.run) =
      run.reverse ++ rest.filter (Symbol.bracket · = none) := by
  have hflush (level : Nat) (left : Word) : (flush level left).flatMap (·.run) = left := by
    cases left <;> simp [flush]
  induction rest generalizing depth run with
  | nil => simp [linesFrom, hflush]
  | cons s rest ih =>
      rcases Mark.ofSymbol_cases s with ⟨hs, hmark⟩ | ⟨hs, hmark⟩ | ⟨hs, hmark⟩
      · simp [hmark, linesFrom, hflush, ih, hs]
      · simp [hmark, linesFrom, hflush, ih, hs]
      · simp [hmark, linesFrom, ih, hs]

end Marks

section Reading

/-- What stands between an indent and a run. -/
def dash : Text := ['-', ' ']

/-- A text cut in two at the first dash that a space follows, which is left out. -/
def cutAtDash? : Text → Option (Text × Text)
  | [] => none
  | c :: rest =>
    if c = '-' ∧ rest.head? = some ' ' then some ([], rest.tail)
    else (cutAtDash? rest).map fun (first, second) => (c :: first, second)

/-- The line that a text is written for: half the length before its dash is its depth, and all
that comes after is its run. -/
def Line.ofText? (text : Text) : Option Line :=
  (cutAtDash? text).map fun (indent, run) => ⟨indent.length / 2, run⟩

/-- The lines of a written outline. -/
def readLines (text : Text) : List Line :=
  (text.splitOn (CodePoint.ofChar '\n')).filterMap Line.ofText?

theorem Line.text_eq (line : Line) :
    line.text = List.replicate (2 * line.depth) (CodePoint.ofChar ' ') ++ dash ++ line.run := by
  simp [Line.text, Text.ofString, dash]

theorem cutAtDash?_indent (n : Nat) (run : Word) :
    cutAtDash? (List.replicate n (CodePoint.ofChar ' ') ++ dash ++ run) =
      some (List.replicate n (CodePoint.ofChar ' '), run) := by
  induction n with
  | zero => rfl
  | succ n ih =>
      have hspace : CodePoint.ofChar ' ' ≠ CodePoint.ofChar '-' := by decide
      rw [List.replicate_succ, List.cons_append, List.cons_append, cutAtDash?, ih]
      simp [hspace]

/-- A run may hold dashes and spaces itself. -/
theorem Line.ofText?_text (line : Line) : Line.ofText? line.text = some line := by
  rw [Line.ofText?, Line.text_eq, cutAtDash?_indent]
  simp

theorem readLines_intercalate {lines : List Line}
    (h : ∀ line ∈ lines, CodePoint.ofChar '\n' ∉ line.run) :
    readLines (List.intercalate [CodePoint.ofChar '\n'] (lines.map Line.text)) = lines := by
  cases lines with
  | nil => simp [readLines, Line.ofText?, cutAtDash?]
  | cons first others =>
      have hbreak : ∀ text ∈ (first :: others).map Line.text, CodePoint.ofChar '\n' ∉ text := by
        intro text htext
        obtain ⟨line, hline, rfl⟩ := List.mem_map.mp htext
        have hspace : CodePoint.ofChar '\n' ≠ CodePoint.ofChar ' ' := by decide
        have hdash : CodePoint.ofChar '\n' ∉ dash := by decide
        simp [Line.text_eq, h line hline, hspace, hdash]
      rw [readLines, List.splitOn_intercalate _ hbreak (by simp), List.filterMap_map]
      simp [Line.ofText?_text]

end Reading

section Turtles

variable {α σ : Type} [Scalar α] [DrawSource σ α] {pen : Pen α} {word : Word} {root : Turtle α}
  {source rest : σ} {plant : Plant α}

/-- In a word that is drawn no bracket is passed over: from its start the brackets rise as far as
from any place. -/
theorem isGreatest_climbs_of_draw (h : pen.draw word root source = (.ok plant, rest))
    (hbracket : pen.bracket = Symbol.bracket) (start : Nat) :
    IsGreatest (climbs (word.take start)) (height Symbol.bracket (word.take start)) := by
  obtain ⟨commands, final, hread, hfollow, -, -⟩ := (pen.draw_eq_ok_iff _ _ _ _ _).mp h
  have hwalk := (pen.walk_eq_ok_iff _ _ _ _ _ _).mpr ⟨commands, hread, hfollow⟩
  have habove (i : Nat) : 0 ≤ height Symbol.bracket (word.take i) := by
    obtain ⟨w, left, hw⟩ := Pen.exists_walk_take hwalk i
    have hwait := Pen.walk_parents hw
    simp only [Walk.start, List.length_nil, hbracket] at hwait
    omega
  refine ⟨⟨_, List.suffix_rfl, rfl⟩, ?_⟩
  rintro rises ⟨part, ⟨front, hfront⟩, rfl⟩
  have hinside : front <+: word := List.IsPrefix.trans ⟨part, hfront⟩ (List.take_prefix _ _)
  have hrise := habove front.length
  rw [← List.prefix_iff_eq_take.mp hinside] at hrise
  rw [← hfront, height_append]
  omega

/-- The turtles that meet the symbols of a run are as deep as its line. -/
theorem exists_passes_depth_eq (h : pen.draw word root source = (.ok plant, rest))
    (hbracket : pen.bracket = Symbol.bracket) {start : Nat} {line : Line}
    (hrun : IsRun word start line.run) (hline : IsGreatest (climbs (word.take start)) line.depth)
    {k : Nat} (hk : k < line.run.length) :
    ∃ before after, pen.Passes word root source (start + k) before after ∧
      before.current.depth = root.depth + line.depth := by
  obtain ⟨commands, final, hread, hfollow, -, -⟩ := (pen.draw_eq_ok_iff _ _ _ _ _).mp h
  obtain ⟨front, after, hword, hfront, -, -⟩ := hrun.maximal
  have hinside : start + k < word.length := by
    rw [hword, List.length_append, List.length_append]
    omega
  have htake : word.take (start + k) = word.take start ++ line.run.take k := by
    rw [hword, ← hfront, List.append_assoc, List.take_length_add_append, List.take_left,
      List.take_append_of_le_length (Nat.le_of_lt hk)]
  have hpart : ∀ s ∈ line.run.take k, Symbol.bracket s = none := fun s hs =>
    hrun.plain s (List.mem_of_mem_take hs)
  have hsame := isGreatest_climbs_append hpart hline
  rw [← htake] at hsame
  have hheight := hsame.unique (isGreatest_climbs_of_draw h hbracket (start + k))
  obtain ⟨before, next, hpass⟩ := Pen.exists_passes hread hfollow hinside
  refine ⟨before, next, hpass, ?_⟩
  rw [hpass.depth_eq hread, Pen.depthAt, hbracket, hheight]

end Turtles

/-- What the outline of a word shows; `marks` are its lines with the places of their runs. -/
structure ShowsBrackets (word : Word) (marks : List (Nat × Line)) : Prop where
  /-- The lines stand for the runs of the word, in their order and each at its depth. -/
  runs : Marks [] word marks
  marks?_eq : marks? (.text word) = some (word.map .ofSymbol)
  lines_eq : lines (word.map .ofSymbol) = marks.map (·.2)
  text_eq : text word = List.intercalate [CodePoint.ofChar '\n'] (marks.map fun mark =>
    List.replicate (2 * mark.2.depth) (CodePoint.ofChar ' ') ++ dash ++ mark.2.run)
  symbols : marks.flatMap (·.2.run) = word.filter (Symbol.bracket · = none)
  read_back : CodePoint.ofChar '\n' ∉ word → readLines (text word) = marks.map (·.2)
  /-- A line tells how deep below the root the turtles are that meet its symbols. -/
  turtles : ∀ {α σ : Type} [Scalar α] [DrawSource σ α] (pen : Pen α) (root : Turtle α)
    (source rest : σ) (plant : Plant α), pen.draw word root source = (.ok plant, rest) →
    pen.rules.contains '[' = false → pen.rules.contains ']' = false →
    ∀ start line, (start, line) ∈ marks → ∀ k < line.run.length,
      ∃ before after, pen.Passes word root source (start + k) before after ∧
        before.current.depth = root.depth + line.depth

/-- An outline shows the brackets of its word and nothing else of how it is read. -/
theorem exists_showsBrackets (word : Word) : ∃ marks, ShowsBrackets word marks := by
  obtain ⟨marks, hmarks, hlines⟩ := exists_marks_linesFrom word [] (by simp)
    isGreatest_climbs_nil
  rw [List.reverse_nil, List.nil_append] at hmarks
  have hsymbols : marks.flatMap (·.2.run) = word.filter (Symbol.bracket · = none) := by
    have hruns := flatMap_run_linesFrom word 0 []
    rwa [hlines, List.flatMap_map] at hruns
  have htext : text word = List.intercalate [CodePoint.ofChar '\n']
      ((marks.map (·.2)).map Line.text) := by
    rw [← hlines]
    rfl
  refine ⟨marks, hmarks, marks?_text word, hlines, ?_, hsymbols, ?_, ?_⟩
  · rw [htext, List.map_map]
    simp only [Function.comp_def, Line.text_eq]
  · intro hbreak
    rw [htext]
    apply readLines_intercalate
    intro line hline hinside
    obtain ⟨mark, hmark, rfl⟩ := List.mem_map.mp hline
    have hmem : CodePoint.ofChar '\n' ∈ marks.flatMap (·.2.run) :=
      List.mem_flatMap.mpr ⟨mark, hmark, hinside⟩
    rw [hsymbols] at hmem
    exact hbreak (List.mem_of_mem_filter hmem)
  · intro α σ _ _ pen root source rest plant hdraw hopening hclosing start line hmark k hk
    have hbracket : pen.bracket = Symbol.bracket := by
      funext s
      by_cases hs : pen.rules.contains s = true
      · have hopen : s ≠ '[' := by
          rintro rfl
          simp [hopening] at hs
        have hclose : s ≠ ']' := by
          rintro rfl
          simp [hclosing] at hs
        simp [Pen.bracket, hs, Symbol.bracket, hopen, hclose]
      · simp [Pen.bracket, hs]
    obtain ⟨hrun, hdepth⟩ := (hmarks.mem_iff start line).mp hmark
    exact exists_passes_depth_eq hdraw hbracket hrun hdepth hk

example : text (Text.ofString "a]b[c- d[[") = .ofString "- a\n- b\n  - c- d" := by decide

end Meristem.Outline
