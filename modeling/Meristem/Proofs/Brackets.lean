import Meristem.Word
import Mathlib.Data.List.Infix

/-!
Brackets in words. A word is balanced when no part of it from its start closes more groups than
it opens, and the whole closes them all. Such a word is the text of exactly one bracket tree.

What counts as a bracket is a parameter: a drawing rule takes a bracket its meaning, so the
brackets of a word depend on what the word is read with.
-/

namespace Meristem

inductive Bracket where
  | opening
  | closing
deriving DecidableEq, Repr

/-- The brackets of a word that is read without drawing rules for them. -/
def Symbol.bracket (s : Symbol) : Option Bracket :=
  if s = '[' then some .opening
  else if s = ']' then some .closing
  else none

theorem Symbol.eq_of_opening {s : Symbol} (h : Symbol.bracket s = some .opening) :
    s = '[' := by
  unfold Symbol.bracket at h
  split at h
  · assumption
  · split at h <;> simp at h

theorem Symbol.eq_of_closing {s : Symbol} (h : Symbol.bracket s = some .closing) :
    s = ']' := by
  unfold Symbol.bracket at h
  split at h
  · simp at h
  · split at h
    · assumption
    · simp at h

/-- A word that two words start with in turn ends in the first or reaches into the second. -/
theorem prefix_append_cases {β : Type} {first left right : List β}
    (h : first <+: left ++ right) :
    first <+: left ∨ ∃ more, first = left ++ more ∧ more <+: right := by
  rcases List.prefix_or_prefix_of_prefix h (List.prefix_append left right) with hleft | hlong
  · exact Or.inl hleft
  · obtain ⟨more, rfl⟩ := hlong
    exact Or.inr ⟨more, rfl, (List.prefix_append_right_inj left).mp h⟩

section Height

variable {β : Type} (bracket : β → Option Bracket)

/-- How many groups one part of a word opens; a closed group counts negative. -/
def rise (x : β) : Int :=
  match bracket x with
  | some .opening => 1
  | some .closing => -1
  | none => 0

def height : List β → Int
  | [] => 0
  | x :: word => rise bracket x + height word

@[simp] theorem height_nil : height bracket [] = 0 := rfl

@[simp] theorem height_cons (x : β) (word : List β) :
    height bracket (x :: word) = rise bracket x + height bracket word := rfl

@[simp] theorem height_append (first second : List β) :
    height bracket (first ++ second) = height bracket first + height bracket second := by
  induction first with
  | nil => simp
  | cons x first ih =>
      simp only [List.cons_append, height_cons, ih]
      omega

structure Balanced (word : List β) : Prop where
  /-- No group is closed that is not open. -/
  never_below : ∀ first, first <+: word → 0 ≤ height bracket first
  /-- No group stays open. -/
  closed : height bracket word = 0

instance (word : List β) : Decidable (Balanced bracket word) :=
  decidable_of_iff
    ((∀ first ∈ word.inits, 0 ≤ height bracket first) ∧ height bracket word = 0)
    ⟨fun h => ⟨fun first hfirst => h.1 first (List.mem_inits _ _ |>.mpr hfirst), h.2⟩,
      fun h => ⟨fun first hfirst => h.never_below first (List.mem_inits _ _ |>.mp hfirst),
        h.closed⟩⟩

/-- How many groups of a word are open at once, at most. -/
def nesting : List β → Nat
  | [] => 0
  | x :: word => (rise bracket x + nesting word).toNat

theorem height_le_nesting {first word : List β} (h : first <+: word) :
    height bracket first ≤ nesting bracket word := by
  induction word generalizing first with
  | nil =>
      rw [List.prefix_nil.mp h]
      simp [nesting]
  | cons x word ih =>
      rcases List.prefix_cons_iff.mp h with rfl | ⟨tail, rfl, htail⟩
      · simp
      · have hrest := ih htail
        simp only [height_cons, nesting]
        omega

theorem exists_height_eq_nesting (word : List β) :
    ∃ first, first <+: word ∧ height bracket first = nesting bracket word := by
  induction word with
  | nil => exact ⟨[], List.nil_prefix, rfl⟩
  | cons x word ih =>
      obtain ⟨first, hfirst, hheight⟩ := ih
      by_cases hbelow : rise bracket x + nesting bracket word < 0
      · refine ⟨[], List.nil_prefix, ?_⟩
        simp only [height_nil, nesting]
        omega
      · refine ⟨x :: first, (List.prefix_cons_inj x).mpr hfirst, ?_⟩
        simp only [height_cons, nesting]
        omega

/-- The number of open groups stays between two levels all along a word. -/
def LevelsWithin (low high : Int) (word : List β) : Prop :=
  ∀ first, first <+: word → low ≤ height bracket first ∧ height bracket first ≤ high

/-- The nesting of a balanced word is the level it stays below. -/
theorem balanced_and_nesting_le_iff (word : List β) (n : Nat) :
    Balanced bracket word ∧ nesting bracket word ≤ n ↔
      LevelsWithin bracket 0 n word ∧ height bracket word = 0 := by
  constructor
  · rintro ⟨hbalanced, hnesting⟩
    refine ⟨fun first hfirst => ⟨hbalanced.never_below first hfirst, ?_⟩, hbalanced.closed⟩
    have hlevel := height_le_nesting bracket hfirst
    omega
  · rintro ⟨hlevels, hclosed⟩
    refine ⟨⟨fun first hfirst => (hlevels first hfirst).1, hclosed⟩, ?_⟩
    obtain ⟨first, hfirst, hheight⟩ := exists_height_eq_nesting bracket word
    have hlevel := (hlevels first hfirst).2
    omega

variable {bracket}

theorem LevelsWithin.mono {low high lower higher : Int} {word : List β}
    (h : LevelsWithin bracket low high word) (hlow : lower ≤ low) (hhigh : high ≤ higher) :
    LevelsWithin bracket lower higher word := by
  intro first hfirst
  have hlevel := h first hfirst
  exact ⟨by omega, by omega⟩

theorem LevelsWithin.zero {low high : Int} {word : List β}
    (h : LevelsWithin bracket low high word) : low ≤ 0 ∧ 0 ≤ high :=
  h [] List.nil_prefix

theorem LevelsWithin.head {low high : Int} {x : β} {word : List β}
    (h : LevelsWithin bracket low high (x :: word)) : LevelsWithin bracket low high [x] := by
  intro first hfirst
  exact h first (hfirst.trans ⟨word, rfl⟩)

theorem LevelsWithin.tail {low high : Int} {x : β} {word : List β}
    (h : LevelsWithin bracket low high (x :: word)) :
    LevelsWithin bracket (low - rise bracket x) (high - rise bracket x) word := by
  intro first hfirst
  have hlevel := h (x :: first) ((List.prefix_cons_inj x).mpr hfirst)
  rw [height_cons] at hlevel
  exact ⟨by omega, by omega⟩

theorem LevelsWithin.append {low high : Int} {first second : List β}
    (hfirst : LevelsWithin bracket low high first)
    (hsecond : LevelsWithin bracket (low - height bracket first) (high - height bracket first)
      second) :
    LevelsWithin bracket low high (first ++ second) := by
  intro start hstart
  rcases prefix_append_cases hstart with hleft | ⟨more, rfl, hmore⟩
  · exact hfirst start hleft
  · have hlevel := hsecond more hmore
    rw [height_append]
    exact ⟨by omega, by omega⟩

end Height

/-- The bracket structure of a word: what stands at one level, read to the end of the level. -/
inductive Bough where
  | tip
  | symbol (s : Symbol) (plain : Symbol.bracket s = none) (rest : Bough)
  | group (inner rest : Bough)

namespace Bough

def word : Bough → Word
  | tip => []
  | symbol s _ rest => s :: rest.word
  | group inner rest => CodePoint.ofChar '[' :: (inner.word ++ CodePoint.ofChar ']' :: rest.word)

/-- The levels that a word with unmatched closing brackets falls into, written out again. -/
def joined (first : Bough) (others : List Bough) : Word :=
  first.word ++ others.flatMap fun next => CodePoint.ofChar ']' :: next.word

/-- A word that closes at most `levels` groups it has not opened, and does close that many,
falls into trees with the unmatched brackets between them. The induction is over the word, for
any number of levels that are open before it. -/
theorem exists_joined_eq (w : Word) (levels : Nat)
    (hbelow : ∀ first, first <+: w → -(levels : Int) ≤ height Symbol.bracket first)
    (hend : height Symbol.bracket w = -(levels : Int)) :
    ∃ first others, others.length = levels ∧ w = joined first others := by
  induction w generalizing levels with
  | nil =>
      have hlevels : levels = 0 := by
        simp only [height_nil] at hend
        omega
      exact ⟨tip, [], by simp [hlevels], rfl⟩
  | cons s w ih =>
      have htail (first : Word) (hfirst : first <+: w) :
          -(levels : Int) - rise Symbol.bracket s ≤ height Symbol.bracket first := by
        have hlong := hbelow (s :: first) ((List.prefix_cons_inj s).mpr hfirst)
        simp only [height_cons] at hlong
        omega
      simp only [height_cons] at hend
      cases hs : Symbol.bracket s with
      | none =>
          have hstep : rise Symbol.bracket s = 0 := by simp [rise, hs]
          obtain ⟨first, others, hlength, rfl⟩ := ih levels
            (fun u hu => by have := htail u hu; omega) (by omega)
          exact ⟨symbol s hs first, others, hlength, rfl⟩
      | some b =>
          cases b with
          | opening =>
              have hstep : rise Symbol.bracket s = 1 := by simp [rise, hs]
              obtain ⟨first, others, hlength, rfl⟩ := ih (levels + 1)
                (fun u hu => by have := htail u hu; push_cast; omega) (by push_cast; omega)
              obtain ⟨second, rest, rfl⟩ := List.exists_cons_of_length_eq_add_one hlength
              refine ⟨group first second, rest, by simpa using hlength, ?_⟩
              simp [joined, word, Symbol.eq_of_opening hs]
          | closing =>
              have hstep : rise Symbol.bracket s = -1 := by simp [rise, hs]
              have hopen : 1 ≤ levels := by
                have hone := htail [] List.nil_prefix
                simp only [height_nil, hstep] at hone
                omega
              obtain ⟨first, others, hlength, rfl⟩ := ih (levels - 1)
                (fun u hu => by have := htail u hu; omega) (by omega)
              refine ⟨tip, first :: others, by simp only [List.length_cons]; omega, ?_⟩
              simp [joined, word, Symbol.eq_of_closing hs]

theorem exists_word_eq (w : Word) (h : Balanced Symbol.bracket w) :
    ∃ tree : Bough, tree.word = w := by
  obtain ⟨tree, others, hlength, hword⟩ := exists_joined_eq w 0
    (by simpa using h.never_below) (by simpa using h.closed)
  have hothers : others = [] := List.eq_nil_of_length_eq_zero hlength
  exact ⟨tree, by simp [hword, hothers, joined]⟩

end Bough
end Meristem
