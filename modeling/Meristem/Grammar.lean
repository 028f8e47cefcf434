import Meristem.Rules.Basic

/-!
Growing a word by replacing all its symbols at once, generation after generation. Symbols without
a rule stand for themselves. A generation is given up as soon as what is written of it is longer
than the bound; a start word is taken whatever its length.
-/

namespace Meristem

structure Grammar (α : Type) where
  start : Word
  rules : ExpansionRules α
  maxSymbols : Nat

namespace Grammar

/-- The bound on the length of a generation when none is given. -/
def defaultMaxSymbols : Nat := 1000000

variable {α σ : Type} [Arith α] [DrawSource σ α]

def replace (rules : ExpansionRules α) (symbol : Symbol) (source : σ) :
    Except GrowthError Word × σ :=
  match rules.choices? symbol with
  | some choices => choices.draw source
  | none => (.ok [symbol], source)

/-- Replaces the symbols of one generation. `written` is the part of the next one that stands
already, last symbol first, and `length` its length. -/
def deriveFrom (g : Grammar α) (generation : Nat) :
    Word → Word → Nat → σ → Except GrowthError Word × σ
  | [], written, _, source => (.ok written.reverse, source)
  | symbol :: rest, written, length, source =>
    match replace g.rules symbol source with
    | (.error e, source) => (.error e, source)
    | (.ok word, source) =>
      let length := length + word.length
      if g.maxSymbols < length then
        (.error (.tooLong generation g.maxSymbols length), source)
      else
        deriveFrom g generation rest (word.reverse ++ written) length source

/-- The next generation after `word`; `generation` is its number. -/
def derive (g : Grammar α) (generation : Nat) (word : Word) (source : σ) :
    Except GrowthError Word × σ :=
  g.deriveFrom generation word [] 0 source

/-- So many more generations after the one numbered `generation`. -/
def grow (g : Grammar α) : Nat → Nat → Word → σ → Except GrowthError Word × σ
  | 0, _, word, source => (.ok word, source)
  | more + 1, generation, word, source =>
    match g.derive (generation + 1) word source with
    | (.error e, source) => (.error e, source)
    | (.ok next, source) => g.grow more (generation + 1) next source

/-- The word that grows from `start` in so many generations. -/
def expandFrom (g : Grammar α) (start : Word) (generations : Int) (source : σ) :
    Except GrowthError Word × σ :=
  if generations < 0 then (.error (.negativeGenerations (toString generations)), source)
  else g.grow generations.toNat 0 start source

def expand (g : Grammar α) (generations : Int) (source : σ) : Except GrowthError Word × σ :=
  g.expandFrom g.start generations source

end Grammar
end Meristem
