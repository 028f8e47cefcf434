import Meristem.Choice
import Meristem.Error
import Meristem.Random.Source
import Meristem.Text.Quoted
import Meristem.Word

/-!
Rules: which payloads a symbol may draw. The same tables serve the grammar, whose payloads are
words, and the drawing, whose payloads are actions. Every draw takes one number from the source,
also when there is a single choice; a refused draw takes none.
-/

namespace Meristem

/-- What drawing a symbol does; `nothing` consumes the symbol without drawing. -/
inductive Action where
  | branch
  | leaf
  | nothing
deriving DecidableEq, Repr

structure RuleTable (π α : Type) where
  entries : List (Symbol × Choices π α)

abbrev ExpansionRules (α : Type) := RuleTable Word α

abbrev DrawingRules (α : Type) := RuleTable Action α

namespace RuleTable

variable {π α : Type}

/-- The symbols that have rules, in the order of the table. -/
def symbols (t : RuleTable π α) : List Symbol := t.entries.map (·.1)

def choices? (t : RuleTable π α) (symbol : Symbol) : Option (Choices π α) :=
  (t.entries.find? fun entry => entry.1 = symbol).map (·.2)

def contains (t : RuleTable π α) (symbol : Symbol) : Bool := (t.choices? symbol).isSome

/-- The choices of a symbol that must have some. -/
def choicesOf (t : RuleTable π α) (symbol : Symbol) : Except GrowthError (Choices π α) :=
  match t.choices? symbol with
  | some choices => .ok choices
  | none => .error (.noRules (Text.quoted [symbol]))

end RuleTable

variable {π α σ : Type} [Arith α] [DrawSource σ α]

def Choices.draw (c : Choices π α) (source : σ) : Except GrowthError π × σ :=
  if c.covers then
    let (u, source) := DrawSource.next source
    (.ok (c.pick u), source)
  else
    (.error .uncoveredInterval, source)

def RuleTable.draw (t : RuleTable π α) (symbol : Symbol) (source : σ) : Except GrowthError π × σ :=
  match t.choicesOf symbol with
  | .ok choices => choices.draw source
  | .error e => (.error e, source)

/-- The rule that grows a plant when none is given. -/
def ExpansionRules.default : ExpansionRules α :=
  ⟨[('F', .only (Text.ofString "FF+[+F-F-F]-[-F+F+F]") 1.0)]⟩

def DrawingRules.default : DrawingRules α := ⟨[('F', .only .branch 1.0)]⟩

end Meristem
