import Meristem.Config

/-!
Grammars given by documents, and words grown from starts and numbers of generations given by
documents. A number of generations is looked at before the start.

A start is usually a word. It may also be a list or a table, whose items or keys take the places of
the symbols of a word in the first generation; what comes of it is a word.
-/

namespace Meristem

/-- Why no word grows. -/
inductive ExpansionError where
  | growth (error : GrowthError)
  /-- The number of generations is none, or the start is not made of texts. -/
  | unreadable
deriving DecidableEq, Repr

namespace Grammar

/-- A grammar from its start word and its bound; the rules have been read before. -/
def ofFields (rules : ExpansionRules Float) (fields : Document.Entries) :
    Checked (Grammar Float) :=
  ((Checked.supply (.ok fun start (bound : Int) => ⟨start, rules, bound.toNat⟩)
    (Config.readField fields "axiom" Word.default Document.asText)).supply
    (Config.readField fields "max_symbols" (defaultMaxSymbols : Int) (·.asIntAbove 0)))

/-- A number of generations. Of reals only negative ones are told apart, as negative numbers. -/
def generationsOf : Document → Except ExpansionError Int
  | .int n =>
    if n < 0 then .error (.growth (.negativeGenerations (toString n))) else .ok n
  | .bool b => .ok (if b then 1 else 0)
  | .real x =>
    if x < 0.0 then
      .error (.growth (.negativeGenerations (String.ofList (Decimal.ofFloat x))))
    else .error .unreadable
  | _ => .error .unreadable

variable {σ : Type} [DrawSource σ Float]

/-- What takes the place of one part of a start. A text of more or less than one symbol stands for
itself. -/
def replacePart (rules : ExpansionRules Float) (part : Document) (source : σ) :
    Except ExpansionError Word × σ :=
  match part with
  | .text [symbol] =>
    let (word, source) := replace rules symbol source
    (word.mapError .growth, source)
  | .text text => (.ok text, source)
  | _ => (.error .unreadable, source)

/-- The first generation after a start in parts. `written` is the part of it that stands already,
last symbol first, and `length` its length. -/
def deriveParts (g : Grammar Float) :
    List Document → Word → Nat → σ → Except ExpansionError Word × σ
  | [], written, _, source => (.ok written.reverse, source)
  | part :: rest, written, length, source =>
    match replacePart g.rules part source with
    | (.error e, source) => (.error e, source)
    | (.ok word, source) =>
      let length := length + word.length
      if g.maxSymbols < length then
        (.error (.growth (.tooLong 1 g.maxSymbols length)), source)
      else
        g.deriveParts rest (word.reverse ++ written) length source

/-- What grows from a document. With no generations it is left as it is. -/
inductive Expansion where
  | word (word : Word)
  | unchanged (start : Document)

def expandParts (g : Grammar Float) (start : Document) (generations : Int) (source : σ) :
    Except ExpansionError Expansion × σ :=
  match start.items?, generations.toNat with
  | none, _ => (.error .unreadable, source)
  | some _, 0 => (.ok (.unchanged start), source)
  | some parts, more + 1 =>
    match g.deriveParts parts [] 0 source with
    | (.error e, source) => (.error e, source)
    | (.ok first, source) =>
      let (word, source) := g.grow more 1 first source
      ((word.map .word).mapError .growth, source)

/-- What grows from `start` in so many generations. -/
def expandOf (g : Grammar Float) (start generations : Document) (source : σ) :
    Except ExpansionError Expansion × σ :=
  match generationsOf generations, start with
  | .error e, _ => (.error e, source)
  | .ok n, .text start =>
    let (word, source) := g.expandFrom start n source
    ((word.map .word).mapError .growth, source)
  | .ok n, start => g.expandParts start n source

end Grammar
end Meristem
