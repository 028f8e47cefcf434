import Meristem.Document.Key
import Meristem.Document.Number
import Meristem.Rules.Basic

/-!
Rule tables given by documents: a table from symbols to choices, and the choices of a symbol
either a table from payloads to weights or a list of payload and weight pairs. Both spellings may
be mixed, and a payload may be repeated in a list. The symbols are looked at only when every
payload and weight could be read.
-/

namespace Meristem

/-- Payloads that a document can name. -/
class Payload (π : Type) where
  read : Document → Checked π

instance : Payload Word := ⟨Document.asText⟩

def Action.name : Action → String
  | branch => "branch"
  | leaf => "leaf"
  | nothing => "none"

def Action.ofName? (name : Text) : Option Action :=
  [branch, leaf, nothing].find? fun action => Text.ofString action.name = name

instance : Payload Action where
  read
    | .text s =>
      match Action.ofName? s with
      | some action => .ok action
      | none => Checked.fail (if s.chars?.isSome then .unknownAction else .notUnicode)
    | _ => Checked.fail .unknownAction

namespace RuleTable

variable {π : Type}

/-- Choices as pairs, whichever way they are spelled. -/
def pairsOf : Document → Checked (List Document)
  | .table entries => .ok (entries.map fun (payload, weight) => .list [payload, weight])
  | .list items => .ok items
  | _ => Checked.fail .notAList

def readPair [Payload π] : Document → Checked (π × Float)
  | .list items =>
    let part {β : Type} (i : Nat) (read : Document → Checked β) : Checked β :=
      (match items[i]? with
        | some item => read item
        | none => Checked.fail .missing).under (.index i)
    if 2 < items.length then Checked.fail .tooLong
    else (Checked.supply (.ok Prod.mk) (part 0 Payload.read)).supply (part 1 Document.asWeight)
  | _ => Checked.fail .notATuple

def readChoices [Payload π] (d : Document) : Checked (List (π × Float)) := do
  Checked.all ((← pairsOf d).mapIdx fun i pair => (readPair pair).under (.index i))

def readEntries [Payload π] (entries : Document.Entries) :
    Checked (List (Text × List (π × Float))) :=
  .all (entries.map (Document.readEntry readChoices))

/-- Why a symbol cannot be ruled. -/
inductive SymbolFault where
  | notOneCharacter (symbol : Text)
  | noChoices (symbol : Text)
deriving DecidableEq, Repr

def SymbolFault.message : SymbolFault → String
  | notOneCharacter symbol =>
    "Rule symbol must be a single character, got " ++ Text.quoted symbol
  | noChoices symbol => "Symbol " ++ Text.quoted symbol ++ " has no rules"

/-- One entry of the table, if its symbol is one character and has a choice. -/
def entryOf (symbol : Text) (choices : List (π × Float)) :
    Except SymbolFault (Symbol × Choices π Float) :=
  match symbol with
  | [c] =>
    match Choices.ofList? choices with
    | some choices => .ok (c, choices)
    | none => .error (.noChoices symbol)
  | _ => .error (.notOneCharacter symbol)

/-- The table, or the first symbol that cannot be ruled. -/
def ofEntries (entries : List (Text × List (π × Float))) :
    Except SymbolFault (RuleTable π Float) :=
  (entries.mapM fun entry => entryOf entry.1 entry.2).map RuleTable.mk

def ofDocument [Payload π] (d : Document) : Checked (RuleTable π Float) :=
  Checked.under (.key "rules") <|
    match d with
    | .table entries => do
      match ofEntries (← readEntries entries) with
      | .ok table => .ok table
      | .error fault => Checked.fail (.refused (some fault.message))
    | _ => Checked.fail .notATable

/-- What a table is asked for. Only single characters have rules. -/
inductive Key where
  | symbol (c : Symbol)
  /-- Anything else, as messages show it. -/
  | other (shown : String)
deriving DecidableEq, Repr

/-- A document as a key; lists and tables are none. -/
def Key.ofDocument? : Document → Option Key
  | .text [c] => some (.symbol c)
  | d => if d.isKey then some (.other d.shown) else none

def containsKey (t : RuleTable π Float) : Key → Bool
  | .symbol c => t.contains c
  | .other _ => false

def choicesFor (t : RuleTable π Float) : Key → Except GrowthError (Choices π Float)
  | .symbol c => t.choicesOf c
  | .other shown => .error (.noRules shown)

def drawFor {σ : Type} [DrawSource σ Float] (t : RuleTable π Float) (key : Key) (source : σ) :
    Except GrowthError π × σ :=
  match key with
  | .symbol c => t.draw c source
  | .other shown => (.error (.noRules shown), source)

end RuleTable
end Meristem
