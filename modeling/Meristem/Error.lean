import Meristem.Arity

/-!
Why a plant could not be grown or drawn.
-/

namespace Meristem

/-- Why a colour is none. -/
inductive ColorFault where
  | arity (error : ArityError)
  /-- Its components are no numbers. -/
  | notNumbers
deriving DecidableEq, Repr

def ColorFault.message : ColorFault → String
  | arity error => error.message
  | notNumbers => "color components must be numbers"

inductive GrowthError where
  /-- The symbol is given as messages show it. -/
  | noRules (symbol : String)
  | negativeSeed
  /-- The shares of the weights do not add up to one. -/
  | uncoveredInterval
  /-- The number is given as messages show it. -/
  | negativeGenerations (count : String)
  /-- `reached` is the length at which the generation was given up. -/
  | tooLong (generation limit reached : Nat)
  | unmatchedClose (index : Nat)
  | unmatchedOpen (count : Nat)
  | noDirection
  | badColor (fault : ColorFault)
deriving DecidableEq, Repr

def GrowthError.message : GrowthError → String
  | noRules symbol => "No rules for symbol " ++ symbol
  | negativeSeed => "expected non-negative integer"
  | uncoveredInterval =>
    "Probabilities do not sum to 1. See Notes section of docstring for more information."
  | negativeGenerations count => "Generation count must be non-negative, got " ++ count
  | tooLong generation limit _ =>
    "Generation " ++ toString generation ++ " exceeds " ++ toString limit ++ " symbols"
  | unmatchedClose index => "Unmatched ']' at index " ++ toString index
  | unmatchedOpen count => toString count ++ " unmatched '[' at end of input"
  | noDirection => "Cannot normalize vector"
  | badColor fault => fault.message

end Meristem
