/-!
What is wrong with a document and where. Checking goes on after a problem, so that a document is
answered with all its problems in the order of its fields and elements.
-/

namespace Meristem

inductive PathStep where
  | key (name : String)
  /-- A position in a list, or a key that is an integer. -/
  | index (position : Int)
deriving DecidableEq, Repr

inductive ProblemKind where
  | notAModel
  | notATable
  | notAList
  | notATuple
  | missing
  | tooLong
  | notAText
  | notUnicode
  | textTooShort
  | unknownAction
  | notAnInt
  | unreadableInt
  | intTooLarge
  | hasFraction
  | notAReal
  | unreadableReal
  | notFinite
  | notAbove
  | notAtLeast
  /-- A value of the right form that a rule of the program refuses; a missing reason is one
  whose wording is left open. -/
  | refused (reason : Option String)
deriving DecidableEq, Repr

def ProblemKind.code : ProblemKind → String
  | notAModel => "model_type"
  | notATable => "dict_type"
  | notAList => "list_type"
  | notATuple => "tuple_type"
  | missing => "missing"
  | tooLong => "too_long"
  | notAText => "string_type"
  | notUnicode => "string_unicode"
  | textTooShort => "string_too_short"
  | unknownAction => "enum"
  | notAnInt => "int_type"
  | unreadableInt => "int_parsing"
  | intTooLarge => "int_parsing_size"
  | hasFraction => "int_from_float"
  | notAReal => "float_type"
  | unreadableReal => "float_parsing"
  | notFinite => "finite_number"
  | notAbove => "greater_than"
  | notAtLeast => "greater_than_equal"
  | refused _ => "value_error"

structure Problem where
  path : List PathStep
  kind : ProblemKind
deriving DecidableEq, Repr

/-- The wording of a problem, where it has one of its own. -/
def Problem.message? (p : Problem) : Option String :=
  match p.kind with
  | .refused (some reason) => some ("Value error, " ++ reason)
  | _ => none

/-- A value, or the problems that kept it from being read. -/
abbrev Checked (β : Type) := Except (List Problem) β

namespace Checked

variable {β γ : Type}

def fail (kind : ProblemKind) : Checked β := .error [⟨[], kind⟩]

/-- Places the problems of a part at the part. -/
def under (step : PathStep) : Checked β → Checked β
  | .ok value => .ok value
  | .error problems => .error (problems.map fun p => { p with path := step :: p.path })

/-- Supplies one more argument; the problems of both sides add up. -/
def supply (f : Checked (β → γ)) (x : Checked β) : Checked γ :=
  match f, x with
  | .ok f, .ok x => .ok (f x)
  | .ok _, .error problems => .error problems
  | .error problems, .ok _ => .error problems
  | .error first, .error second => .error (first ++ second)

/-- All the values, or the problems of all elements in order. -/
def all : List (Checked β) → Checked (List β)
  | [] => .ok []
  | x :: rest => supply (supply (.ok List.cons) x) (all rest)

/-- A further condition on a value that could be read. -/
def require (condition : β → Bool) (kind : β → ProblemKind) : Checked β → Checked β
  | .ok value => if condition value then .ok value else fail (kind value)
  | .error problems => .error problems

end Checked
end Meristem
