import Meristem.Text.CodePoint

/-!
Values as they come from outside, before anything is known about them: configuration files and
arguments. A table keeps the order of its entries, because that order decides which payload a
draw picks. Its keys are texts where it was read from JSON, and may be anything elsewhere.
-/

namespace Meristem

inductive Document where
  | null
  | bool (value : Bool)
  | int (value : Int)
  | real (value : Float)
  | text (value : Text)
  | list (items : List Document)
  | table (entries : List (Document × Document))
deriving Inhabited

namespace Document

/-- Keys and values in the order of the table. -/
abbrev Entries := List (Document × Document)

def isText (name : String) : Document → Bool
  | .text s => s = Text.ofString name
  | _ => false

def field? (entries : Entries) (name : String) : Option Document :=
  (entries.find? fun entry => entry.1.isText name).map (·.2)

def fields? : Document → Option Entries
  | .table entries =>
    if entries.all fun entry => entry.1 matches .text _ then some entries else none
  | _ => none

/-- What a document gives when it is gone through: the items of a list, the code points of a text,
the keys of a table. -/
def items? : Document → Option (List Document)
  | .list items => some items
  | .text s => some (s.map fun p => .text [p])
  | .table entries => some (entries.map (·.1))
  | _ => none

end Document
end Meristem
