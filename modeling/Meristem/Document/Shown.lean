import Meristem.Decimal.Shortest
import Meristem.Document.Basic
import Meristem.Text.Quoted

/-!
How messages and paths show a document: texts between quotes, everything else by its value, the
parts of lists and tables one after the other.
-/

namespace Meristem.Document

mutual

def shown : Document → String
  | .null => "None"
  | .bool b => if b then "True" else "False"
  | .int n => toString n
  | .real x => String.ofList (Decimal.ofFloat x)
  | .text s => s.quoted
  | .list items => "[" ++ String.intercalate ", " (shownItems items) ++ "]"
  | .table entries => "\x7b" ++ String.intercalate ", " (shownEntries entries) ++ "\x7d"

def shownItems : List Document → List String
  | [] => []
  | item :: rest => shown item :: shownItems rest

def shownEntries : List (Document × Document) → List String
  | [] => []
  | (key, value) :: rest => (shown key ++ ": " ++ shown value) :: shownEntries rest

end

/-- A document as a text. A text stands for itself. -/
def toText : Document → Text
  | .text s => s
  | other => Text.ofString other.shown

end Meristem.Document
