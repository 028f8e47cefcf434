import Meristem.Document.Basic
import Meristem.Outline

/-!
Outlines of documents. What is gone through is usually a text, but may be a list or a table of
texts. A text of any length that is no bracket is a part of a run; the empty text and the pair of
brackets close a group.
-/

namespace Meristem.Outline

def Mark.ofText (text : Text) : Mark :=
  if text = .ofString "[" then opening
  else if text ∈ ["", "]", "[]"].map Text.ofString then closing
  else plain text

def marks? (d : Document) : Option (List Mark) := do
  (← d.items?).mapM fun
    | .text s => some (.ofText s)
    | _ => none

end Meristem.Outline
