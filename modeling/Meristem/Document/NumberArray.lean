import Meristem.Decimal.Reading
import Meristem.Document.Basic
import Meristem.NumberArray.Basic
import Meristem.Text.Blank
import Meristem.Text.DecimalDigit

/-!
Arrays given as a number or as lists of numbers of even shape. Here an absent value is not a
number, a text is read as one with the digits of any script and underscores between digits, and no
bounds are checked. The shape is settled before any element is read.
-/

namespace Meristem

/-- A shape that all parts agree on, and whether they agree all the way down. -/
structure Extent where
  shape : List Nat
  uniform : Bool

namespace Extent

def commonStart : List Nat → List Nat → List Nat
  | a :: as, b :: bs => if a = b then a :: commonStart as bs else []
  | _, _ => []

def meet (a b : Extent) : Extent where
  shape := commonStart a.shape b.shape
  uniform := a.uniform && b.uniform && a.shape == b.shape

def ofParts : List Extent → Extent
  | [] => ⟨[0], true⟩
  | first :: rest =>
    let inner := rest.foldl meet first
    ⟨(rest.length + 1) :: inner.shape, inner.uniform⟩

mutual

/-- The extent of a document, looked at to so many levels; a list below them is uneven. -/
def ofDocument : Nat → Document → Extent
  | 0, .list _ => ⟨[], false⟩
  | levels + 1, .list items => ofParts (ofDocuments levels items)
  | _, _ => ⟨[], true⟩

def ofDocuments : Nat → List Document → List Extent
  | _, [] => []
  | levels, item :: rest => ofDocument levels item :: ofDocuments levels rest

end

/-- The shape of an even extent. -/
def evenShape (e : Extent) : Except ArrayError (List Nat) :=
  if e.uniform then .ok e.shape
  else if e.shape.length = NumberArray.maxAxes then .error .tooDeep
  else .error (.ragged e.shape)

end Extent

namespace Document

mutual

/-- What stands in a document below its lists. -/
def leaves : Document → List Document
  | .list items => leavesOf items
  | other => [other]

def leavesOf : List Document → List Document
  | [] => []
  | item :: rest => leaves item ++ leavesOf rest

end

/-- The shape of a document that is a number or even lists. -/
def shape (d : Document) : Except ArrayError (List Nat) :=
  (Extent.ofDocument NumberArray.maxAxes d).evenShape

def arrayNumerals : Decimal.Numerals := ⟨fun c => Text.decimalDigit? c.toNat, true⟩

def toNumber : Document → Except ArrayError Float
  | .null => .ok (0.0 / 0.0)
  | .bool b => .ok (if b then 1.0 else 0.0)
  | .int n => .ok (floatOfInt n)
  | .real x => .ok x
  | .text s =>
    match s.chars? >>= fun chars => Decimal.readReal? arrayNumerals (Text.trimmed chars) with
    | some x => .ok x
    | none => .error (.unreadable s)
  | .list _ => .error .nested
  | .table _ => .error .notNumeric

end Document

namespace NumberArray

def ofDocument (d : Document) : Except ArrayError NumberArray := do
  return ⟨← d.shape, ← d.leaves.mapM Document.toNumber⟩

def stackedShape (shapes : List (List Nat)) : Except ArrayError (List Nat) :=
  (Extent.ofParts (shapes.map (⟨·, true⟩))).evenShape

end NumberArray

end Meristem
