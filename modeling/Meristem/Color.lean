import Meristem.Decimal.Shortest
import Meristem.Document.Number
import Meristem.Error
import Meristem.NumberArray.Basic
import Meristem.Text.DecimalDigit
import Meristem.Text.Quoted
import Meristem.Vector

/-!
Colours as red, green, blue and opacity in the unit interval. A colour may be written as six
hexadecimal digits behind an optional number sign; a decimal digit of any script counts as a
digit, and one line break may follow at the very end.
-/

namespace Meristem.Color

def channel (high low : Nat) : Float := floatOfInt (16 * high + low) / 255.0

def opaqueColor (red green blue : Float) : Vec4 Float := ⟨red, green, blue, 1.0⟩

def channel? (high low : CodePoint) : Option Float := do
  return channel (← Text.hexDigit? high.toNat) (← Text.hexDigit? low.toNat)

def ofDigits? (r1 r2 g1 g2 b1 b2 : CodePoint) : Option (Vec4 Float) := do
  return opaqueColor (← channel? r1 r2) (← channel? g1 g2) (← channel? b1 b2)

def withoutSign : Text → Text
  | first :: rest => if first = '#' then rest else first :: rest
  | [] => []

def ofHex? (text : Text) : Option (Vec4 Float) :=
  match withoutSign text with
  | [r1, r2, g1, g2, b1, b2] => ofDigits? r1 r2 g1 g2 b1 b2
  | [r1, r2, g1, g2, b1, b2, last] =>
    if last = '\n' then ofDigits? r1 r2 g1 g2 b1 b2 else none
  | _ => none

def hexFault (text : Text) : String := "Invalid hex color: " ++ text.quoted

def inUnitRange (c : Vec4 Float) : Bool :=
  c.toList.all fun x => decide ((0.0 : Float) ≤ x) && decide (x ≤ (1.0 : Float))

def rangeFault (c : Vec4 Float) : String :=
  "Color channels must lie in [0, 1], got (" ++
    String.intercalate ", " (c.toList.map fun x => String.ofList (Decimal.ofFloat x)) ++ ")"

/-- A colour as it is written: a text in hexadecimal, or four numbers. -/
def read : Document → Checked (Vec4 Float)
  | .text s =>
    match ofHex? s with
    | some color => .ok color
    | none => Checked.fail (.refused (some (hexFault s)))
  | d =>
    match d.asTuple 4 Document.asReal with
    | .ok [x, y, z, w] => .ok ⟨x, y, z, w⟩
    | .ok _ => Checked.fail .notATuple
    | .error problems => .error problems

/-- A colour of a document, whose channels lie in the unit interval however it is written. -/
def ofDocument (d : Document) : Checked (Vec4 Float) :=
  Checked.require inUnitRange (fun c => .refused (some (rangeFault c))) (read d)

def ofArray (a : NumberArray) : Except ColorFault (Vec4 Float) :=
  match a.four with
  | .error (.arity e) => .error (.arity e)
  | .error _ => .error .notNumbers
  | .ok ⟨x, y, z, w⟩ =>
    match x.toNumber, y.toNumber, z.toNumber, w.toNumber with
    | .ok x, .ok y, .ok z, .ok w => .ok ⟨x, y, z, w⟩
    | _, _, _, _ => .error .notNumbers

end Meristem.Color
