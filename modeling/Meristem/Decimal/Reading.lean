import Meristem.Binary64

/-!
Real numbers written in decimal. Which characters count as digits, and whether underscores may
group them, is a parameter.
-/

namespace Meristem.Decimal

/-- How digits are written. With `grouped`, a single underscore may stand between two digits. -/
structure Numerals where
  digit? : Char → Option Nat
  grouped : Bool

def asciiDigit? (c : Char) : Option Nat := if c.isDigit then some (c.toNat - 48) else none

/-- The digits zero to nine and nothing between them. -/
def Numerals.plain : Numerals := ⟨asciiDigit?, false⟩

/-- The digits at the front of a text, and what follows them. -/
def Numerals.take (n : Numerals) : List Char → List Nat × List Char
  | [] => ([], [])
  | c :: rest =>
    match n.digit? c with
    | none => ([], c :: rest)
    | some d =>
      match rest with
      | '_' :: next :: more =>
        if n.grouped && (n.digit? next).isSome then
          let (digits, after) := n.take (next :: more)
          (d :: digits, after)
        else ([d], rest)
      | rest =>
        let (digits, after) := n.take rest
        (d :: digits, after)

def ofDigits (digits : List Nat) : Nat := digits.foldl (fun n d => 10 * n + d) 0

/-- An optional sign; `true` is minus. -/
def takeSign : List Char → Bool × List Char
  | '-' :: rest => (true, rest)
  | '+' :: rest => (false, rest)
  | text => (false, text)

/-- The double nearest to `coefficient * 10 ^ exponent`. -/
def toFloat (negative : Bool) (coefficient : Nat) (exponent : Int) : Float :=
  let magnitude := Float.ofScientific coefficient (exponent < 0) exponent.natAbs
  if negative then -magnitude else magnitude

/-- An exponent, which may be left out altogether. -/
def readExponent? (n : Numerals) : List Char → Option Int
  | [] => some 0
  | mark :: rest =>
    if mark = 'e' ∨ mark = 'E' then
      let (negative, text) := takeSign rest
      match n.take text with
      | ([], _) | (_, _ :: _) => none
      | (digits, []) =>
        let magnitude : Int := ofDigits digits
        some (if negative then -magnitude else magnitude)
    else none

/-- Digits with an optional point among, before or behind them, and an optional exponent. -/
def readUnsigned? (n : Numerals) (negative : Bool) (text : List Char) : Option Float := do
  let (whole, rest) := n.take text
  let (fraction, rest) :=
    match rest with
    | '.' :: more => n.take more
    | _ => ([], rest)
  if whole = [] ∧ fraction = [] then none else
  let exponent ← readExponent? n rest
  some (toFloat negative (ofDigits (whole ++ fraction)) (exponent - fraction.length))

/-- A real number; `inf`, `infinity` and `nan` are words for it in any case. -/
def readReal? (n : Numerals) (text : List Char) : Option Float :=
  let (negative, unsigned) := takeSign text
  let word := unsigned.map Char.toLower
  if word = ['n', 'a', 'n'] then some (0.0 / 0.0)
  else if word = ['i', 'n', 'f'] ∨ word = ['i', 'n', 'f', 'i', 'n', 'i', 't', 'y'] then
    some (if negative then -(1.0 / 0.0) else 1.0 / 0.0)
  else readUnsigned? n negative unsigned

end Meristem.Decimal
