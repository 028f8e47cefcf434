import Meristem.Text.CodePoint
import Meristem.Text.Unprintable

/-!
How messages show a text: between single quotes, or between double quotes when it holds a single
quote and no double one. The quote in use, the backslash, line breaks and tabs are escaped by a
backslash, unprintable code points by the shortest of two, four or eight hexadecimal digits.
-/

namespace Meristem.Text

def singleQuote : Char := '\x27'
def doubleQuote : Char := '\x22'
def backslash : Char := '\x5c'

/-- The hexadecimal digits of `n`, lower case, on at least `width` places. -/
def hexDigits (width n : Nat) : List Char :=
  let digits := Nat.toDigits 16 n
  List.replicate (width - digits.length) '0' ++ digits

def escapedByNumber (point : Nat) : List Char :=
  if point < 0x100 then backslash :: 'x' :: hexDigits 2 point
  else if point < 0x10000 then backslash :: 'u' :: hexDigits 4 point
  else backslash :: 'U' :: hexDigits 8 point

def escaped (quote c : Char) : List Char :=
  if c = quote ∨ c = backslash then [backslash, c]
  else if c = '\n' then [backslash, 'n']
  else if c = '\r' then [backslash, 'r']
  else if c = '\t' then [backslash, 't']
  else if isUnprintable c.toNat then escapedByNumber c.toNat
  else [c]

/-- Half of a surrogate pair is shown by its number. -/
def escapedPoint (quote : Char) (p : CodePoint) : List Char :=
  match p.toChar? with
  | some c => escaped quote c
  | none => escapedByNumber p.toNat

def quoteFor (text : Text) : Char :=
  if ↑singleQuote ∈ text ∧ ↑doubleQuote ∉ text then doubleQuote else singleQuote

def quoted (text : Text) : String :=
  let quote := quoteFor text
  String.ofList (quote :: text.flatMap (escapedPoint quote) ++ [quote])

end Meristem.Text
