import Meristem.Decimal.Reading
import Meristem.Text.Blank
import Meristem.Text.DecimalDigit
import Meristem.Text.Quoted

/-!
Integers in texts: digits of any script with single underscores between them, and white space at
the end. Hexadecimal ones are marked by `0x` in front, and an underscore may follow the mark. A
decimal integer must not have too many digits, zeros in front counted.
-/

namespace Meristem.Text

/-- The longest decimal integer that is read. -/
def maxDigits : Nat := 4300

def tooLongMessage (digits : Nat) : String :=
  "Exceeds the limit (" ++ toString maxDigits ++
    " digits) for integer string conversion: value has " ++ toString digits ++
    " digits; use sys.set_int_max_str_digits() to increase the limit"

/-- Why a text is no integer. -/
inductive LiteralFault where
  | malformed (base : Nat) (text : Text)
  | tooLong (digits : Nat)
deriving DecidableEq, Repr

/-- How much of a text a message shows. -/
def maxShown : Nat := 200

def LiteralFault.message : LiteralFault → String
  | malformed base text =>
    "invalid literal for int() with base " ++ toString base ++ ": " ++
      String.ofList (text.quoted.toList.take maxShown)
  | tooLong digits => tooLongMessage digits

def numerals (base : Nat) : Decimal.Numerals :=
  ⟨fun c => if base = 16 then hexDigit? c.toNat else decimalDigit? c.toNat, true⟩

/-- The integer that starts at `chars`, where `text` is all of the text. An underscore behind the
digits spoils it before their number is looked at, anything else afterwards. -/
def literalFrom (base : Nat) (text : Text) (chars : List Char) : Except LiteralFault Nat :=
  match (numerals base).take chars with
  | ([], _) | (_, '_' :: _) => .error (.malformed base text)
  | (digits, rest) =>
    if base = 10 ∧ maxDigits < digits.length then .error (.tooLong digits.length)
    else if rest.all isBlank then .ok (digits.foldl (base * · + ·) 0)
    else .error (.malformed base text)

/-- The integer in a text that starts with `0x` or a digit from zero to nine; `none` for any other
text. -/
def literal? (text : Text) : Option (Except LiteralFault Nat) :=
  match text.map fun p => p.toChar?.getD '\ufffd' with
  | '0' :: 'x' :: '_' :: rest | '0' :: 'x' :: rest => some (literalFrom 16 text rest)
  | first :: rest => if first.isDigit then some (literalFrom 10 text (first :: rest)) else none
  | [] => none

end Meristem.Text
