import Meristem.Decimal.Reading
import Meristem.Text.Blank

/-!
Numbers in texts that were not written as numbers in the first place, with white space around them
and underscores among them.

Of a real, either the white space is dropped or the underscores are, which may stand anywhere but
at the ends and beside each other. Of an integer, the white space goes first, then the zeros in
front, with underscores among them and with a minus sign before or behind them, then a fraction of
zeros, and last the underscores.
-/

namespace Meristem.Decimal

def hasDoubleUnderscore : List Char → Bool
  | '_' :: '_' :: _ => true
  | _ :: rest => hasDoubleUnderscore rest
  | [] => false

/-- The text without its underscores, where they stand in allowed places. -/
def withoutUnderscores? (text : List Char) : Option (List Char) :=
  if text.head? = some '_' ∨ text.getLast? = some '_' ∨ hasDoubleUnderscore text then none
  else some (text.filter (· ≠ '_'))

def readLooseReal? (text : List Char) : Option Float :=
  match readReal? .plain (Text.trimmed text) with
  | some x => some x
  | none => withoutUnderscores? text >>= readReal? .plain

/-- Why a text is no integer. -/
inductive IntegerFault where
  | unreadable
  | tooLong
deriving DecidableEq, Repr

/-- The most digits of an integer. -/
def maxIntegerDigits : Nat := 4300

def takeMinus : List Char → Bool × List Char
  | '-' :: rest => (true, rest)
  | text => (false, text)

/-- An optional minus sign and digits, of which only a lone one may be a zero in front. A run of
digits that is too long is refused whatever follows it. -/
def readInteger (text : List Char) : Except IntegerFault Int :=
  let (negative, unsigned) := takeMinus text
  let (digits, rest) := unsigned.span Char.isDigit
  if digits = [] ∨ (digits.head? = some '0' ∧ digits.length ≠ 1) then .error .unreadable
  else if maxIntegerDigits < digits.length then .error .tooLong
  else if rest ≠ [] then .error .unreadable
  else
    let magnitude : Int := ofDigits (digits.map (·.toNat - 48))
    .ok (if negative then -magnitude else magnitude)

/-- What is left behind zeros and underscores; `last` is the character just dropped, which comes
back before a point and at the end. -/
def afterZeros? (last : Char) : List Char → Option (List Char)
  | [] => some [last]
  | c :: rest =>
    if c = '0' ∨ c = '_' then afterZeros? c rest
    else if c.isDigit ∨ c = '-' then some (c :: rest)
    else if c = '.' then some (last :: c :: rest)
    else none

def withoutLeadingZeros? : List Char → Option (List Char)
  | [] => none
  | c :: rest =>
    if c = '0' then afterZeros? c rest
    else if c.isDigit ∨ c = '-' then some (c :: rest)
    else none

def withoutZerosInFront? : List Char → Option (List Char)
  | '-' :: rest => (withoutLeadingZeros? rest).map ('-' :: ·)
  | '+' :: '-' :: _ => none
  | '+' :: rest => withoutLeadingZeros? rest
  | text => withoutLeadingZeros? text

/-- The text without a point and zeros behind it. -/
def withoutZeroFraction (text : List Char) : List Char :=
  match text.dropWhile (· ≠ '.') with
  | '.' :: zeros =>
    if zeros ≠ [] ∧ zeros.all (· = '0') then text.takeWhile (· ≠ '.') else text
  | _ => text

def tidied? (text : List Char) : Option (List Char) :=
  (withoutZerosInFront? (Text.trimmed text)).map fun t =>
    let t := withoutZeroFraction t
    (withoutUnderscores? t).getD t

/-- An integer that is too long is told apart only where it is written plainly. -/
def readLooseInteger (text : List Char) : Except IntegerFault Int :=
  match readInteger text with
  | .error .unreadable =>
    (((tidied? text).map readInteger).getD (.error .unreadable)).mapError fun _ => .unreadable
  | result => result

end Meristem.Decimal
