import Meristem.Decimal.Reading
import Meristem.Document.Key
import Meristem.Text.Literal

/-!
Documents written in JSON. Besides the standard, `NaN`, `Infinity` and `-Infinity` are numbers; a
key written twice keeps its first place and its last value; a number without a point and an
exponent is an integer, which must not be too long. Half of a surrogate pair may stand on its own.
Of several faults the first one in the text counts.
-/

namespace Meristem.Json

/-- Why a text is no document. -/
inductive Fault where
  | malformed
  /-- An integer of so many digits. -/
  | tooLong (digits : Nat)
  /-- The first run of halves of surrogate pairs, with the position of its first half. -/
  | halves (position : Nat) (first : CodePoint) (others : List CodePoint)
deriving DecidableEq, Repr

/-- The wording, where a fault has one. -/
def Fault.message? : Fault → Option String
  | malformed => none
  | tooLong digits => some (Text.tooLongMessage digits)
  | halves position first [] =>
    some ("'utf-8' codec can't encode character '" ++
      String.ofList (Text.escapedByNumber first.toNat) ++ "' in position " ++ toString position ++
      ": surrogates not allowed")
  | halves position _ others =>
    some ("'utf-8' codec can't encode characters in position " ++ toString position ++ "-" ++
      toString (position + others.length) ++ ": surrogates not allowed")

def orMalformed {β : Type} : Option β → Except Fault β
  | some value => .ok value
  | none => .error .malformed

def isBlank (c : Char) : Bool := c = ' ' || c = '\t' || c = '\n' || c = '\r'

def skipBlank (text : List Char) : List Char := text.dropWhile isBlank

def hexValue? (c : Char) : Option Nat :=
  if c.toNat < 0x80 then Text.hexDigit? c.toNat else none

/-- Four hexadecimal digits. -/
def readUnit? : List Char → Option (Nat × List Char)
  | a :: b :: c :: d :: rest => do
    let high := 16 * (← hexValue? a) + (← hexValue? b)
    let low := 16 * (← hexValue? c) + (← hexValue? d)
    some (256 * high + low, rest)
  | _ => none

def isHighSurrogate (n : Nat) : Bool := 0xd800 ≤ n && n < 0xdc00
def isLowSurrogate (n : Nat) : Bool := 0xdc00 ≤ n && n < 0xe000

/-- The code point of a unit that has just been read. The second half of a surrogate pair follows
as an escape of its own. -/
def pairUp (unit : Nat) (rest : List Char) : CodePoint × List Char :=
  match rest with
  | '\x5c' :: 'u' :: more =>
    match readUnit? more with
    | some (low, after) =>
      if isHighSurrogate unit && isLowSurrogate low then
        (.ofNat (0x10000 + (unit - 0xd800) * 0x400 + (low - 0xdc00)), after)
      else (.ofNat unit, rest)
    | none => (.ofNat unit, rest)
  | _ => (.ofNat unit, rest)

/-- The character that a short escape stands for. -/
def shortEscape? : Char → Option Char
  | '\x22' => some '\x22'
  | '\x5c' => some '\x5c'
  | '/' => some '/'
  | 'b' => some '\x08'
  | 'f' => some '\x0c'
  | 'n' => some '\n'
  | 'r' => some '\r'
  | 't' => some '\t'
  | _ => none

/-- One code point of a text, `none` in its place for the closing quote. -/
def readPoint? : List Char → Option (Option CodePoint × List Char)
  | [] => none
  | '\x22' :: rest => some (none, rest)
  | '\x5c' :: 'u' :: rest => do
    let (unit, rest) ← readUnit? rest
    let (c, rest) := pairUp unit rest
    some (some c, rest)
  | '\x5c' :: c :: rest => do
    let c ← shortEscape? c
    some (some c, rest)
  | c :: rest => if c.toNat < 0x20 || c = '\x5c' then none else some (some c, rest)

/-- The rest of a text after its opening quote. `read` is what stands before, last code point
first; each one shortens the input, so the input's length is enough fuel. -/
def readText? : Nat → Text → List Char → Option (Text × List Char)
  | 0, _, _ => none
  | fuel + 1, read, input =>
    match readPoint? input with
    | none => none
    | some (none, rest) => some (read.reverse, rest)
    | some (some p, rest) => readText? fuel (p :: read) rest

/-- Digits of an integer part: a zero alone, or digits that do not start with one. -/
def readWhole? : List Char → Option (List Char × List Char)
  | '0' :: rest => some (['0'], rest)
  | text =>
    match text.span Char.isDigit with
    | ([], _) => none
    | (digits, rest) => some (digits, rest)

/-- The digits after a point, if there is a point with digits after it. -/
def readFraction (text : List Char) : List Char × List Char :=
  match text with
  | '.' :: rest =>
    match rest.span Char.isDigit with
    | ([], _) => ([], text)
    | (digits, after) => (digits, after)
  | _ => ([], text)

/-- An exponent, if there is a mark with digits after it. -/
def readExponent (text : List Char) : Option Int × List Char :=
  match text with
  | mark :: rest =>
    if mark = 'e' ∨ mark = 'E' then
      let (negative, unsigned) := Decimal.takeSign rest
      match unsigned.span Char.isDigit with
      | ([], _) => (none, text)
      | (digits, after) =>
        let magnitude : Int := Decimal.ofDigits (digits.map (·.toNat - 48))
        (some (if negative then -magnitude else magnitude), after)
    else (none, text)
  | [] => (none, text)

def readNumber (text : List Char) : Except Fault (Document × List Char) := do
  let (negative, unsigned) :=
    match text with
    | '-' :: rest => (true, rest)
    | _ => (false, text)
  let (whole, rest) ← orMalformed (readWhole? unsigned)
  let (fraction, rest) := readFraction rest
  let (exponent?, rest) := readExponent rest
  let coefficient := Decimal.ofDigits ((whole ++ fraction).map (·.toNat - 48))
  match fraction, exponent? with
  | [], none =>
    if Text.maxDigits < whole.length then .error (.tooLong whole.length)
    else return (.int (if negative then -coefficient else coefficient), rest)
  | _, _ =>
    return (.real (Decimal.toFloat negative coefficient (exponent?.getD 0 - fraction.length)), rest)

def words : List (List Char × Document) :=
  [("null".toList, .null), ("true".toList, .bool true), ("false".toList, .bool false),
   ("NaN".toList, .real (0.0 / 0.0)), ("Infinity".toList, .real (1.0 / 0.0)),
   ("-Infinity".toList, .real (-(1.0 / 0.0)))]

def readWord? (text : List Char) : Option (Document × List Char) :=
  (words.find? fun word => word.1.isPrefixOf text).map fun word =>
    (word.2, text.drop word.1.length)

mutual

/-- A value and what follows it; every step inward takes a character. -/
def readValue : Nat → List Char → Except Fault (Document × List Char)
  | 0, _ => .error .malformed
  | fuel + 1, text =>
    match text with
    | '\x22' :: rest => do
      let (s, rest) ← orMalformed (readText? (rest.length + 1) [] rest)
      return (.text s, rest)
    | '[' :: rest =>
      match skipBlank rest with
      | ']' :: after => .ok (.list [], after)
      | inner => do
        let (items, after) ← readItems fuel inner
        return (.list items, after)
    | '\x7b' :: rest =>
      match skipBlank rest with
      | '\x7d' :: after => .ok (.table [], after)
      | inner => do
        let (entries, after) ← readEntries fuel inner
        return (Document.ofEntries entries, after)
    | _ =>
      match readWord? text with
      | some found => .ok found
      | none => readNumber text

/-- The items of a list that is not empty, up to its end. -/
def readItems : Nat → List Char → Except Fault (List Document × List Char)
  | 0, _ => .error .malformed
  | fuel + 1, text => do
    let (item, rest) ← readValue fuel text
    match skipBlank rest with
    | ',' :: more =>
      let (items, after) ← readItems fuel (skipBlank more)
      return (item :: items, after)
    | ']' :: after => return ([item], after)
    | _ => .error .malformed

/-- The entries of a table that is not empty, up to its end. -/
def readEntries : Nat → List Char → Except Fault (Document.Entries × List Char)
  | 0, _ => .error .malformed
  | fuel + 1, text =>
    match text with
    | '\x22' :: rest => do
      let (key, rest) ← orMalformed (readText? (rest.length + 1) [] rest)
      match skipBlank rest with
      | ':' :: more =>
        let (value, rest) ← readValue fuel (skipBlank more)
        match skipBlank rest with
        | ',' :: more =>
          let (entries, after) ← readEntries fuel (skipBlank more)
          return ((.text key, value) :: entries, after)
        | '\x7d' :: after => return ([(.text key, value)], after)
        | _ => .error .malformed
      | _ => .error .malformed
    | _ => .error .malformed

end

/-- The document that a text holds, with nothing but white space around it. -/
def parse (text : List Char) : Except Fault Document := do
  let (d, rest) ← readValue (2 * text.length + 1) (skipBlank text)
  if skipBlank rest = [] then .ok d else .error .malformed

/-- The document that a text from outside holds. Only texts made of characters can be files. -/
def parseText (text : Text) : Except Fault Document :=
  match text.chars?, text.dropWhile (!·.isHalf) with
  | some chars, _ => parse chars
  | none, first :: rest =>
    .error (.halves (text.takeWhile (!·.isHalf)).length first (rest.takeWhile (·.isHalf)))
  | none, [] => .error .malformed

end Meristem.Json
