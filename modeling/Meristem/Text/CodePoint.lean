/-!
Texts as lists of code points. A text from outside may hold half of a surrogate pair on its own,
which is a code point and no character; a text without such halves is a list of characters.
-/

namespace Meristem

/-- A code point, which is a character or half of a surrogate pair. -/
structure CodePoint where
  point : Fin 0x110000
deriving DecidableEq, Repr

namespace CodePoint

def toNat (p : CodePoint) : Nat := p.point.val

/-- A character lies below the halves of surrogate pairs or above them. -/
def ofChar (c : Char) : CodePoint :=
  ⟨⟨c.toNat, c.valid.elim (Nat.lt_trans · (by decide)) And.right⟩⟩

instance : Coe Char CodePoint := ⟨ofChar⟩

/-- The code point of a number that is small enough to be one. -/
def ofNat (n : Nat) : CodePoint := ⟨Fin.ofNat 0x110000 n⟩

def isHalf (p : CodePoint) : Bool := 0xd800 ≤ p.toNat && p.toNat < 0xe000

def toChar? (p : CodePoint) : Option Char :=
  if p.isHalf then none else some (Char.ofNat p.toNat)

theorem isHalf_ofChar (c : Char) : (ofChar c).isHalf = false := by
  rcases c.valid with low | ⟨high, _⟩
  · have : ¬ 0xd800 ≤ (ofChar c).toNat := Nat.not_le.mpr low
    simp [isHalf, this]
  · have : ¬ (ofChar c).toNat < 0xe000 := Nat.not_lt.mpr high
    simp [isHalf, this]

theorem toChar?_ofChar (c : Char) : toChar? (ofChar c) = some c := by
  rw [toChar?, isHalf_ofChar]
  simp [toNat, ofChar]

end CodePoint

abbrev Text := List CodePoint

namespace Text

def ofString (s : String) : Text := s.toList.map CodePoint.ofChar

/-- The characters of a text, unless it holds half of a surrogate pair. -/
def chars? (text : Text) : Option (List Char) := text.mapM CodePoint.toChar?

theorem chars?_ofString (s : String) : (ofString s).chars? = some s.toList := by
  rw [chars?, ofString]
  induction s.toList with
  | nil => rfl
  | cons c rest ih => simp [CodePoint.toChar?_ofChar, ih]

/-- The text with three replacement characters for every half of a surrogate pair. -/
def mended (text : Text) : String :=
  String.ofList (text.flatMap fun p => (p.toChar?.map ([·])).getD (List.replicate 3 '\ufffd'))

end Text
end Meristem
