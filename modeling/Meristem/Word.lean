import Meristem.Text.CodePoint

/-!
The words that plants grow as. Any code point is a symbol; brackets and signs get their meaning
only where a word is drawn.
-/

namespace Meristem

abbrev Symbol := CodePoint

abbrev Word := List Symbol

/-- The word that every plant starts from when none is given. -/
def Word.default : Word := ['F']

end Meristem
