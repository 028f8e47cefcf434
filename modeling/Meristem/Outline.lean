import Meristem.Word

/-!
The bracket structure of a word as a nested list: one line for every run of symbols between
brackets, indented by how many groups are open. A closing bracket with nothing to close is
skipped.
-/

namespace Meristem.Outline

/-- What an outline is made from. -/
inductive Mark where
  | opening
  | closing
  /-- Symbols that belong to a run. -/
  | plain (symbols : Word)
deriving DecidableEq, Repr

def Mark.ofSymbol (symbol : Symbol) : Mark :=
  if symbol = '[' then opening else if symbol = ']' then closing else plain [symbol]

/-- One line: how deep it stands and its symbols. -/
structure Line where
  depth : Nat
  run : Word
deriving DecidableEq, Repr

/-- The line of a run; an empty run has none. -/
def flush (depth : Nat) : Word → List Line
  | [] => []
  | run => [⟨depth, run⟩]

/-- The lines of the rest of the marks, at a depth and with the run that has begun, last symbol
first. -/
def linesFrom : Nat → Word → List Mark → List Line
  | depth, run, [] => flush depth run.reverse
  | depth, run, .opening :: rest => flush depth run.reverse ++ linesFrom (depth + 1) [] rest
  | depth, run, .closing :: rest => flush depth run.reverse ++ linesFrom (depth - 1) [] rest
  | depth, run, .plain symbols :: rest => linesFrom depth (symbols.reverse ++ run) rest

def lines (marks : List Mark) : List Line := linesFrom 0 [] marks

/-- Two spaces for each level, a dash and a space, and the run. -/
def Line.text (line : Line) : Text :=
  Text.ofString (String.ofList (List.replicate (2 * line.depth) ' ') ++ "- ") ++ line.run

def textOf (marks : List Mark) : Text := List.intercalate ['\n'] ((lines marks).map Line.text)

def text (word : Word) : Text := textOf (word.map .ofSymbol)

end Meristem.Outline
