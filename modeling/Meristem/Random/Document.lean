import Meristem.Document.Basic
import Meristem.Error
import Meristem.Random.Generator
import Meristem.Text.Literal

/-!
Generators from seeds given by documents. A seed is an integer, or a list of seeds whose words are
taken one after the other. Inside a list an integer may also be written as a text, and a table
counts as the list of its keys.
-/

namespace Meristem

/-- Why a document is no seed. -/
inductive SeedFault where
  | negative
  | notAnInteger
  /-- A text that does not start like an integer. -/
  | unrecognized
  | unreadable (fault : Text.LiteralFault)
deriving DecidableEq, Repr

/-- The wording, where a fault has one. -/
def SeedFault.message? : SeedFault → Option String
  | negative => some GrowthError.negativeSeed.message
  | notAnInteger => none
  | unrecognized => some "unrecognized seed string"
  | unreadable fault => some fault.message

namespace Seed

def ofText (text : Text) : Except SeedFault (List UInt32) :=
  match text.literal? with
  | none => .error .unrecognized
  | some (.ok n) => .ok (words n)
  | some (.error fault) => .error (.unreadable fault)

mutual

def ofPart : Document → Except SeedFault (List UInt32)
  | .int n => if n < 0 then .error .negative else .ok (words n.toNat)
  | .bool b => .ok [if b then 1 else 0]
  | .text text => ofText text
  | .list items => ofParts items
  | .table entries => ofKeys entries
  | .null | .real _ => .error .notAnInteger

def ofParts : List Document → Except SeedFault (List UInt32)
  | [] => .ok []
  | item :: rest => do return (← ofPart item) ++ (← ofParts rest)

def ofKeys : List (Document × Document) → Except SeedFault (List UInt32)
  | [] => .ok []
  | (key, _) :: rest => do return (← ofPart key) ++ (← ofKeys rest)

end

def ofDocument (d : Document) : Except SeedFault (List UInt32) :=
  match d with
  | .int _ | .bool _ | .list _ => ofPart d
  | _ => .error .notAnInteger

end Seed

def Generator.ofDocument (seed : Document) : Except SeedFault Generator :=
  (Seed.ofDocument seed).map ofWords

end Meristem
