import Meristem.Binary64
import Meristem.Document.Number
import Meristem.Document.Shown
import Meristem.MachineWord

/-!
Documents as keys: which documents are keys, which two are the same key, and what a path to the
value of a key says. Truth values and reals without a fraction are the same key as the integer
they equal. Tables of the program have texts as keys; the problems of a key come before those of
its value.
-/

namespace Meristem.Document

/-- The integer that a key equals, if it is a number without a fraction. -/
def whole? : Document → Option Int
  | .int n => some n
  | .bool b => some (if b then 1 else 0)
  | .real x => (Binary64.ofFloat x).toInt?
  | _ => none

def sameKey : Document → Document → Bool
  | .null, .null => true
  | .text a, .text b => a = b
  | a, b =>
    match a.whole?, b.whole?, a, b with
    | some m, some n, _, _ => m = n
    | none, none, .real x, .real y => x == y
    | _, _, _, _ => false

/-- A key written again keeps its place and takes the new value. -/
def put (key value : Document) : Entries → Entries
  | [] => [(key, value)]
  | entry :: rest =>
    if sameKey entry.1 key then (entry.1, value) :: rest else entry :: put key value rest

/-- The table of the entries written one after the other. -/
def ofEntries (entries : Entries) : Document :=
  .table (entries.foldl (fun table entry => put entry.1 entry.2 table) [])

/-- Lists and tables are no keys. -/
def isKey : Document → Bool
  | .list _ | .table _ => false
  | _ => true

/-- What a path says for a key. -/
def keyStep : Document → PathStep
  | .text s => .key s.mended
  | .int n => if fitsSigned n then .index n else .key (toString n)
  | .bool b => .index (if b then 1 else 0)
  | other => .key other.shown

/-- An entry whose key must be a text and whose value is read by `read`. -/
def readEntry {β : Type} (read : Document → Checked β) (entry : Document × Document) :
    Checked (Text × β) :=
  ((Checked.supply (.ok Prod.mk) (entry.1.asText.under (.key "[key]"))).supply
    (read entry.2)).under entry.1.keyStep

end Meristem.Document
