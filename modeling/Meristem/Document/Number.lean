import Meristem.Decimal.Loose
import Meristem.Document.Basic
import Meristem.Document.Problem

/-!
Numbers and texts in documents. A number may also be written as a text, and a truth value counts
as zero or one. An integer may be given as a real without a fraction whose size is below `2 ^ 63`;
a real may be given as an integer unless it is too large for a double.
-/

namespace Meristem.Document

open Checked (fail)

def asInt : Document → Checked Int
  | .int n => .ok n
  | .bool b => .ok (if b then 1 else 0)
  | .real x =>
    if x.isFinite then
      match (Binary64.ofFloat x).toInt? with
      | some n => if n.natAbs < Nat.pow 2 63 then .ok n else fail .intTooLarge
      | none => fail .hasFraction
    else fail .notFinite
  | .text s =>
    match s.chars?.map Decimal.readLooseInteger with
    | none => fail .notUnicode
    | some (.ok n) => .ok n
    | some (.error .unreadable) => fail .unreadableInt
    | some (.error .tooLong) => fail .intTooLarge
  | .null | .list _ | .table _ => fail .notAnInt

def asReal : Document → Checked Float
  | .real x => .ok x
  | .int n =>
    let x := floatOfInt n
    if x.isFinite then .ok x else fail .notAReal
  | .bool b => .ok (if b then 1.0 else 0.0)
  | .text s =>
    match s.chars?.map Decimal.readLooseReal? with
    | none => fail .notUnicode
    | some none => fail .unreadableReal
    | some (some x) => .ok x
  | .null | .list _ | .table _ => fail .notAReal

def asText : Document → Checked Text
  | .text s => .ok s
  | _ => fail .notAText

def asIntAtLeast (bound : Int) (d : Document) : Checked Int :=
  d.asInt.require (fun n => bound ≤ n) fun _ => .notAtLeast

def asIntAbove (bound : Int) (d : Document) : Checked Int :=
  d.asInt.require (fun n => bound < n) fun _ => .notAbove

/-- A weight is a finite real above zero. -/
def asWeight (d : Document) : Checked Float :=
  d.asReal.require (fun w => w.isFinite && 0.0 < w)
    fun w => if w.isFinite then .notAbove else .notFinite

/-- A list of reals, each problem at its index. -/
def asReals : Document → Checked (List Float)
  | .list items => .all (items.mapIdx fun i item => item.asReal.under (.index i))
  | _ => fail .notAList

/-- The items of a list of exactly `size` elements, each read by `read`. Absent items are
problems of their own; surplus ones are a single problem of the whole list. -/
def asTuple {β : Type} (size : Nat) (read : Document → Checked β) : Document → Checked (List β)
  | .list items =>
    if size < items.length then fail .tooLong
    else
      .all ((List.range size).map fun i =>
        (match items[i]? with
          | some item => read item
          | none => fail .missing).under (.index i))
  | _ => fail .notATuple

end Meristem.Document
