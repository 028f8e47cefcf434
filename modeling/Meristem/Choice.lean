import Meristem.Scalar

/-!
Weighted choice. The weights need not add up to one: each payload gets the share of the unit
interval that its weight has in the total, in the order of the table, and a number of the
interval picks the payload whose share it falls into.

The order of the additions is part of the result on doubles. Up to seven weights are added from
left to right, more of them in eight lanes, and more than 128 in halves.
-/

namespace Meristem

variable {α π : Type} [Arith α]

/-- Eight sums that run side by side. -/
structure Lanes (α : Type) where
  a : α
  b : α
  c : α
  d : α
  e : α
  f : α
  g : α
  h : α

def Lanes.total (l : Lanes α) : α :=
  ((l.a + l.b) + (l.c + l.d)) + ((l.e + l.f) + (l.g + l.h))

/-- Adds full blocks of eight lane by lane, then what is left one by one. -/
def Lanes.sum (l : Lanes α) : List α → α
  | a :: b :: c :: d :: e :: f :: g :: h :: rest =>
    Lanes.sum ⟨l.a + a, l.b + b, l.c + c, l.d + d, l.e + e, l.f + f, l.g + g, l.h + h⟩ rest
  | rest => rest.foldl (· + ·) l.total

def laneSum : List α → α
  | a :: b :: c :: d :: e :: f :: g :: h :: rest => Lanes.sum ⟨a, b, c, d, e, f, g, h⟩ rest
  | few => few.foldl (· + ·) 0.0

def total (weights : List α) : α :=
  if weights.length ≤ 128 then laneSum weights
  else
    let half := weights.length / 2 / 8 * 8
    total (weights.take half) + total (weights.drop half)
termination_by weights.length
decreasing_by all_goals simp only [List.length_take, List.length_drop]; omega

/-- A sum that carries the rounding error of each addition into the next. -/
def compensatedSum : List α → α
  | [] => 0.0
  | first :: rest =>
    (rest.foldl (fun (sum, lost) x =>
      let y := x - lost
      let next := sum + y
      (next, (next - sum) - y)) (first, 0.0)).1

/-- One or more payloads with their weights, in the order of the table. -/
structure Choices (π α : Type) where
  first : π × α
  others : List (π × α)

namespace Choices

def toList (c : Choices π α) : List (π × α) := c.first :: c.others

def ofList? : List (π × α) → Option (Choices π α)
  | [] => none
  | first :: others => some ⟨first, others⟩

def only (payload : π) (weight : α) : Choices π α := ⟨(payload, weight), []⟩

/-- The part of the unit interval that each payload gets. -/
def shares (c : Choices π α) : List α :=
  let weights := c.toList.map (·.2)
  weights.map (· / total weights)

/-- How far the shares may miss one: `2 ^ -26`. -/
def tolerance : α := 1.0 / 67108864.0

/-- Whether the shares cover the unit interval. They do not when the weights are too large for
their sum to be finite. -/
def covers (c : Choices π α) : Bool :=
  !decide (tolerance < Arith.abs (compensatedSum c.shares - 1.0))

def runningSums (sum : α) : List α → List α
  | [] => [sum]
  | x :: rest => sum :: runningSums (sum + x) rest

/-- Where the share of each payload ends, scaled so that the last one ends at one. -/
def bounds (c : Choices π α) : List α :=
  match c.shares with
  | [] => []
  | first :: rest => (runningSums first rest).map (· / rest.foldl (· + ·) first)

/-- The position of the payload whose share holds `u`. -/
def index (c : Choices π α) (u : α) : Nat := c.bounds.findIdx fun bound => decide (u < bound)

def pick (c : Choices π α) (u : α) : π :=
  match c.toList[c.index u]? with
  | some (payload, _) => payload
  | none => c.first.1

end Choices
end Meristem
