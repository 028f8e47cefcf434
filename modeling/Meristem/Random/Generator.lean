import Meristem.Random.Seed
import Meristem.Random.Source

/-!
A linear congruential generator on 128 bits whose output is the exclusive or of its halves,
rotated by its top six bits. A number of the unit interval takes the upper 53 bits of an output.
-/

namespace Meristem

structure Generator where
  state : BitVec 128
  increment : BitVec 128
deriving DecidableEq

namespace Generator

def factor : BitVec 128 := 0x2360ed051fc65da44385df649fccf645

def step (g : Generator) : Generator :=
  { g with state := g.state * factor + g.increment }

def rotatedRight (x amount : UInt64) : UInt64 :=
  (x >>> amount) ||| (x <<< (64 - amount))

def output (g : Generator) : UInt64 :=
  let high := UInt64.ofBitVec ((g.state >>> 64).setWidth 64)
  let low := UInt64.ofBitVec (g.state.setWidth 64)
  rotatedRight (high ^^^ low) (UInt64.ofBitVec ((g.state >>> 122).setWidth 64))

def next (g : Generator) : UInt64 × Generator :=
  let g := g.step
  (g.output, g)

/-- The next number of the unit interval, a multiple of `2 ^ -53`. -/
def nextUnit (g : Generator) : Float × Generator :=
  let (bits, g) := g.next
  ((bits >>> 11).toFloat * (1.0 / 9007199254740992.0), g)

def join (high low : UInt64) : BitVec 128 := high.toBitVec ++ low.toBitVec

def ofWords (seed : List UInt32) : Generator :=
  let value (i : Nat) := (Seed.startValues seed).getD i 0
  let increment := (join (value 2) (value 3) <<< 1) ||| 1
  let first := step ⟨0, increment⟩
  step { first with state := first.state + join (value 0) (value 1) }

def ofSeed (seed : Nat) : Generator := ofWords (Seed.words seed)

/-- A seed must not be negative. -/
def ofInt? (seed : Int) : Option Generator :=
  if seed < 0 then none else some (ofSeed seed.toNat)

instance : DrawSource Generator Float := ⟨nextUnit⟩

end Generator
end Meristem
