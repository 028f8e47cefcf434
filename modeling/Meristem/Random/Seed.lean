/-!
Spreading a seed over the start values of a generator. The seed is cut into 32-bit words, the
words are stirred into a pool of four, and the pool is stretched to eight words. All arithmetic
is modulo `2 ^ 32`, and the multiplier of the hash changes with every use.
-/

namespace Meristem.Seed

/-- The 32-bit words of a number, least significant first; zero is one word. -/
def words (n : Nat) : List UInt32 :=
  if n < Nat.pow 2 32 then [n.toUInt32]
  else n.toUInt32 :: words (n / Nat.pow 2 32)
termination_by n
decreasing_by
  simp only [Nat.pow_eq] at *
  omega

def folded (x : UInt32) : UInt32 := x ^^^ (x >>> 16)

/-- A hash of one word and the multiplier for the next one. -/
def hash (growth multiplier value : UInt32) : UInt32 × UInt32 :=
  let next := multiplier * growth
  (folded ((value ^^^ multiplier) * next), next)

def mix (x y : UInt32) : UInt32 := folded (0xca01f9dd * x - 0x4973f715 * y)

structure Pool where
  words : Vector UInt32 4
  multiplier : UInt32

namespace Pool

def stir (pool : Pool) (value : UInt32) (target : Fin 4) : Pool :=
  let (hashed, multiplier) := hash 0x931e8875 pool.multiplier value
  ⟨pool.words.set target (mix pool.words[target] hashed), multiplier⟩

def place (pool : Pool) (value : UInt32) (target : Fin 4) : Pool :=
  let (hashed, multiplier) := hash 0x931e8875 pool.multiplier value
  ⟨pool.words.set target hashed, multiplier⟩

def slots : List (Fin 4) := [0, 1, 2, 3]

/-- Every ordered pair of different words. -/
def pairs : List (Fin 4 × Fin 4) :=
  slots.flatMap fun source => (slots.filter (· ≠ source)).map (source, ·)

def ofWords (seed : List UInt32) : Pool :=
  let empty : Pool := ⟨Vector.replicate 4 0, 0x43b0d7e5⟩
  let filled := slots.foldl (fun pool i => pool.place (seed.getD i.val 0) i) empty
  let stirred := pairs.foldl (fun pool pair => pool.stir pool.words[pair.1] pair.2) filled
  (seed.drop 4).foldl (fun pool word => slots.foldl (fun pool i => pool.stir word i) pool) stirred

/-- As many words as there are slots named, each hashed from a word of the pool. -/
def stretch (pool : Pool) : List (Fin 4) → UInt32 → List UInt32
  | [], _ => []
  | i :: rest, multiplier =>
    let (word, next) := hash 0x58f38ded multiplier pool.words[i]
    word :: pool.stretch rest next

end Pool

def joined : List UInt32 → List UInt64
  | low :: high :: rest => (low.toUInt64 ||| (high.toUInt64 <<< 32)) :: joined rest
  | _ => []

def startValues (seed : List UInt32) : List UInt64 :=
  joined ((Pool.ofWords seed).stretch (Pool.slots ++ Pool.slots) 0x8b51f9dd)

end Meristem.Seed
