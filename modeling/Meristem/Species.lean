import Meristem.Config
import Meristem.Drawing
import Meristem.Random.Generator

/-!
A species is all that decides what its plants look like but the draws: a grammar, the number of
generations it grows, a pen and the place of the root. A planting grows plants of one species and
keeps the last one that succeeded.
-/

namespace Meristem

structure Species (α : Type) where
  grammar : Grammar α
  generations : Int
  pen : Pen α
  root : Vec3 α

namespace Species

/-- Grows a word and draws it with the draws that are left. -/
def grow {α σ : Type} [Scalar α] [DrawSource σ α] (s : Species α) (source : σ) :
    Except GrowthError (Plant α) × σ :=
  match s.grammar.expand s.generations source with
  | (.error e, source) => (.error e, source)
  | (.ok word, source) => s.pen.draw word (.atRoot s.root) source

/-- The species of a configuration. The expansion rules are checked before the drawing rules. -/
def ofConfig (c : Config) : Checked (Species Float) := do
  let expansion ← RuleTable.ofDocument (Config.WeightTable.toDocument c.expansionRules)
  let drawing ← RuleTable.ofDocument (Config.WeightTable.toDocument c.drawingRules)
  return {
    grammar := ⟨c.start, expansion, c.maxSymbols⟩
    generations := c.generations
    pen := ⟨drawing, .ok c.branchColor, .ok c.leafColor⟩
    root := c.root }

end Species

/-- A species, the seed of its configuration, and the last plant that was grown. -/
structure Planting where
  species : Species Float
  seed : Option Int
  plant : Plant Float

namespace Planting

def ofConfig (c : Config) : Checked Planting :=
  (Species.ofConfig c).map fun species => ⟨species, c.seed, .empty⟩

/-- Grows a new plant in place of the last one, which stays when the new one fails. -/
def replant {σ : Type} [DrawSource σ Float] (p : Planting) (source : σ) :
    Except GrowthError (Plant Float) × Planting :=
  match (p.species.grow source).1 with
  | .ok plant => (.ok plant, { p with plant })
  | .error e => (.error e, p)

def replantFrom (p : Planting) (seed : Int) : Except GrowthError (Plant Float) × Planting :=
  match Generator.ofInt? seed with
  | some source => p.replant source
  | none => (.error .negativeSeed, p)

/-- Grows a new plant from the seed of the configuration, or from `fallback` when it has none. -/
def replantDefault (p : Planting) (fallback : Generator) :
    Except GrowthError (Plant Float) × Planting :=
  match p.seed with
  | some seed => p.replantFrom seed
  | none => p.replant fallback

end Planting
end Meristem
