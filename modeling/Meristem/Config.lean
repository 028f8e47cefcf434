import Meristem.Color
import Meristem.Document.Json
import Meristem.Grammar
import Meristem.Rules.Document

/-!
The configuration of a plant. Its rule tables are checked here only as tables of numbers; what a
rule may be is checked when a plant is made from the configuration.
-/

namespace Meristem

/-- Payloads and weights by symbol, in the order of the configuration. -/
abbrev WeightTable := List (Text × List (Text × Float))

structure Config where
  root : Vec3 Float
  generations : Nat
  branchColor : Vec4 Float
  leafColor : Vec4 Float
  start : Word
  expansionRules : WeightTable
  drawingRules : WeightTable
  maxSymbols : Nat
  seed : Option Int

namespace Config

def defaultBranchColor : Vec4 Float :=
  Color.opaqueColor (Color.channel 1 14) (Color.channel 0 2) (Color.channel 0 2)

def defaultLeafColor : Vec4 Float :=
  Color.opaqueColor (Color.channel 3 10) (Color.channel 5 15) (Color.channel 0 11)

def default : Config where
  root := ⟨0.0, 0.0, 0.0⟩
  generations := 4
  branchColor := defaultBranchColor
  leafColor := defaultLeafColor
  start := Word.default
  expansionRules := [(['F'], [(Text.ofString "FF+[+F-F-F]-[-F+F+F]", 1.0)])]
  drawingRules := [(['F'], [(Text.ofString Action.branch.name, 1.0)])]
  maxSymbols := Grammar.defaultMaxSymbols
  seed := none

/-- A field read by `read`, or its default when it is absent. -/
def readField {β : Type} (fields : Document.Entries) (name : String) (default : β)
    (read : Document → Checked β) : Checked β :=
  match Document.field? fields name with
  | none => .ok default
  | some d => Checked.under (.key name) (read d)

def readRoot (d : Document) : Checked (Vec3 Float) :=
  match d.asTuple 3 Document.asReal with
  | .ok [x, y, z] => .ok ⟨x, y, z⟩
  | .ok _ => Checked.fail .notATuple
  | .error problems => .error problems

/-- The start word has at least one symbol, and all its symbols are characters. -/
def readStart (d : Document) : Checked Word :=
  Checked.require (fun word => !word.isEmpty) (fun _ => .textTooShort) <|
    Checked.require (fun word => (Text.chars? word).isSome) (fun _ => .notUnicode) d.asText

def readSeed : Document → Checked (Option Int)
  | .null => .ok none
  | d => d.asInt.map some

def readWeights : Document → Checked (List (Text × Float))
  | .table entries => .all (entries.map (Document.readEntry Document.asReal))
  | _ => Checked.fail .notATable

def readWeightTable : Document → Checked WeightTable
  | .table entries => .all (entries.map (Document.readEntry readWeights))
  | _ => Checked.fail .notATable

def ofFields (fields : Document.Entries) : Checked Config :=
  ((((((((Checked.supply (.ok Config.mk)
    (readField fields "root" default.root readRoot)).supply
    (readField fields "generations" default.generations
      fun d => (d.asIntAtLeast 0).map Int.toNat)).supply
    (readField fields "branch_color" default.branchColor Color.ofDocument)).supply
    (readField fields "leaf_color" default.leafColor Color.ofDocument)).supply
    (readField fields "axiom" default.start readStart)).supply
    (readField fields "expansion_rules" default.expansionRules readWeightTable)).supply
    (readField fields "drawing_rules" default.drawingRules readWeightTable)).supply
    (readField fields "max_symbols" default.maxSymbols
      fun d => (d.asIntAbove 0).map Int.toNat)).supply
    (readField fields "seed" default.seed readSeed)

def ofDocument : Document → Checked Config
  | .table fields => ofFields fields
  | _ => Checked.fail .notAModel

def ofText (text : Text) : Except Json.Fault (Checked Config) :=
  (Json.parseText text).map ofDocument

def WeightTable.toDocument (table : WeightTable) : Document :=
  .table (table.map fun (symbol, choices) =>
    (.text symbol, .table (choices.map fun (payload, weight) => (.text payload, .real weight))))

end Config
end Meristem
