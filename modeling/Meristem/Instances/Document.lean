import Meristem.Document.Number
import Meristem.Document.NumberArray
import Meristem.Instances.Buffer

/-!
Buffers and plants given by documents, and appending records given by documents.

An appended record is taken apart before anything is stored, but its components turn into numbers
only while the columns are extended, one column after the other. Where a component is a row of
several numbers, the columns before it have then been extended already.
-/

namespace Meristem

namespace InstanceBuffer

def columnField (fields : Document.Entries) (name : String) : Checked (Array Float) :=
  match Document.field? fields name with
  | none => .ok #[]
  | some d => Checked.under (.key name) (d.asReals.map List.toArray)

def countField (fields : Document.Entries) : Checked Int :=
  match Document.field? fields "count" with
  | none => .ok 0
  | some d => d.asInt.under (.key "count")

def ofFields (fields : Document.Entries) : Checked (InstanceBuffer Float) :=
  ((((Checked.supply (.ok InstanceBuffer.mk) (columnField fields "translate_data")).supply
    (columnField fields "rotate_data")).supply (columnField fields "scale_data")).supply
    (columnField fields "color_data")).supply (countField fields)

/-- A record whose components may still be rows. -/
structure LooseInstance where
  position : Vec3 NumberArray
  scale : Vec3 NumberArray
  rotation : Vec4 NumberArray
  color : Vec4 NumberArray

def looseInstance (translate rotation scale color : Document) :
    Except ArrayError LooseInstance := do
  let position ← (← NumberArray.ofDocument translate).three
  let scale ← (← NumberArray.ofDocument scale).three
  let rotation ← (← NumberArray.ofDocument rotation).four
  let color ← (← NumberArray.ofDocument color).four
  return ⟨position, scale, rotation, color⟩

def numbers3 (v : Vec3 NumberArray) : Except ArrayError (Vec3 Float) := do
  return ⟨← v.x.toNumber, ← v.y.toNumber, ← v.z.toNumber⟩

def numbers4 (v : Vec4 NumberArray) : Except ArrayError (Vec4 Float) := do
  return ⟨← v.x.toNumber, ← v.y.toNumber, ← v.z.toNumber, ← v.w.toNumber⟩

/-- Extends one column, or leaves the buffer with the columns extended so far. -/
def extend (c : Column) (row : Except ArrayError (Vec4 Float)) (b : InstanceBuffer Float) :
    Except (ArrayError × InstanceBuffer Float) (InstanceBuffer Float) :=
  match row with
  | .error e => .error (e, b)
  | .ok row =>
    match c with
    | .translate => .ok { b with translate := pushVec4 b.translate row }
    | .rotate => .ok { b with rotate := pushVec4 b.rotate row }
    | .scale => .ok { b with scale := pushVec4 b.scale row }
    | .color => .ok { b with color := pushVec4 b.color row }

def appendLoose (b : InstanceBuffer Float) (r : LooseInstance) :
    Except (ArrayError × InstanceBuffer Float) (InstanceBuffer Float) := do
  let b ← b.extend .translate ((numbers3 r.position).map paddedPosition)
  let b ← b.extend .rotate (numbers4 r.rotation)
  let b ← b.extend .scale ((numbers3 r.scale).map paddedScale)
  let b ← b.extend .color (numbers4 r.color)
  return { b with count := b.count + 1 }

/-- Appends a record given by documents. An error comes with the buffer it leaves behind. -/
def appendDocuments (b : InstanceBuffer Float) (translate rotation scale color : Document) :
    Except (ArrayError × InstanceBuffer Float) (InstanceBuffer Float) :=
  match looseInstance translate rotation scale color with
  | .error e => .error (e, b)
  | .ok r => b.appendLoose r

end InstanceBuffer

namespace Plant

def symbolsField (fields : Document.Entries) : Checked Word :=
  match Document.field? fields "symbols" with
  | none => .ok []
  | some d => Checked.under (.key "symbols") d.asText

def bufferField (fields : Document.Entries) (name : String) :
    Checked (InstanceBuffer Float) :=
  match Document.field? fields name with
  | none => .ok .empty
  | some (.table entries) => (InstanceBuffer.ofFields entries).under (.key name)
  | some _ => (Checked.fail .notAModel).under (.key name)

def ofFields (fields : Document.Entries) : Checked (Plant Float) :=
  ((Checked.supply (.ok Plant.mk) (symbolsField fields)).supply
    (bufferField fields "branches")).supply (bufferField fields "leaves")

end Plant
end Meristem
