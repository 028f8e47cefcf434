import Mathlib.Data.Real.Basic
import Meristem.Config
import Meristem.Proofs.Color
import Meristem.Proofs.Rules.Checking

/-!
The colours of a configuration. The problems of a configuration are those of its fields, each under
the name of its field, so a colour can be judged without the other fields. A colour that is given as
a text is refused exactly when it is not spelled as one, and a colour that is given as four numbers
exactly when one of them lies outside the unit interval.
-/

namespace Meristem

namespace Checked

variable {β γ : Type}

def problems : Checked β → List Problem
  | .ok _ => []
  | .error problems => problems

theorem problems_supply (f : Checked (β → γ)) (x : Checked β) :
    (supply f x).problems = f.problems ++ x.problems := by
  cases f with
  | ok f =>
      cases x with
      | ok x => rfl
      | error problems => rfl
  | error first =>
      cases x with
      | ok x => exact (List.append_nil first).symm
      | error second => rfl

theorem problems_under (step : PathStep) (x : Checked β) :
    (x.under step).problems = x.problems.map fun p => { p with path := step :: p.path } := by
  cases x with
  | ok x => rfl
  | error problems => rfl

end Checked

namespace Config

/-- The fields that hold a colour. -/
inductive Hue where
  | branch
  | leaf

namespace Hue

def name : Hue → String
  | branch => "branch_color"
  | leaf => "leaf_color"

/-- The colour that a configuration has for a field. -/
def of (config : Config) : Hue → Vec4 Float
  | branch => config.branchColor
  | leaf => config.leafColor

/-- The default configuration with another colour. -/
def paint (color : Vec4 Float) : Hue → Config
  | branch => { default with branchColor := color }
  | leaf => { default with leafColor := color }

end Hue

/-- The problems that a configuration has with one of its fields. -/
def problemsAt (fields : Document.Entries) (name : String) : List Problem :=
  (ofDocument (.table fields)).problems.filter fun p => p.path.head? = some (.key name)

section Fields

variable {β : Type} {fields : Document.Entries} {name : String} {value : β}
  {read : Document → Checked β}

theorem readField_of_field {d : Document} (h : Document.field? fields name = some d) :
    readField fields name value read = (read d).under (.key name) := by
  simp [readField, h]

/-- The problems with a field are placed at the field. -/
theorem filter_readField (other : String) :
    ((readField fields name value read).problems.filter
      fun p => p.path.head? = some (.key other)) =
        if name = other then (readField fields name value read).problems else [] := by
  cases hfield : Document.field? fields name with
  | none => simp [readField, hfield, Checked.problems]
  | some d =>
      rw [readField_of_field hfield, Checked.problems_under, List.filter_map]
      by_cases hname : name = other
      · simp [hname, Function.comp_def]
      · simp [hname, Function.comp_def]

theorem problemsAt_of_field {hue : Hue} {d : Document}
    (h : Document.field? fields hue.name = some d) :
    problemsAt fields hue.name = ((Color.ofDocument d).under (.key hue.name)).problems := by
  have hhue : problemsAt fields hue.name =
      (readField fields hue.name (hue.of default) Color.ofDocument).problems := by
    unfold problemsAt ofDocument ofFields
    simp only [Checked.problems_supply, List.filter_append, filter_readField]
    cases hue with
    | branch => simp [Hue.name, Hue.of, Checked.problems]
    | leaf => simp [Hue.name, Hue.of, Checked.problems]
  rw [hhue, readField_of_field h]

/-- A configuration that is accepted has the colours that its fields are read as. -/
theorem color_of_field {config : Config} {hue : Hue} {d : Document}
    (h : Document.field? fields hue.name = some d)
    (hconfig : ofDocument (.table fields) = .ok config) :
    Color.ofDocument d = .ok (hue.of config) := by
  have hhue : readField fields hue.name (hue.of default) Color.ofDocument = .ok (hue.of config) := by
    simp only [ofDocument, ofFields, Checked.supply_eq_ok, Except.ok.injEq] at hconfig
    obtain ⟨_, _, ⟨_, _, ⟨_, _, ⟨_, _, ⟨_, _, ⟨_, leaf, ⟨_, branch, ⟨_, _, ⟨_, _, rfl, _, rfl⟩, _,
      rfl⟩, hbranch, rfl⟩, hleaf, rfl⟩, _, rfl⟩, _, rfl⟩, _, rfl⟩, _, rfl⟩, _, rfl⟩ := hconfig
    cases hue with
    | branch => exact hbranch
    | leaf => exact hleaf
  rwa [readField_of_field h, Checked.under_eq_ok] at hhue

end Fields

section Alone

theorem field?_single (name other : String) (d : Document) :
    Document.field? [(.text (.ofString name), d)] other =
      if name = other then some d else none := by
  have hsame : Text.ofString name = .ofString other ↔ name = other := by
    constructor
    · intro h
      have hchars := congrArg Text.chars? h
      rw [Text.chars?_ofString, Text.chars?_ofString, Option.some.injEq] at hchars
      exact String.toList_injective hchars
    · rintro rfl
      rfl
  by_cases h : name = other
  · simp [Document.field?, Document.isText, h]
  · simp [Document.field?, Document.isText, hsame, h]

/-- A table with one colour in it makes the default configuration with that colour. -/
theorem ofDocument_single (hue : Hue) (d : Document) :
    ofDocument (.table [(.text (.ofString hue.name), d)]) =
      ((Color.ofDocument d).under (.key hue.name)).map hue.paint := by
  cases hue with
  | branch =>
      simp only [ofDocument, ofFields, readField, field?_single, Hue.name, String.reduceEq,
        ↓reduceIte]
      cases (Color.ofDocument d).under (.key "branch_color") with
      | ok color => rfl
      | error problems => rfl
  | leaf =>
      simp only [ofDocument, ofFields, readField, field?_single, Hue.name, String.reduceEq,
        ↓reduceIte]
      cases (Color.ofDocument d).under (.key "leaf_color") with
      | ok color => rfl
      | error problems => rfl

end Alone

/-- Configurations take a document for a colour: it is never what they are refused for. -/
structure AcceptsColor (d : Document) (color : Vec4 Float) : Prop where
  problemsAt_eq : ∀ fields (hue : Hue), Document.field? fields hue.name = some d →
    problemsAt fields hue.name = []
  kept : ∀ fields (hue : Hue) config, Document.field? fields hue.name = some d →
    ofDocument (.table fields) = .ok config → hue.of config = color
  alone : ∀ hue : Hue,
    ofDocument (.table [(.text (.ofString hue.name), d)]) = .ok (hue.paint color)

/-- Configurations refuse a document where a colour should be, whatever else is in them. -/
structure RefusesColor (d : Document) (fault : String) : Prop where
  problemsAt_eq : ∀ fields (hue : Hue), Document.field? fields hue.name = some d →
    problemsAt fields hue.name = [⟨[.key hue.name], .refused (some fault)⟩]
  refused : ∀ fields (hue : Hue), Document.field? fields hue.name = some d →
    ∃ problems, ofDocument (.table fields) = .error problems ∧
      ⟨[.key hue.name], .refused (some fault)⟩ ∈ problems

variable {d : Document}

theorem acceptsColor_of_ok {color : Vec4 Float} (h : Color.ofDocument d = .ok color) :
    AcceptsColor d color where
  problemsAt_eq := by
    intro fields hue hfield
    rw [problemsAt_of_field hfield, h]
    rfl
  kept := by
    intro fields hue config hfield hconfig
    exact Except.ok.inj ((color_of_field hfield hconfig).symm.trans h)
  alone := by
    intro hue
    rw [ofDocument_single, h]
    rfl

theorem refusesColor_of_fail {fault : String}
    (h : Color.ofDocument d = Checked.fail (.refused (some fault))) : RefusesColor d fault := by
  have hproblems {fields : Document.Entries} {hue : Hue}
      (hfield : Document.field? fields hue.name = some d) :
      problemsAt fields hue.name = [⟨[.key hue.name], .refused (some fault)⟩] := by
    rw [problemsAt_of_field hfield, h]
    rfl
  refine ⟨fun fields hue => hproblems, fun fields hue hfield => ?_⟩
  have hmem : ⟨[.key hue.name], .refused (some fault)⟩ ∈ problemsAt fields hue.name := by
    rw [hproblems hfield]
    exact List.mem_singleton_self _
  have hall := List.mem_of_mem_filter hmem
  cases hconfig : ofDocument (.table fields) with
  | ok config => simp [hconfig, Checked.problems] at hall
  | error problems => exact ⟨problems, rfl, by simpa [hconfig, Checked.problems] using hall⟩

end Config

namespace Color

/-- What the range check lets pass. -/
def InUnit (x : Float) : Prop := x.isFinite = true ∧ toReal x ∈ Set.Icc (0 : ℝ) 1

theorem inUnit_iff {x : Float} : InUnit x ↔ (0.0 : Float) ≤ x ∧ x ≤ 1.0 := by
  constructor
  · rintro ⟨hfinite, hzero, hone⟩
    rw [le_iff_toReal rfl hfinite, le_iff_toReal hfinite rfl, toReal_zero, toReal_one]
    exact ⟨hzero, hone⟩
  · rintro ⟨hzero, hone⟩
    have hfinite := isFinite_of_le_of_le rfl rfl hzero hone
    rw [le_iff_toReal rfl hfinite, toReal_zero] at hzero
    rw [le_iff_toReal hfinite rfl, toReal_one] at hone
    exact ⟨hfinite, hzero, hone⟩

theorem inUnitRange_iff {c : Vec4 Float} : inUnitRange c = true ↔ ∀ x ∈ c.toList, InUnit x := by
  simp [inUnitRange, inUnit_iff]

/-- What is no number lies in no range. -/
theorem not_inUnit_of_isNaN {x : Float} (h : x.isNaN = true) : ¬ InUnit x := by
  rintro ⟨hfinite, -⟩
  change x.toModel.unpack.isNaN = true at h
  change x.toModel.unpack.isFinite = true at hfinite
  cases hx : x.toModel.unpack with
  | notANumber => simp [hx, Float.Model.UnpackedFloat.isFinite] at hfinite
  | infinity s => simp [hx, Float.Model.UnpackedFloat.isFinite] at hfinite
  | zero s => simp [hx, Float.Model.UnpackedFloat.isNaN] at h
  | finite s m e hm => simp [hx, Float.Model.UnpackedFloat.isNaN] at h

/-- What becomes of a colour that is given as a text. -/
structure ReadsText (text : Text) : Prop where
  reads_iff : ∀ c, ofHex? text = some c ↔ ∃ values, Spells text values ∧ c = ofValues values
  refuses_iff : ofHex? text = none ↔ ¬ ∃ values, Spells text values
  /-- A channel is the double nearest to its two digits as a part of the largest two. -/
  nearest : ∀ values, Spells text values →
    Nearest (ofValues values).x ((16 * values 0 + values 1) / 255) ∧
      Nearest (ofValues values).y ((16 * values 2 + values 3) / 255) ∧
      Nearest (ofValues values).z ((16 * values 4 + values 5) / 255) ∧ (ofValues values).w = 1.0
  inUnit : ∀ c, ofHex? text = some c → ∀ x ∈ c.toList, InUnit x
  same_iff : ∀ values other others, Spells text values → Spells other others →
    (ofHex? text = ofHex? other ↔ values = others)
  /-- Neither the number sign nor the line break matters, and small letters do as well. -/
  unmarked : ∀ (sign : Text) (digits : Fin 6 → CodePoint) (last : Text),
    text = sign ++ List.ofFn digits ++ last → IsOptional '#' sign → IsOptional '\n' last →
      ofHex? text = ofHex? (List.ofFn digits)
  lowered : ofHex? (text.map .lowered) = ofHex? text
  /-- The range is never what a text is refused for. -/
  accepted : ∀ values, Spells text values → Config.AcceptsColor (.text text) (ofValues values)
  refused : (¬ ∃ values, Spells text values) → Config.RefusesColor (.text text) (hexFault text)

theorem readsText (text : Text) : ReadsText text where
  reads_iff c := ofHex?_eq_some
  refuses_iff := ofHex?_eq_none
  nearest := by
    intro values h
    exact ⟨channel_nearest (h.lt 0) (h.lt 1), channel_nearest (h.lt 2) (h.lt 3),
      channel_nearest (h.lt 4) (h.lt 5), rfl⟩
  inUnit := by
    intro c hc x hx
    obtain ⟨values, h, rfl⟩ := ofHex?_eq_some.mp hc
    exact inUnit_iff.mpr (ofValues_mem_unit h.lt x hx)
  same_iff := by
    intro values other others h hother
    exact ofHex?_eq_iff h hother
  unmarked := by
    rintro sign digits last rfl hsign hlast
    have hbare := ofHex?_written digits (Or.inl rfl) (Or.inl rfl)
    rw [List.nil_append, List.append_nil] at hbare
    rw [ofHex?_written digits hsign hlast, hbare]
  lowered := ofHex?_lowered text
  accepted := by
    intro values h
    have hrange : inUnitRange (ofValues values) = true :=
      inUnitRange_iff.mpr fun x hx => inUnit_iff.mpr (ofValues_mem_unit h.lt x hx)
    apply Config.acceptsColor_of_ok
    simp [ofDocument, read, ofHex?_of_spells h, Checked.require, hrange]
  refused := by
    intro h
    apply Config.refusesColor_of_fail
    simp [ofDocument, read, ofHex?_eq_none.mpr h, Checked.require, Checked.fail]

/-- What becomes of a colour that is given as a list of four numbers. -/
structure ReadsNumbers (items : List Document) (c : Vec4 Float) : Prop where
  accepted : (∀ x ∈ c.toList, InUnit x) → Config.AcceptsColor (.list items) c
  refused : (∃ x ∈ c.toList, ¬ InUnit x) → Config.RefusesColor (.list items) (rangeFault c)
  nan : ∀ x ∈ c.toList, x.isNaN = true → ¬ InUnit x

theorem ofDocument_numbers {a b c d : Document} {x y z w : Float} (ha : a.asReal = .ok x)
    (hb : b.asReal = .ok y) (hc : c.asReal = .ok z) (hd : d.asReal = .ok w) :
    ofDocument (.list [a, b, c, d]) =
      if inUnitRange ⟨x, y, z, w⟩ then .ok ⟨x, y, z, w⟩
      else Checked.fail (.refused (some (rangeFault ⟨x, y, z, w⟩))) := by
  have hrange : List.range 4 = [0, 1, 2, 3] := rfl
  simp [ofDocument, read, Document.asTuple, hrange, ha, hb, hc, hd, Checked.under, Checked.all,
    Checked.supply, Checked.require]

theorem readsNumbers {a b c d : Document} {x y z w : Float} (ha : a.asReal = .ok x)
    (hb : b.asReal = .ok y) (hc : c.asReal = .ok z) (hd : d.asReal = .ok w) :
    ReadsNumbers [a, b, c, d] ⟨x, y, z, w⟩ where
  accepted := by
    intro hall
    apply Config.acceptsColor_of_ok
    rw [ofDocument_numbers ha hb hc hd, if_pos (inUnitRange_iff.mpr hall)]
  refused := by
    rintro ⟨v, hv, hout⟩
    apply Config.refusesColor_of_fail
    rw [ofDocument_numbers ha hb hc hd, if_neg]
    intro hrange
    exact hout (inUnitRange_iff.mp hrange v hv)
  nan := fun _ _ => not_inUnit_of_isNaN

/-- A text is a colour exactly when it spells one, and four numbers are one exactly when all of them
lie in the unit interval. -/
theorem configured_colors :
    (∀ text, ReadsText text) ∧
      ∀ (a b c d : Document) (x y z w : Float), a.asReal = .ok x → b.asReal = .ok y →
        c.asReal = .ok z → d.asReal = .ok w → ReadsNumbers [a, b, c, d] ⟨x, y, z, w⟩ := by
  refine ⟨readsText, ?_⟩
  intro a b c d x y z w ha hb hc hd
  exact readsNumbers ha hb hc hd

end Color
end Meristem
