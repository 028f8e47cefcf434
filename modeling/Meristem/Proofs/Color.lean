import Mathlib.Data.Real.Basic
import Meristem.Color
import Meristem.Proofs.Rounded.Approx
import Meristem.Proofs.Rounded.Choice

/-!
Colours as they are written. A text writes a colour if it is six hexadecimal digits, with a mark
before them or behind them that has no part in the colour. The reader accepts these texts and no
others, and as the channels of different digits are different doubles, what it returns tells the
digits again.
-/

namespace Meristem

namespace Text

/-- The hexadecimal digits with their values: six letters in either case and the decimal digits of
all scripts. -/
inductive IsHexDigit (p : CodePoint) : Nat → Prop where
  | lower (n : Nat) (hn : n < 6) (h : p.toNat = 'a'.toNat + n) : IsHexDigit p (n + 10)
  | upper (n : Nat) (hn : n < 6) (h : p.toNat = 'A'.toNat + n) : IsHexDigit p (n + 10)
  | decimal (start n : Nat) (hstart : start ∈ digitZeros) (hn : n < 10)
    (h : p.toNat = start + n) : IsHexDigit p n

/-- No code point is a decimal digit of two scripts. -/
theorem digitZeros_apart : ∀ start ∈ digitZeros, ∀ other ∈ digitZeros,
    start = other ∨ start + 10 ≤ other ∨ other + 10 ≤ start := by
  decide +kernel

/-- No decimal digit is a letter. -/
theorem digitZeros_unlettered :
    ∀ start ∈ digitZeros, start + 10 ≤ 'A'.toNat ∨ 'z'.toNat < start := by
  decide +kernel

theorem decimalDigit?_eq_some {point n : Nat} :
    decimalDigit? point = some n ↔ ∃ start ∈ digitZeros, n < 10 ∧ point = start + n := by
  simp only [decimalDigit?, Option.map_eq_some_iff]
  constructor
  · rintro ⟨start, hfind, rfl⟩
    have hmem := List.mem_of_find?_eq_some hfind
    have hrange := List.find?_some hfind
    simp only [Bool.and_eq_true, decide_eq_true_eq] at hrange
    exact ⟨start, hmem, by omega, by omega⟩
  · rintro ⟨start, hstart, hn, rfl⟩
    cases hfind : digitZeros.find? fun other => other ≤ start + n && start + n < other + 10 with
    | none =>
        have hnone := List.find?_eq_none.mp hfind start hstart
        simp only [Bool.and_eq_true, decide_eq_true_eq] at hnone
        omega
    | some other =>
        have hother := List.mem_of_find?_eq_some hfind
        have hrange := List.find?_some hfind
        simp only [Bool.and_eq_true, decide_eq_true_eq] at hrange
        have hapart := digitZeros_apart start hstart other hother
        exact ⟨other, rfl, by omega⟩

theorem hexDigit?_eq_some {p : CodePoint} {n : Nat} :
    hexDigit? p.toNat = some n ↔ IsHexDigit p n := by
  have ha : 'a'.toNat = 97 := rfl
  have hf : 'f'.toNat = 102 := rfl
  have hA : 'A'.toNat = 65 := rfl
  have hF : 'F'.toNat = 70 := rfl
  constructor
  · intro h
    unfold hexDigit? at h
    split at h
    · obtain rfl : p.toNat - 'a'.toNat + 10 = n := by simpa using h
      exact .lower _ (by omega) (by omega)
    · split at h
      · obtain rfl : p.toNat - 'A'.toNat + 10 = n := by simpa using h
        exact .upper _ (by omega) (by omega)
      · obtain ⟨start, hstart, hn, hp⟩ := decimalDigit?_eq_some.mp h
        exact .decimal start n hstart hn hp
  · rintro (⟨n, hn, hp⟩ | ⟨n, hn, hp⟩ | ⟨start, n, hstart, hn, hp⟩)
    · rw [hexDigit?, if_pos (by omega), hp]
      simp
    · rw [hexDigit?, if_neg (by omega), if_pos (by omega), hp]
      simp
    · have hletters := digitZeros_unlettered start hstart
      have hz : 'z'.toNat = 122 := rfl
      rw [hexDigit?, if_neg (by omega), if_neg (by omega)]
      exact decimalDigit?_eq_some.mpr ⟨start, hstart, hn, hp⟩

theorem IsHexDigit.lt {p : CodePoint} {n : Nat} (h : IsHexDigit p n) : n < 16 := by
  cases h with
  | lower n hn _ => omega
  | upper n hn _ => omega
  | decimal start n _ hn _ => omega

end Text

section Case

/-- The code point with a capital letter made small. -/
def CodePoint.lowered (p : CodePoint) : CodePoint :=
  if 'A'.toNat ≤ p.toNat ∧ p.toNat ≤ 'Z'.toNat then .ofNat (p.toNat + 32) else p

theorem CodePoint.lowered_cases (p : CodePoint) :
    (('A'.toNat ≤ p.toNat ∧ p.toNat ≤ 'Z'.toNat) ∧ p.lowered.toNat = p.toNat + 32) ∨
      (¬ ('A'.toNat ≤ p.toNat ∧ p.toNat ≤ 'Z'.toNat) ∧ p.lowered = p) := by
  by_cases hcapital : 'A'.toNat ≤ p.toNat ∧ p.toNat ≤ 'Z'.toNat
  · refine Or.inl ⟨hcapital, ?_⟩
    have hZ : 'Z'.toNat = 90 := rfl
    rw [lowered, if_pos hcapital]
    exact Nat.mod_eq_of_lt (by omega)
  · exact Or.inr ⟨hcapital, if_neg hcapital⟩

/-- Only a capital letter changes, and it does not become a mark. -/
theorem CodePoint.lowered_eq_iff {p mark : CodePoint} (hmark : mark.toNat < 'A'.toNat) :
    p.lowered = mark ↔ p = mark := by
  rcases p.lowered_cases with ⟨hcapital, hvalue⟩ | ⟨-, hsame⟩
  · constructor
    · rintro rfl
      omega
    · rintro rfl
      omega
  · rw [hsame]

theorem Text.isHexDigit_lowered {p : CodePoint} {n : Nat} :
    IsHexDigit p.lowered n ↔ IsHexDigit p n := by
  have ha : 'a'.toNat = 97 := rfl
  have hz : 'z'.toNat = 122 := rfl
  have hA : 'A'.toNat = 65 := rfl
  have hZ : 'Z'.toNat = 90 := rfl
  rcases p.lowered_cases with ⟨hcapital, hvalue⟩ | ⟨-, hsame⟩
  · constructor
    · rintro (⟨n, hn, hp⟩ | ⟨n, hn, hp⟩ | ⟨start, n, hstart, hn, hp⟩)
      · exact .upper n hn (by omega)
      · omega
      · have hletters := digitZeros_unlettered start hstart
        omega
    · rintro (⟨n, hn, hp⟩ | ⟨n, hn, hp⟩ | ⟨start, n, hstart, hn, hp⟩)
      · omega
      · exact .lower n hn (by omega)
      · have hletters := digitZeros_unlettered start hstart
        omega
  · rw [hsame]

theorem Text.hexDigit?_lowered (p : CodePoint) :
    hexDigit? p.lowered.toNat = hexDigit? p.toNat := by
  ext n
  rw [hexDigit?_eq_some, hexDigit?_eq_some, isHexDigit_lowered]

end Case

section Channels

theorem toReal_floatOfInt {n : Nat} (hn : n < 2 ^ 53) :
    (floatOfInt n).isFinite = true ∧ toReal (floatOfInt n) = n := by
  have hsize : n.toUInt64.toNat = n := by
    simp only [Nat.toUInt64, UInt64.toNat_ofNat']
    omega
  obtain ⟨hfloat, hvalue⟩ := toReal_toFloat (n := n.toUInt64) (by omega)
  have hscaled := @mul_nearest n.toUInt64.toFloat 1.0 hfloat rfl
  rw [hvalue, hsize, toReal_one, mul_one] at hscaled
  have hproduct : floatOfInt n = n.toUInt64.toFloat * 1.0 := by
    have hpower : Float.exactlyRepresentablePowersOfTen[0] = 1.0 := rfl
    have hsign : ¬ (n : Int) < 0 := by omega
    simp only [floatOfInt, Int.natAbs_natCast, if_neg hsign, Float.ofScientific,
      Nat.zero_le, and_true, dif_pos hn, Bool.false_eq_true, ↓reduceIte, hpower]
  rw [hproduct]
  exact hscaled.exact hfloat (by rw [hvalue, hsize])

namespace Color

theorem toReal_byteMax : toReal (255.0 : Float) = 255 := by
  have hvalue : toReal (255.0 : Float) = (8972014882652160 : ℕ) * 2 ^ (-45 : ℤ) := rfl
  rw [hvalue]
  norm_num

variable {high low high' low' : Nat}

/-- A channel is the double nearest to its two digits divided by the largest two digits. -/
theorem channel_nearest (hhigh : high < 16) (hlow : low < 16) :
    Nearest (channel high low) ((16 * high + low) / 255) := by
  obtain ⟨hfloat, hvalue⟩ := toReal_floatOfInt (n := 16 * high + low) (by omega)
  have hquotient := @div_nearest _ 255.0 hfloat rfl (by rw [toReal_byteMax]; norm_num)
  rw [hvalue, toReal_byteMax] at hquotient
  push_cast at hquotient
  exact hquotient

theorem channel_bounds (hhigh : high < 16) (hlow : low < 16) :
    (0 : ℝ) ≤ (16 * high + low) / 255 ∧ ((16 * high + low) / 255 : ℝ) ≤ 1 := by
  have hbyte : (16 * high + low : ℝ) ≤ 255 := by
    exact_mod_cast (by omega : 16 * high + low ≤ 255)
  exact ⟨by positivity, (div_le_one (by norm_num)).mpr hbyte⟩

theorem channel_isFinite (hhigh : high < 16) (hlow : low < 16) :
    (channel high low).isFinite = true := by
  obtain ⟨hzero, hone⟩ := channel_bounds hhigh hlow
  apply (channel_nearest hhigh hlow).isFinite_of_moderate
  rw [abs_of_nonneg hzero]
  linarith

theorem channel_mem_unit (hhigh : high < 16) (hlow : low < 16) :
    (0.0 : Float) ≤ channel high low ∧ channel high low ≤ 1.0 := by
  obtain ⟨hzero, hone⟩ := channel_bounds hhigh hlow
  have hnearest := channel_nearest hhigh hlow
  have hfinite := channel_isFinite hhigh hlow
  rw [le_iff_toReal rfl hfinite, le_iff_toReal hfinite rfl, toReal_zero]
  exact ⟨hnearest.nonneg hfinite hzero, hnearest.le_of_le hfinite rfl (by rwa [toReal_one])⟩

/-- Channels of different digits lie further apart than two roundings can bridge. -/
theorem channel_injective (hhigh : high < 16) (hlow : low < 16) (hhigh' : high' < 16)
    (hlow' : low' < 16) (h : channel high low = channel high' low') :
    high = high' ∧ low = low' := by
  have hnear {m n : Nat} (hm : m < 16) (hn : n < 16) :
      |toReal (channel m n) - (16 * m + n) / 255| ≤ grain := by
    obtain ⟨hzero, hone⟩ := channel_bounds hm hn
    refine ((channel_nearest hm hn).near (channel_isFinite hm hn)).trans (halfStep_le_grain ?_)
    rw [abs_of_nonneg hzero]
    linarith
  have hfirst := abs_le.mp (hnear hhigh hlow)
  have hsecond := abs_le.mp (hnear hhigh' hlow')
  rw [← h] at hsecond
  have hgrain : grain < 1 / 1020 := by norm_num [grain]
  have hclose : |((16 * high + low : ℤ) : ℝ) - (16 * high' + low' : ℤ)| < 1 := by
    rw [abs_lt]
    push_cast
    constructor <;> linarith [hfirst.1, hfirst.2, hsecond.1, hsecond.2]
  have hsame : (16 * high + low : ℤ) = 16 * high' + low' := by
    have hdiff : |(16 * high + low : ℤ) - (16 * high' + low')| < 1 := by exact_mod_cast hclose
    have hzero := Int.abs_lt_one_iff.mp hdiff
    omega
  omega

end Color

end Channels

namespace Color

section Spelling

/-- The colour of six hexadecimal digits. -/
def ofValues (values : Fin 6 → Nat) : Vec4 Float :=
  opaqueColor (channel (values 0) (values 1)) (channel (values 2) (values 3))
    (channel (values 4) (values 5))

/-- Nothing, or the mark alone. -/
def IsOptional (mark : CodePoint) (text : Text) : Prop := text = [] ∨ text = [mark]

/-- How a text writes a colour: six hexadecimal digits, perhaps behind a number sign, and perhaps
with a line break at the very end. -/
def Spells (text : Text) (values : Fin 6 → Nat) : Prop :=
  ∃ (sign : Text) (digits : Fin 6 → CodePoint) (last : Text),
    text = sign ++ List.ofFn digits ++ last ∧ IsOptional '#' sign ∧ IsOptional '\n' last ∧
      ∀ i, Text.IsHexDigit (digits i) (values i)

def ofSix? (digits : Fin 6 → CodePoint) : Option (Vec4 Float) :=
  ofDigits? (digits 0) (digits 1) (digits 2) (digits 3) (digits 4) (digits 5)

theorem ofSix?_eq_some {digits : Fin 6 → CodePoint} {c : Vec4 Float} :
    ofSix? digits = some c ↔
      ∃ values, (∀ i, Text.IsHexDigit (digits i) (values i)) ∧ c = ofValues values := by
  simp only [ofSix?, ofDigits?, channel?, Option.bind_eq_bind, Option.pure_def,
    Option.bind_eq_some_iff, Option.some.injEq, Text.hexDigit?_eq_some]
  constructor
  · rintro ⟨_, ⟨r1, h0, r2, h1, rfl⟩, _, ⟨g1, h2, g2, h3, rfl⟩, _, ⟨b1, h4, b2, h5, rfl⟩, rfl⟩
    refine ⟨![r1, r2, g1, g2, b1, b2], ?_, rfl⟩
    intro i
    fin_cases i
    exacts [h0, h1, h2, h3, h4, h5]
  · rintro ⟨values, hdigits, rfl⟩
    exact ⟨_, ⟨_, hdigits 0, _, hdigits 1, rfl⟩, _, ⟨_, hdigits 2, _, hdigits 3, rfl⟩,
      _, ⟨_, hdigits 4, _, hdigits 5, rfl⟩, rfl⟩

/-- Neither mark has a part in the colour. -/
theorem ofHex?_written {sign last : Text} (digits : Fin 6 → CodePoint)
    (hsign : IsOptional '#' sign) (hlast : IsOptional '\n' last) :
    ofHex? (sign ++ List.ofFn digits ++ last) = ofSix? digits := by
  rcases hsign with rfl | rfl
  · by_cases hfirst : digits 0 = '#'
    · -- The first of the six is taken for the mark; it would have been no digit either.
      have hnumber : Text.hexDigit? (CodePoint.ofChar '#').toNat = none := by decide
      have hbreak : Text.hexDigit? (CodePoint.ofChar '\n').toNat = none := by decide
      have hnone : ofSix? digits = none := by
        simp [ofSix?, ofDigits?, channel?, hfirst, hnumber]
      rw [hnone]
      rcases hlast with rfl | rfl
      · simp [ofHex?, withoutSign, hfirst]
      · simp [ofHex?, withoutSign, hfirst, ofDigits?, channel?, hbreak]
    · rcases hlast with rfl | rfl
      · simp [ofHex?, withoutSign, hfirst, ofSix?]
      · simp [ofHex?, withoutSign, hfirst, ofSix?]
  · rcases hlast with rfl | rfl
    · simp [ofHex?, withoutSign, ofSix?]
    · simp [ofHex?, withoutSign, ofSix?]

theorem exists_sign (text : Text) :
    ∃ sign, IsOptional '#' sign ∧ text = sign ++ withoutSign text := by
  cases text with
  | nil => exact ⟨[], Or.inl rfl, rfl⟩
  | cons first rest =>
      by_cases hfirst : first = '#'
      · exact ⟨['#'], Or.inr rfl, by simp [withoutSign, hfirst]⟩
      · exact ⟨[], Or.inl rfl, by simp [withoutSign, hfirst]⟩

theorem ofHex?_eq_some {text : Text} {c : Vec4 Float} :
    ofHex? text = some c ↔ ∃ values, Spells text values ∧ c = ofValues values := by
  constructor
  · intro h
    obtain ⟨sign, hsign, htext⟩ := exists_sign text
    obtain ⟨digits, last, hlast, hrest, hsix⟩ : ∃ digits last, IsOptional '\n' last ∧
        withoutSign text = List.ofFn digits ++ last ∧ ofSix? digits = some c := by
      unfold ofHex? at h
      split at h
      · rename_i r1 r2 g1 g2 b1 b2 hrest
        exact ⟨![r1, r2, g1, g2, b1, b2], [], Or.inl rfl, hrest, h⟩
      · rename_i r1 r2 g1 g2 b1 b2 last hrest
        split at h
        · rename_i hlast
          subst hlast
          exact ⟨![r1, r2, g1, g2, b1, b2], ['\n'], Or.inr rfl, hrest, h⟩
        · simp at h
      · simp at h
    obtain ⟨values, hvalues, rfl⟩ := ofSix?_eq_some.mp hsix
    refine ⟨values, ⟨sign, digits, last, ?_, hsign, hlast, hvalues⟩, rfl⟩
    rw [List.append_assoc, ← hrest, ← htext]
  · rintro ⟨values, ⟨sign, digits, last, rfl, hsign, hlast, hvalues⟩, rfl⟩
    rw [ofHex?_written digits hsign hlast]
    exact ofSix?_eq_some.mpr ⟨values, hvalues, rfl⟩

variable {text other : Text} {values others : Fin 6 → Nat}

theorem ofHex?_of_spells (h : Spells text values) : ofHex? text = some (ofValues values) :=
  ofHex?_eq_some.mpr ⟨values, h, rfl⟩

theorem ofHex?_eq_none : ofHex? text = none ↔ ¬ ∃ values, Spells text values := by
  simp only [Option.eq_none_iff_forall_ne_some, ne_eq, ofHex?_eq_some]
  grind

theorem Spells.lt (h : Spells text values) (i : Fin 6) : values i < 16 := by
  obtain ⟨_, digits, _, -, -, -, hvalues⟩ := h
  exact (hvalues i).lt

theorem ofValues_injective (hvalues : ∀ i, values i < 16) (hothers : ∀ i, others i < 16)
    (h : ofValues values = ofValues others) : values = others := by
  simp only [ofValues, opaqueColor, Vec4.mk.injEq, and_true] at h
  obtain ⟨hred, hgreen, hblue⟩ := h
  obtain ⟨h0, h1⟩ := channel_injective (hvalues 0) (hvalues 1) (hothers 0) (hothers 1) hred
  obtain ⟨h2, h3⟩ := channel_injective (hvalues 2) (hvalues 3) (hothers 2) (hothers 3) hgreen
  obtain ⟨h4, h5⟩ := channel_injective (hvalues 4) (hvalues 5) (hothers 4) (hothers 5) hblue
  funext i
  fin_cases i
  exacts [h0, h1, h2, h3, h4, h5]

/-- A text writes one colour, and two texts write the same one exactly with the same digits. -/
theorem ofHex?_eq_iff (h : Spells text values) (hother : Spells other others) :
    ofHex? text = ofHex? other ↔ values = others := by
  rw [ofHex?_of_spells h, ofHex?_of_spells hother, Option.some.injEq]
  constructor
  · exact ofValues_injective h.lt hother.lt
  · rintro rfl
    rfl

theorem ofValues_mem_unit (hvalues : ∀ i, values i < 16) :
    ∀ x ∈ (ofValues values).toList, (0.0 : Float) ≤ x ∧ x ≤ 1.0 := by
  have hone : (0.0 : Float) ≤ 1.0 ∧ (1.0 : Float) ≤ 1.0 := by decide +kernel
  intro x hx
  simp only [ofValues, opaqueColor, Vec4.toList, List.mem_cons, List.not_mem_nil, or_false] at hx
  rcases hx with rfl | rfl | rfl | rfl
  · exact channel_mem_unit (hvalues 0) (hvalues 1)
  · exact channel_mem_unit (hvalues 2) (hvalues 3)
  · exact channel_mem_unit (hvalues 4) (hvalues 5)
  · exact hone

theorem ofDigits?_lowered (r1 r2 g1 g2 b1 b2 : CodePoint) :
    ofDigits? r1.lowered r2.lowered g1.lowered g2.lowered b1.lowered b2.lowered =
      ofDigits? r1 r2 g1 g2 b1 b2 := by
  simp only [ofDigits?, channel?, Text.hexDigit?_lowered]

theorem withoutSign_lowered (text : Text) :
    withoutSign (text.map .lowered) = (withoutSign text).map .lowered := by
  have hmark : (CodePoint.ofChar '#').toNat < 'A'.toNat := by decide
  cases text with
  | nil => rfl
  | cons first rest =>
      by_cases hfirst : first = '#'
      · simp [withoutSign, hfirst, CodePoint.lowered_eq_iff hmark]
      · simp [withoutSign, hfirst, CodePoint.lowered_eq_iff hmark]

theorem ofHex?_lowered (text : Text) : ofHex? (text.map .lowered) = ofHex? text := by
  have hbreak : (CodePoint.ofChar '\n').toNat < 'A'.toNat := by decide
  unfold ofHex?
  rw [withoutSign_lowered]
  rcases withoutSign text with
    _ | ⟨a, _ | ⟨b, _ | ⟨c, _ | ⟨d, _ | ⟨e, _ | ⟨f, _ | ⟨g, _ | ⟨h, rest⟩⟩⟩⟩⟩⟩⟩⟩
  all_goals simp [ofDigits?_lowered, CodePoint.lowered_eq_iff hbreak]

end Spelling

end Color
end Meristem
