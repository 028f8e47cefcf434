import Meristem.Rules.Basic
import Mathlib.Data.List.Basic

/-!
Draws as a sequence. A source is known by the numbers it yields one after the other, and all that
growing and drawing do to it is to go forward in them. A symbol takes one number when it has rules
and none when it has not; when its draw is refused it takes none either.
-/

namespace Meristem

namespace DrawSource

variable {σ α : Type} [DrawSource σ α]

/-- The source after so many draws. -/
def advance (source : σ) : Nat → σ
  | 0 => source
  | n + 1 => advance (next source).2 n

/-- The number that is drawn after `n` others. -/
def number (source : σ) (n : Nat) : α := (next (advance source n)).1

@[simp] theorem advance_zero (source : σ) : advance source 0 = source := rfl

theorem advance_add (source : σ) (m n : Nat) :
    advance source (m + n) = advance (advance source m) n := by
  induction m generalizing source with
  | zero => simp
  | succ m ih =>
      have hcount : m + 1 + n = (m + n) + 1 := by omega
      rw [hcount]
      exact ih (next source).2

theorem number_advance (source : σ) (m n : Nat) :
    number (advance source m) n = number source (m + n) := by
  rw [number, number, advance_add]

end DrawSource

namespace Choices

variable {π α : Type} [Arith α]

/-- Whatever number is drawn, the payload it picks is one of the choices. -/
theorem exists_pick_mem (c : Choices π α) (u : α) : ∃ weight, (c.pick u, weight) ∈ c.toList := by
  unfold pick
  cases hpick : c.toList[c.index u]? with
  | none => exact ⟨c.first.2, by simp [toList]⟩
  | some chosen => exact ⟨chosen.2, List.mem_of_getElem? hpick⟩

/-- A single choice leaves nothing to the draw. -/
@[simp] theorem pick_only (payload : π) (weight u : α) : (only payload weight).pick u = payload := by
  obtain ⟨other, hmem⟩ := (only payload weight).exists_pick_mem u
  simp only [toList, only, List.mem_singleton, Prod.mk.injEq] at hmem
  exact hmem.1

end Choices

namespace RuleTable

variable {π α : Type}

/-- The table has a rule by which the symbol can draw this payload. -/
def Offers (t : RuleTable π α) (s : Symbol) (payload : π) : Prop :=
  ∃ choices weight, t.choices? s = some choices ∧ (payload, weight) ∈ choices.toList

/-- No symbol can draw two payloads. -/
def Decided (t : RuleTable π α) : Prop :=
  ∀ s first second, t.Offers s first → t.Offers s second → first = second

theorem decided_of_single {t : RuleTable π α}
    (h : ∀ s choices, t.choices? s = some choices → choices.others = []) : t.Decided := by
  rintro s first second ⟨choices, weight, hchoices, hfirst⟩ ⟨same, other, hsame, hsecond⟩
  obtain rfl : choices = same := Option.some.inj (hchoices.symm.trans hsame)
  have hlist : choices.toList = [choices.first] := by simp [Choices.toList, h s choices hchoices]
  rw [hlist, List.mem_singleton] at hfirst hsecond
  exact congrArg Prod.fst (hfirst.trans hsecond.symm)

/-- How many symbols of a word have rules. -/
def ruled (t : RuleTable π α) (word : Word) : Nat := word.countP t.contains

@[simp] theorem ruled_nil (t : RuleTable π α) : t.ruled [] = 0 := rfl

@[simp] theorem ruled_append (t : RuleTable π α) (first second : Word) :
    t.ruled (first ++ second) = t.ruled first + t.ruled second := by
  simp [ruled]

theorem ruled_cons (t : RuleTable π α) (s : Symbol) (word : Word) :
    t.ruled (s :: word) = t.ruled [s] + t.ruled word :=
  t.ruled_append [s] word

theorem contains_of_choices {t : RuleTable π α} {s : Symbol} {choices : Choices π α}
    (h : t.choices? s = some choices) : t.contains s = true := by
  simp [contains, h]

theorem not_contains_of_choices {t : RuleTable π α} {s : Symbol} (h : t.choices? s = none) :
    t.contains s = false := by
  simp [contains, h]

theorem ruled_of_choices {t : RuleTable π α} {s : Symbol} {choices : Choices π α}
    (h : t.choices? s = some choices) : t.ruled [s] = 1 := by
  simp [ruled, contains_of_choices h]

theorem ruled_of_none {t : RuleTable π α} {s : Symbol} (h : t.choices? s = none) :
    t.ruled [s] = 0 := by
  simp [ruled, not_contains_of_choices h]

variable [Arith α]

/-- The payload that a number picks for a symbol with rules. -/
def pick? (t : RuleTable π α) (s : Symbol) (u : α) : Option π := (t.choices? s).map (·.pick u)

/-- Whether the symbol has rules whose weights cannot be shared out, so that its draws are
refused. -/
def refuses (t : RuleTable π α) (s : Symbol) : Bool := (t.choices? s).any fun c => !c.covers

theorem offers_of_pick {t : RuleTable π α} {s : Symbol} {u : α} {payload : π}
    (h : t.pick? s u = some payload) : t.Offers s payload := by
  unfold pick? at h
  obtain ⟨choices, hchoices, rfl⟩ := Option.map_eq_some_iff.mp h
  obtain ⟨weight, hmem⟩ := choices.exists_pick_mem u
  exact ⟨choices, weight, hchoices, hmem⟩

end RuleTable

variable {π α σ : Type} [Arith α] [DrawSource σ α]

/-- A draw that is not refused takes one number, also when there is a single choice. -/
theorem Choices.draw_eq (c : Choices π α) (source : σ) :
    c.draw source =
      if c.covers = true then
        (.ok (c.pick (DrawSource.number source 0)), DrawSource.advance source 1)
      else (.error .uncoveredInterval, source) := rfl

end Meristem
