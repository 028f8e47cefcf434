import Meristem.Proofs.Rules.Failures
import Mathlib.Data.List.Nodup

/-!
Rule tables as they are asked. A table holds the symbols of the document it is read from, in their
order, and gives for each of them the choices that stand at it, and for nothing else anything.
Which of its two spellings the choices of a symbol have makes no difference, neither to a table
that is read nor to what is reported of one that is not.
-/

namespace Meristem
namespace RuleTable

open SpelledPayload (spelling)

variable {π : Type}

theorem exists_forall₂_iff {β γ : Type} {R : β → γ → Prop} {xs : List β} :
    (∃ ys, List.Forall₂ R xs ys) ↔ ∀ x ∈ xs, ∃ y, R x y := by
  induction xs with
  | nil => exact ⟨fun _ => by simp, fun _ => ⟨[], .nil⟩⟩
  | cons x rest ih =>
      rw [List.forall_mem_cons, ← ih]
      constructor
      · rintro ⟨_, hfirst | ⟨hfirst, hrest⟩⟩
        exact ⟨⟨_, hfirst⟩, _, hrest⟩
      · rintro ⟨⟨y, hfirst⟩, ys, hrest⟩
        exact ⟨y :: ys, .cons hfirst hrest⟩

theorem contains_iff_mem {t : RuleTable π Float} {c : Symbol} :
    t.contains c = true ↔ c ∈ t.symbols := by
  simp [contains, choices?, symbols, List.find?_isSome]

/-- Symbols that are all different find the choices that stand at them. -/
theorem choices?_of_mem {t : RuleTable π Float} (hnodup : t.symbols.Nodup)
    {rule : Symbol × Choices π Float} (hrule : rule ∈ t.entries) :
    t.choices? rule.1 = some rule.2 := by
  cases hfound : t.entries.find? fun entry => entry.1 = rule.1 with
  | none =>
      rw [List.find?_eq_none] at hfound
      exact absurd (hfound rule hrule) (by simp)
  | some found =>
      have hsame := List.find?_some hfound
      rw [decide_eq_true_eq] at hsame
      obtain rfl := List.inj_on_of_nodup_map hnodup (List.mem_of_find?_eq_some hfound) hrule hsame
      rw [choices?, hfound, Option.map_some]

section Asking

variable [SpelledPayload π] {entries : Document.Entries} {t : RuleTable π Float}

/-- The entry is a rule: its key is one code point, and it has at least one choice, each of them a
payload and a weight. -/
structure Admissible (π : Type) [SpelledPayload π] (entry : Document × Document) : Prop where
  symbol : ∃ c, entry.1 = .text [c]
  choices : ∃ items, Itemizes entry.2 items ∧ items ≠ [] ∧ ∀ item ∈ items,
    ∃ (p : π) (weight : Document) (w : Float),
      item = .list [.text (spelling p), weight] ∧ weight.SpellsWeight w

theorem spellsPair_iff {d : Document} {choice : π × Float} :
    SpellsPair d choice ↔
      ∃ weight, d = .list [.text (spelling choice.1), weight] ∧ weight.SpellsWeight choice.2 := by
  constructor
  · intro h
    cases h with
    | pair p h => exact ⟨_, rfl, h⟩
  · rintro ⟨weight, rfl, h⟩
    exact .pair choice.1 h

theorem exists_spelled_iff {items : List Document} :
    (∃ choices : List (π × Float), List.Forall₂ SpellsPair items choices) ↔
      ∀ item ∈ items, ∃ (p : π) (weight : Document) (w : Float),
        item = .list [.text (spelling p), weight] ∧ weight.SpellsWeight w := by
  rw [exists_forall₂_iff]
  simp only [spellsPair_iff]
  constructor
  · intro h item hitem
    obtain ⟨choice, weight, hspells⟩ := h item hitem
    exact ⟨choice.1, weight, choice.2, hspells⟩
  · intro h item hitem
    obtain ⟨p, weight, w, hspells⟩ := h item hitem
    exact ⟨(p, w), weight, hspells⟩

theorem exists_spellsEntry_iff {entry : Document × Document} :
    (∃ rule : Symbol × Choices π Float, SpellsEntry entry rule) ↔ Admissible π entry := by
  constructor
  · rintro ⟨rule, hsymbol, items, hitems, hchoices⟩
    refine ⟨⟨rule.1, hsymbol⟩, items, hitems, ?_, exists_spelled_iff.mp ⟨_, hchoices⟩⟩
    rintro rfl
    exact absurd hchoices (by simp [Choices.toList])
  · rintro ⟨⟨c, hsymbol⟩, items, hitems, hne, hspelled⟩
    obtain ⟨choices, hchoices⟩ := exists_spelled_iff.mpr hspelled
    cases hchoices with
    | nil => exact absurd rfl hne
    | cons hfirst hothers =>
        exact ⟨(c, ⟨_, _⟩), hsymbol, _, hitems, .cons hfirst hothers⟩

theorem exists_ofDocument_iff :
    (∃ t : RuleTable π Float, ofDocument (.table entries) = .ok t) ↔
      ∀ entry ∈ entries, Admissible π entry := by
  simp only [ofDocument_eq_ok, ← exists_spellsEntry_iff, ← exists_forall₂_iff]
  exact ⟨fun ⟨t, ht⟩ => ⟨t.entries, ht⟩, fun ⟨rules, h⟩ => ⟨⟨rules⟩, h⟩⟩

/-- The symbols of a table are the keys of its document. -/
theorem symbols_of_spelled (h : List.Forall₂ SpellsEntry entries t.entries) :
    entries.map (·.1) = t.symbols.map fun c => .text [c] := by
  rw [symbols, List.map_map, ← List.forall₂_eq_eq_eq, List.forall₂_map_left_iff,
    List.forall₂_map_right_iff]
  exact h.imp fun _ _ hentry => hentry.1

theorem contains_iff_spelled (h : List.Forall₂ SpellsEntry entries t.entries) {c : Symbol} :
    t.contains c = true ↔ ∃ entry ∈ entries, entry.1 = .text [c] := by
  have hkeys :
      (∃ entry ∈ entries, entry.1 = .text [c]) ↔ Document.text [c] ∈ entries.map (·.1) := by
    simp
  rw [hkeys, symbols_of_spelled h, contains_iff_mem]
  simp

theorem key_eq_symbol {d : Document} {c : Symbol} :
    Key.ofDocument? d = some (.symbol c) ↔ d = .text [c] := by
  constructor
  · intro h
    unfold Key.ofDocument? at h
    split at h
    · rw [Option.some.injEq, Key.symbol.injEq] at h
      rw [h]
    · split at h
      · exact absurd h (by simp)
      · exact absurd h (by simp)
  · rintro rfl
    rfl

/-- A table contains the keys of its document and no others. -/
theorem containsKey_iff_spelled (h : List.Forall₂ SpellsEntry entries t.entries) {key : Key} :
    t.containsKey key = true ↔ ∃ entry ∈ entries, Key.ofDocument? entry.1 = some key := by
  cases key with
  | symbol c => simp only [containsKey, contains_iff_spelled h, key_eq_symbol]
  | other shown =>
      refine iff_of_false (by simp [containsKey]) ?_
      rintro ⟨entry, hentry, hkey⟩
      obtain ⟨⟨c, hsymbol⟩, -⟩ :=
        exists_ofDocument_iff.mp ⟨t, ofDocument_eq_ok.mpr h⟩ entry hentry
      rw [hsymbol] at hkey
      exact absurd hkey (by simp [Key.ofDocument?])

/-- The keys of a document are different, and so are the symbols of its table. -/
theorem nodup_symbols (h : List.Forall₂ SpellsEntry entries t.entries)
    (hkeys : entries.Pairwise fun a b => a.1.sameKey b.1 = false) : t.symbols.Nodup := by
  have hpairwise : (entries.map (·.1)).Pairwise fun a b => a.sameKey b = false := by
    rwa [List.pairwise_map]
  rw [symbols_of_spelled h, List.pairwise_map] at hpairwise
  exact hpairwise.imp fun hdiffer hsame => by simp [Document.sameKey, hsame] at hdiffer

/-- A key of the document finds the choices that stand at it. -/
theorem choicesFor_of_spelled (h : List.Forall₂ SpellsEntry entries t.entries)
    (hkeys : entries.Pairwise fun a b => a.1.sameKey b.1 = false) {entry : Document × Document}
    (hentry : entry ∈ entries) {key : Key} (hkey : Key.ofDocument? entry.1 = some key) :
    ∃ choices, t.choicesFor key = .ok choices ∧ SpellsChoices entry.2 choices.toList := by
  obtain ⟨rule, hrule, hsymbol, hchoices⟩ := exists_mem_of_forall₂ h hentry
  rw [hsymbol] at hkey
  obtain rfl := Option.some.inj hkey
  refine ⟨rule.2, ?_, hchoices⟩
  have hfound := choices?_of_mem (nodup_symbols h hkeys) hrule
  simp only [choicesFor, choicesOf, hfound]

/-- What messages show of a key. -/
def Key.shown : Key → String
  | .symbol c => Text.quoted [c]
  | .other shown => shown

/-- Anything but the keys of the document has no rules. -/
theorem choicesFor_of_not_spelled (h : List.Forall₂ SpellsEntry entries t.entries) {key : Key}
    (hkey : ∀ entry ∈ entries, Key.ofDocument? entry.1 ≠ some key) :
    t.choicesFor key = .error (.noRules key.shown) := by
  have hcontains : ¬ t.containsKey key = true := by
    rw [containsKey_iff_spelled h]
    rintro ⟨entry, hentry, hsame⟩
    exact hkey entry hentry hsame
  cases key with
  | symbol c =>
      have hnone : t.choices? c = none := by
        simpa [containsKey, contains] using hcontains
      simp only [choicesFor, choicesOf, hnone, Key.shown]
  | other shown => rfl

/-- What a table that is read from a document answers. -/
structure Holds (t : RuleTable π Float) (entries : Document.Entries) : Prop where
  symbols : entries.map (·.1) = t.symbols.map fun c => .text [c]
  contains : ∀ key, t.containsKey key = true ↔ ∃ entry ∈ entries, Key.ofDocument? entry.1 = some key
  choices : ∀ entry ∈ entries, ∀ key, Key.ofDocument? entry.1 = some key →
    ∃ choices, t.choicesFor key = .ok choices ∧ SpellsChoices entry.2 choices.toList
  nothing : ∀ key, (∀ entry ∈ entries, Key.ofDocument? entry.1 ≠ some key) →
    t.choicesFor key = .error (.noRules key.shown)

theorem holds_of_ofDocument (h : ofDocument (.table entries) = .ok t)
    (hkeys : entries.Pairwise fun a b => a.1.sameKey b.1 = false) : t.Holds entries := by
  rw [ofDocument_eq_ok] at h
  exact ⟨symbols_of_spelled h, fun _ => containsKey_iff_spelled h,
    fun _ hentry _ hkey => choicesFor_of_spelled h hkeys hentry hkey,
    fun _ hkey => choicesFor_of_not_spelled h hkey⟩

/-- The same entry, with its choices as they were or in their other spelling. -/
structure Respells (entry other : Document × Document) : Prop where
  key : entry.1 = other.1
  value : entry.2 = other.2 ∨ ∃ items, Itemizes entry.2 items ∧ Itemizes other.2 items

theorem readChoices_respelled {entry other : Document × Document} (h : Respells entry other) :
    readChoices (π := π) entry.2 = readChoices other.2 := by
  rcases h.value with hsame | ⟨items, hitems, hothers⟩
  · rw [hsame]
  · unfold readChoices
    rw [pairsOf_eq_ok.mpr hitems, pairsOf_eq_ok.mpr hothers]

theorem ofDocument_respelled {others : Document.Entries}
    (h : List.Forall₂ Respells entries others) :
    ofDocument (π := π) (.table entries) = ofDocument (.table others) := by
  have hread : entries.map (Document.readEntry (readChoices (π := π))) =
      others.map (Document.readEntry readChoices) := by
    rw [← List.forall₂_eq_eq_eq, List.forall₂_map_left_iff, List.forall₂_map_right_iff]
    refine h.imp fun entry other hentry => ?_
    rw [Document.readEntry, Document.readEntry, hentry.key, readChoices_respelled hentry]
  rw [ofDocument, ofDocument, readEntries, readEntries, hread]

/-- A table of rules is read exactly where all its entries are rules, whichever way their choices
are spelled, and it then holds them in their order. Where some part fails, every part that fails is
reported at its place, in the order of the places: entry by entry, choice by choice, the payload
before the weight. The symbols are not looked at then; otherwise the first of them that is more or
less than one code point, or has no choice, is reported alone. -/
theorem ofDocument_exact (hkeys : entries.Pairwise fun a b => a.1.sameKey b.1 = false) :
    ((∃ t : RuleTable π Float, ofDocument (.table entries) = .ok t) ↔
      ∀ entry ∈ entries, Admissible π entry) ∧
    (∀ t : RuleTable π Float, ofDocument (.table entries) = .ok t → t.Holds entries) ∧
    (∀ others, List.Forall₂ Respells entries others →
      ofDocument (π := π) (.table others) = ofDocument (.table entries)) ∧
    ((∃ place p, TableFails π entries place p) →
      ∃ placed : List (List Nat × Problem),
        ofDocument (π := π) (.table entries) = .error (placed.map (·.2)) ∧
        placed.Pairwise (fun a b => a.1 < b.1) ∧
        ∀ x, x ∈ placed ↔ TableFails π entries x.1 x.2) ∧
    ((∀ place p, ¬ TableFails π entries place p) → ∀ problems,
      ofDocument (π := π) (.table entries) = .error problems ↔
        ∃ before entry after fault, entries = before ++ entry :: after ∧
          (∀ e ∈ before, Admissible π e) ∧ Unruled entry fault ∧
          problems = [⟨[.key "rules"], .refused (some fault.message)⟩]) := by
  refine ⟨exists_ofDocument_iff, fun t ht => holds_of_ofDocument ht hkeys,
    fun others h => (ofDocument_respelled h).symm, ?_, ?_⟩
  · rintro ⟨place, p, h⟩
    exact ofDocument_of_fails h
  · intro hnone problems
    rw [ofDocument_of_not_fails hnone]
    simp only [exists_spellsEntry_iff]

end Asking

/-- Rules in both spellings. -/
def mixed : Document.Entries :=
  [(.text ['F'], .table [(.text ['F', 'X'], .int 3), (.text [], .bool true)]),
    (.text ['X'], .list [.list [.text ['X'], .real 0.5]])]

theorem read_mixed :
    (mixed.Pairwise fun a b => a.1.sameKey b.1 = false) ∧
    ∃ t : ExpansionRules Float, ofDocument (.table mixed) = .ok t ∧
      t.containsKey (.symbol 'X') = true ∧
      ofDocument (.table
        [(.text ['F'], .list [.list [.text ['F', 'X'], .int 3], .list [.text [], .bool true]]),
          (.text ['X'], .table [(.text ['X'], .real 0.5)])]) = .ok t := by
  have hkeys : mixed.Pairwise fun a b => a.1.sameKey b.1 = false := by decide
  obtain ⟨haccepts, hholds, hrespelled, -, -⟩ := ofDocument_exact (π := Word) hkeys
  have hthree : (Document.int 3).SpellsWeight (floatOfInt 3) := ⟨rfl, rfl, by decide⟩
  have htrue : (Document.bool true).SpellsWeight 1.0 := ⟨rfl, rfl, by decide⟩
  have hhalf : (Document.real 0.5).SpellsWeight 0.5 := ⟨rfl, rfl, by decide⟩
  have hadmissible : ∀ entry ∈ mixed, Admissible Word entry := by
    intro entry hentry
    simp only [mixed, List.mem_cons, List.not_mem_nil, or_false] at hentry
    rcases hentry with rfl | rfl
    · refine ⟨⟨'F', rfl⟩, _, .table _, by simp, ?_⟩
      rw [List.map_cons, List.map_cons, List.map_nil, List.forall_mem_cons,
        List.forall_mem_singleton]
      exact ⟨⟨['F', 'X'], _, _, rfl, hthree⟩, [], _, _, rfl, htrue⟩
    · refine ⟨⟨'X', rfl⟩, _, .list _, by simp, ?_⟩
      rw [List.forall_mem_singleton]
      exact ⟨['X'], _, _, rfl, hhalf⟩
  obtain ⟨t, ht⟩ := haccepts.mpr hadmissible
  refine ⟨hkeys, t, ht, ?_, ?_⟩
  · exact ((hholds t ht).contains _).mpr ⟨_, List.mem_cons_of_mem _ List.mem_cons_self, rfl⟩
  · rw [← ht]
    refine hrespelled _ (.cons ⟨rfl, Or.inr ⟨_, .table _, .list _⟩⟩ (.cons ⟨rfl, Or.inr ?_⟩ .nil))
    exact ⟨_, .list _, .table _⟩

end RuleTable
end Meristem
