import Meristem.Proofs.Results
import Meristem.Proofs.Rules.Checking
import Meristem.Rules.Document

/-!
Which documents spell a rule table. A weight is spelled by a document that converts to a finite
number above zero, a payload by its name, a choice by a list of the two, and the choices of a
symbol by a list of choices or by a table from payloads to weights. A document is read as a table
exactly where it spells one: entry after entry, in the order of the document.
-/

namespace Meristem

/-- Payloads that are spelled as texts. -/
class SpelledPayload (π : Type) extends Payload π where
  spelling : π → Text
  read_eq_ok : ∀ {d : Document} {p : π}, read d = .ok p ↔ d = .text (spelling p)
  fails_of_ne : ∀ {d : Document}, (∀ p, d ≠ .text (spelling p)) → ∃ kind, read d = Checked.fail kind

/-- Any text is a word. -/
instance : SpelledPayload Word where
  spelling word := word
  read_eq_ok {d p} := by
    cases d with
    | text s =>
        rw [Document.text.injEq]
        exact Except.ok.injEq s p ▸ Iff.rfl
    | _ => simp [Payload.read, Document.asText, Checked.fail]
  fails_of_ne {d} h := by
    cases d with
    | text s => exact absurd rfl (h s)
    | _ => exact ⟨.notAText, rfl⟩

theorem Action.ofName?_eq_some {s : Text} {a : Action} :
    ofName? s = some a ↔ s = Text.ofString a.name := by
  constructor
  · intro h
    unfold ofName? at h
    have hname := List.find?_some h
    exact (of_decide_eq_true hname).symm
  · rintro rfl
    cases a with
    | branch => decide
    | leaf => decide
    | nothing => decide

/-- An action is spelled by its name. -/
instance : SpelledPayload Action where
  spelling a := Text.ofString a.name
  read_eq_ok {d a} := by
    cases d with
    | text s =>
        rw [Document.text.injEq, ← Action.ofName?_eq_some]
        simp only [Payload.read]
        cases Action.ofName? s with
        | some b => simp
        | none => simp [Checked.fail]
    | _ => simp [Payload.read, Checked.fail]
  fails_of_ne {d} h := by
    cases d with
    | text s =>
        have hunknown : Action.ofName? s = none := by
          rw [Option.eq_none_iff_forall_ne_some]
          intro a ha
          exact h a (congrArg Document.text (Action.ofName?_eq_some.mp ha))
        simp only [Payload.read, hunknown]
        exact ⟨_, rfl⟩
    | _ => exact ⟨.unknownAction, rfl⟩

namespace Document

/-- The document converts to a finite number above zero. -/
def SpellsWeight (d : Document) (w : Float) : Prop :=
  d.asReal = .ok w ∧ w.isFinite = true ∧ 0.0 < w

theorem asWeight_eq_ok {d : Document} {w : Float} : d.asWeight = .ok w ↔ d.SpellsWeight w := by
  unfold asWeight SpellsWeight
  cases d.asReal with
  | error problems => simp [Checked.require]
  | ok x =>
      simp only [Checked.require, Except.ok.injEq]
      split
      · rename_i hweight
        rw [Bool.and_eq_true, decide_eq_true_eq] at hweight
        constructor
        · rintro h
          obtain rfl := Except.ok.inj h
          exact ⟨rfl, hweight⟩
        · rintro ⟨rfl, -⟩
          rfl
      · rename_i hweight
        rw [Bool.and_eq_true, decide_eq_true_eq] at hweight
        constructor
        · intro h
          exact absurd h (by simp [Checked.fail])
        · rintro ⟨rfl, h⟩
          exact absurd h hweight

theorem asText_eq_ok {d : Document} {s : Text} : d.asText = .ok s ↔ d = .text s := by
  cases d with
  | text t => rw [asText, Except.ok.injEq, text.injEq]
  | _ => simp [asText, Checked.fail]

end Document

namespace RuleTable

theorem exists_mem_of_forall₂ {β γ : Type} {R : β → γ → Prop} {xs : List β} {ys : List γ}
    (h : List.Forall₂ R xs ys) {x : β} (hx : x ∈ xs) : ∃ y ∈ ys, R x y := by
  induction h with
  | nil => exact absurd hx (by simp)
  | @cons first y rest ys hfirst hrest ih =>
      rcases List.mem_cons.mp hx with rfl | hx
      · exact ⟨y, List.mem_cons_self, hfirst⟩
      · obtain ⟨z, hz, hspelled⟩ := ih hx
        exact ⟨z, List.mem_cons_of_mem y hz, hspelled⟩

variable {π : Type}

/-- The choices of a symbol as a list: a table stands for the list of its entries. -/
inductive Itemizes : Document → List Document → Prop where
  | table (entries : Document.Entries) :
      Itemizes (.table entries) (entries.map fun entry => .list [entry.1, entry.2])
  | list (items : List Document) : Itemizes (.list items) items

theorem pairsOf_eq_ok {d : Document} {items : List Document} :
    pairsOf d = .ok items ↔ Itemizes d items := by
  constructor
  · intro h
    cases d with
    | table entries =>
        obtain rfl := Except.ok.inj h
        exact .table entries
    | list given =>
        obtain rfl := Except.ok.inj h
        exact .list given
    | _ => simp [pairsOf, Checked.fail] at h
  · intro h
    cases h with
    | table entries => rfl
    | list items => rfl

theorem Itemizes.unique {d : Document} {items others : List Document} (h : Itemizes d items)
    (h' : Itemizes d others) : items = others := by
  rw [← pairsOf_eq_ok] at h h'
  exact Except.ok.inj (h.symm.trans h')

section Spelling

variable [SpelledPayload π]

open SpelledPayload (spelling)

/-- A choice is a list of a payload and a weight. -/
inductive SpellsPair : Document → π × Float → Prop where
  | pair (p : π) {weight : Document} {w : Float} (h : weight.SpellsWeight w) :
      SpellsPair (.list [.text (spelling p), weight]) (p, w)

/-- The document spells these choices, in this order. -/
def SpellsChoices (d : Document) (choices : List (π × Float)) : Prop :=
  ∃ items, Itemizes d items ∧ List.Forall₂ SpellsPair items choices

/-- The entry spells the rule of one code point, with at least one choice. -/
def SpellsEntry (entry : Document × Document) (rule : Symbol × Choices π Float) : Prop :=
  entry.1 = .text [rule.1] ∧ SpellsChoices entry.2 rule.2.toList

theorem readPair_two (payload weight : Document) :
    readPair (π := π) (.list [payload, weight]) =
      (Checked.supply (.ok Prod.mk) ((Payload.read payload).under (.index 0))).supply
        (weight.asWeight.under (.index 1)) := rfl

theorem readPair_eq_ok {d : Document} {choice : π × Float} :
    readPair d = .ok choice ↔ SpellsPair d choice := by
  constructor
  · intro h
    match d, h with
    | .list [payload, weight], h =>
        rw [readPair_two, Checked.pair_eq_ok, Checked.under_eq_ok, Checked.under_eq_ok,
          SpelledPayload.read_eq_ok, Document.asWeight_eq_ok] at h
        rw [h.1]
        exact .pair _ h.2
    | .list [], h => simp [readPair, Checked.fail] at h
    | .list [_], h => simp [readPair, Checked.fail] at h
    | .list (_ :: _ :: _ :: _), h => simp [readPair, Checked.fail] at h
  · intro h
    cases h with
    | pair p h =>
        rw [readPair_two, Checked.pair_eq_ok, Checked.under_eq_ok, Checked.under_eq_ok,
          SpelledPayload.read_eq_ok, Document.asWeight_eq_ok]
        exact ⟨rfl, h⟩

/-- What is read at each position of a list is read of the document there. -/
theorem forall₂_mapIdx_under {β : Type} {read : Document → Checked β} {step : Nat → PathStep}
    {items : List Document} {vs : List β} :
    List.Forall₂ (fun c v => c = .ok v) (items.mapIdx fun i d => (read d).under (step i)) vs ↔
      List.Forall₂ (fun d v => read d = .ok v) items vs := by
  induction items generalizing vs step with
  | nil => simp
  | cons d rest ih =>
      simp only [List.mapIdx_cons, List.forall₂_cons_left_iff, Checked.under_eq_ok]
      simp only [ih]

theorem readChoices_eq_ok {d : Document} {choices : List (π × Float)} :
    readChoices d = .ok choices ↔ SpellsChoices d choices := by
  unfold readChoices SpellsChoices
  cases hitems : pairsOf d with
  | error problems =>
      have hnone : ∀ items, ¬ Itemizes d items := by
        intro items h
        rw [← pairsOf_eq_ok, hitems] at h
        exact absurd h (by simp)
      simp [hnone, bind, Except.bind]
  | ok items =>
      rw [pairsOf_eq_ok] at hitems
      have hsame (others : List Document) : Itemizes d others ↔ others = items :=
        ⟨fun h => h.unique hitems, fun h => h ▸ hitems⟩
      simp only [bind, Except.bind, Checked.all_eq_ok, forall₂_mapIdx_under, readPair_eq_ok, hsame,
        exists_eq_left]

theorem SpellsChoices.unique {d : Document} {choices others : List (π × Float)}
    (h : SpellsChoices d choices) (h' : SpellsChoices d others) : choices = others := by
  rw [← readChoices_eq_ok] at h h'
  exact Except.ok.inj (h.symm.trans h')

theorem readEntries_eq_ok {entries : Document.Entries} {raw : List (Text × List (π × Float))} :
    readEntries entries = .ok raw ↔
      List.Forall₂ (fun entry rule => entry.1 = .text rule.1 ∧ SpellsChoices entry.2 rule.2)
        entries raw := by
  simp only [readEntries, Checked.all_eq_ok, List.forall₂_map_left_iff, Document.readEntry,
    Checked.under_eq_ok, Checked.pair_eq_ok, Document.asText_eq_ok, readChoices_eq_ok]

end Spelling

theorem entryOf_eq_ok {symbol : Text} {choices : List (π × Float)}
    {rule : Symbol × Choices π Float} :
    entryOf symbol choices = .ok rule ↔ symbol = [rule.1] ∧ choices = rule.2.toList := by
  obtain ⟨s, c⟩ := rule
  match symbol, choices with
  | [], _ => simp [entryOf]
  | [_], [] => simp [entryOf, Choices.ofList?, Choices.toList]
  | [_], first :: others =>
      cases c with
      | mk first' others' => simp [entryOf, Choices.ofList?, Choices.toList]
  | _ :: _ :: _, _ => simp [entryOf]

/-- A rule as it is spelled: its symbol as a text and its choices as a list. -/
def plain (rule : Symbol × Choices π Float) : Text × List (π × Float) := ([rule.1], rule.2.toList)

theorem ofEntries_eq_ok {raw : List (Text × List (π × Float))} {t : RuleTable π Float} :
    ofEntries raw = .ok t ↔ raw = t.entries.map plain := by
  have hplain : (raw.mapM fun entry => entryOf entry.1 entry.2) = .ok t.entries ↔
      raw = t.entries.map plain := by
    rw [mapM_eq_ok, ← List.forall₂_eq_eq_eq, List.forall₂_map_right_iff]
    simp only [entryOf_eq_ok, plain, Prod.ext_iff]
  rw [← hplain, ofEntries]
  cases raw.mapM fun entry => entryOf entry.1 entry.2 with
  | error fault => simp [Except.map]
  | ok rules =>
      simp only [Except.map, Except.ok.injEq]
      exact ⟨fun h => h ▸ rfl, fun h => h ▸ rfl⟩

/-- The weights that a document spells are finite and above zero. -/
theorem weights_of_spelled [SpelledPayload π] {d : Document} {choices : List (π × Float)}
    (h : SpellsChoices d choices) {choice : π × Float} (hchoice : choice ∈ choices) :
    choice.2.isFinite = true ∧ 0.0 < choice.2 := by
  obtain ⟨items, -, hitems⟩ := h
  obtain ⟨item, -, hitem⟩ := exists_mem_of_forall₂ hitems.flip hchoice
  cases hitem with
  | pair p h => exact h.2

/-- A document is read as the table that it spells. -/
theorem ofDocument_eq_ok [SpelledPayload π] {entries : Document.Entries} {t : RuleTable π Float} :
    ofDocument (.table entries) = .ok t ↔ List.Forall₂ SpellsEntry entries t.entries := by
  have hspelled : readEntries entries = .ok (t.entries.map plain) ↔
      List.Forall₂ SpellsEntry entries t.entries := by
    rw [readEntries_eq_ok, List.forall₂_map_right_iff]
    exact Iff.rfl
  rw [← hspelled, ofDocument, Checked.under_eq_ok]
  cases readEntries (π := π) entries with
  | error problems => simp [bind, Except.bind]
  | ok raw =>
      simp only [bind, Except.bind, Except.ok.injEq]
      rw [← ofEntries_eq_ok]
      cases ofEntries raw with
      | error fault => simp [Checked.fail]
      | ok table => simp only [Except.ok.injEq]

end RuleTable
end Meristem
