import Meristem.Proofs.Rules.Reading

/-!
Where a rule table fails to be read. A key that is no text, choices that are neither a list nor a
table, a choice that is no list of two, a payload without a meaning, a weight that does not
convert: each is a problem at its place, and all of them are reported in the order of the document.
The symbols are looked at only when there is no such problem, and then the first that cannot be
ruled is reported alone.
-/

namespace Meristem

namespace Document

theorem asReal_cases (d : Document) :
    (∃ x, d.asReal = .ok x) ∨ ∃ kind, d.asReal = Checked.fail kind := by
  cases d with
  | real x => exact Or.inl ⟨x, rfl⟩
  | bool b => exact Or.inl ⟨_, rfl⟩
  | int n =>
      simp only [asReal]
      split
      · exact Or.inl ⟨_, rfl⟩
      · exact Or.inr ⟨_, rfl⟩
  | text s =>
      simp only [asReal]
      split
      · exact Or.inr ⟨_, rfl⟩
      · exact Or.inr ⟨_, rfl⟩
      · exact Or.inl ⟨_, rfl⟩
  | null => exact Or.inr ⟨_, rfl⟩
  | list items => exact Or.inr ⟨_, rfl⟩
  | table entries => exact Or.inr ⟨_, rfl⟩

theorem asWeight_cases (d : Document) :
    (∃ w, d.asWeight = .ok w) ∨ ∃ kind, d.asWeight = Checked.fail kind := by
  unfold asWeight
  rcases d.asReal_cases with ⟨x, hx⟩ | ⟨kind, hkind⟩
  · simp only [hx, Checked.require]
    split
    · exact Or.inl ⟨x, rfl⟩
    · exact Or.inr ⟨_, rfl⟩
  · rw [hkind]
    exact Or.inr ⟨kind, rfl⟩

theorem asText_eq_fail {d : Document} {kind : ProblemKind} :
    d.asText = Checked.fail kind ↔ (∀ s, d ≠ .text s) ∧ kind = .notAText := by
  cases d with
  | text s => simp [asText, Checked.fail]
  | _ => simp [asText, Checked.fail, eq_comm]

theorem asText_cases (d : Document) :
    (∃ s, d.asText = .ok s) ∨ ∃ kind, d.asText = Checked.fail kind := by
  by_cases h : ∃ s, d = .text s
  · obtain ⟨s, rfl⟩ := h
    exact Or.inl ⟨s, rfl⟩
  · exact Or.inr ⟨_, asText_eq_fail.mpr ⟨fun s hs => h ⟨s, hs⟩, rfl⟩⟩

end Document

theorem SpelledPayload.read_cases {π : Type} [SpelledPayload π] (d : Document) :
    (∃ p : π, Payload.read d = .ok p) ∨ ∃ kind, Payload.read (π := π) d = Checked.fail kind := by
  by_cases h : ∃ p : π, d = .text (spelling p)
  · obtain ⟨p, hp⟩ := h
    exact Or.inl ⟨p, read_eq_ok.mpr hp⟩
  · exact Or.inr (fails_of_ne fun p hp => h ⟨p, hp⟩)

namespace RuleTable

open Checked (Reports)

/-- What is wrong with a choice, and at which of its parts. -/
inductive PairFails (π : Type) [Payload π] : Document → List Nat → Problem → Prop where
  | notAList {d : Document} (h : ∀ parts, d ≠ .list parts) : PairFails π d [] ⟨[], .notATuple⟩
  | surplus {parts : List Document} (h : 2 < parts.length) :
      PairFails π (.list parts) [] ⟨[], .tooLong⟩
  | absent {parts : List Document} {k : Nat} (hk : k < 2) (h : parts[k]? = none) :
      PairFails π (.list parts) [k] ⟨[.index k], .missing⟩
  | payload {parts : List Document} {part : Document} {kind : ProblemKind}
      (hlength : parts.length ≤ 2) (hpart : parts[0]? = some part)
      (h : Payload.read (π := π) part = Checked.fail kind) :
      PairFails π (.list parts) [0] ⟨[.index 0], kind⟩
  | weight {parts : List Document} {part : Document} {kind : ProblemKind}
      (hlength : parts.length ≤ 2) (hpart : parts[1]? = some part)
      (h : part.asWeight = Checked.fail kind) :
      PairFails π (.list parts) [1] ⟨[.index 1], kind⟩

/-- What is wrong with the choices of a symbol. -/
inductive ChoicesFail (π : Type) [Payload π] (d : Document) : List Nat → Problem → Prop where
  | notAList (h : ∀ items, ¬ Itemizes d items) : ChoicesFail π d [] ⟨[], .notAList⟩
  | choice {items : List Document} {j : Nat} {item : Document} {place : List Nat} {p : Problem}
      (hitems : Itemizes d items) (hitem : items[j]? = some item) (h : PairFails π item place p) :
      ChoicesFail π d (j :: place) { p with path := .index j :: p.path }

/-- What is wrong with an entry of the table. Its key is its first part. -/
inductive EntryFails (π : Type) [Payload π] (entry : Document × Document) :
    List Nat → Problem → Prop where
  | key (h : ∀ s, entry.1 ≠ .text s) :
      EntryFails π entry [0] ⟨[entry.1.keyStep, .key "[key]"], .notAText⟩
  | choices {place : List Nat} {p : Problem} (h : ChoicesFail π entry.2 place p) :
      EntryFails π entry (1 :: place) { p with path := entry.1.keyStep :: p.path }

/-- What is wrong with the parts of a table. -/
inductive TableFails (π : Type) [Payload π] (entries : Document.Entries) :
    List Nat → Problem → Prop where
  | entry {i : Nat} {entry : Document × Document} {place : List Nat} {p : Problem}
      (hentry : entries[i]? = some entry) (h : EntryFails π entry place p) :
      TableFails π entries (i :: place) { p with path := .key "rules" :: p.path }

section Reports

variable {π : Type} [SpelledPayload π]

/-- One part of a choice: it may be absent, or fail to be read. -/
theorem reports_part {β : Type} {read : Document → Checked β}
    (hread : ∀ d, (∃ v, read d = .ok v) ∨ ∃ kind, read d = Checked.fail kind)
    (parts : List Document) (k : Nat) :
    Reports ((match parts[k]? with
        | some part => read part
        | none => Checked.fail .missing).under (.index k)) fun place p =>
      place = [] ∧ ((parts[k]? = none ∧ p = ⟨[.index k], .missing⟩) ∨
        ∃ part kind, parts[k]? = some part ∧ read part = Checked.fail kind ∧
          p = ⟨[.index k], kind⟩) := by
  cases hpart : parts[k]? with
  | none =>
      refine ((Reports.fail .missing).under (.index k)).congr fun place p => ?_
      simp
  | some part =>
      refine ((Reports.leaf (hread part)).under (.index k)).congr fun place p => ?_
      constructor
      · rintro ⟨q, ⟨rfl, kind, hkind, rfl⟩, rfl⟩
        exact ⟨rfl, Or.inr ⟨part, kind, rfl, hkind, rfl⟩⟩
      · rintro ⟨rfl, ⟨habsent, -⟩ | ⟨_, kind, hsome, hkind, rfl⟩⟩
        · exact absurd habsent (by simp)
        · obtain rfl := Option.some.inj hsome
          exact ⟨_, ⟨rfl, kind, hkind, rfl⟩, rfl⟩

theorem readPair_list (parts : List Document) :
    readPair (π := π) (.list parts) =
      if 2 < parts.length then Checked.fail .tooLong
      else (Checked.supply (.ok Prod.mk)
        ((match parts[0]? with
          | some part => Payload.read part
          | none => Checked.fail .missing).under (.index (0 : Nat)))).supply
        ((match parts[1]? with
          | some part => part.asWeight
          | none => Checked.fail .missing).under (.index (1 : Nat))) := rfl

theorem reports_readPair (d : Document) : Reports (readPair (π := π) d) (PairFails π d) := by
  by_cases hlist : ∃ parts, d = .list parts
  · obtain ⟨parts, rfl⟩ := hlist
    rw [readPair_list]
    split
    · rename_i hsurplus
      refine (Reports.fail .tooLong).congr fun place p => ?_
      constructor
      · rintro ⟨rfl, rfl⟩
        exact .surplus hsurplus
      · intro h
        cases h with
        | notAList h => exact absurd rfl (h parts)
        | surplus h => exact ⟨rfl, rfl⟩
        | absent hk h =>
            rw [List.getElem?_eq_none_iff] at h
            omega
        | payload hlength hpart h => omega
        | weight hlength hpart h => omega
    · rename_i hlength
      rw [Nat.not_lt] at hlength
      refine ((reports_part SpelledPayload.read_cases parts 0).pair
        (reports_part Document.asWeight_cases parts 1)).congr fun place p => ?_
      constructor
      · rintro (⟨_, rfl, rfl, ⟨habsent, rfl⟩ | ⟨part, kind, hpart, hkind, rfl⟩⟩ |
          ⟨_, rfl, rfl, ⟨habsent, rfl⟩ | ⟨part, kind, hpart, hkind, rfl⟩⟩)
        · exact .absent Nat.zero_lt_two habsent
        · exact .payload hlength hpart hkind
        · exact .absent Nat.one_lt_two habsent
        · exact .weight hlength hpart hkind
      · intro h
        cases h with
        | notAList h => exact absurd rfl (h parts)
        | surplus h => omega
        | @absent _ k hk h =>
            match k, hk with
            | 0, _ => exact Or.inl ⟨[], rfl, rfl, Or.inl ⟨h, rfl⟩⟩
            | 1, _ => exact Or.inr ⟨[], rfl, rfl, Or.inl ⟨h, rfl⟩⟩
        | payload hlength hpart h =>
            exact Or.inl ⟨[], rfl, rfl, Or.inr ⟨_, _, hpart, h, rfl⟩⟩
        | weight hlength hpart h =>
            exact Or.inr ⟨[], rfl, rfl, Or.inr ⟨_, _, hpart, h, rfl⟩⟩
  · have hread : readPair (π := π) d = Checked.fail .notATuple := by
      cases d with
      | list parts => exact absurd ⟨parts, rfl⟩ hlist
      | _ => rfl
    rw [hread]
    refine (Reports.fail .notATuple).congr fun place p => ?_
    constructor
    · rintro ⟨rfl, rfl⟩
      exact .notAList fun parts h => hlist ⟨parts, h⟩
    · intro h
      cases h with
      | notAList h => exact ⟨rfl, rfl⟩
      | _ => exact absurd ⟨_, rfl⟩ hlist

theorem reports_readChoices (d : Document) :
    Reports (readChoices (π := π) d) (ChoicesFail π d) := by
  unfold readChoices
  cases hitems : pairsOf d with
  | error problems =>
      have hnone : ∀ items, ¬ Itemizes d items := by
        intro items h
        rw [← pairsOf_eq_ok, hitems] at h
        exact absurd h (by simp)
      have hfail : (.error problems : Checked (List (π × Float))) = Checked.fail .notAList := by
        cases d with
        | table entries => exact absurd hitems (by simp [pairsOf])
        | list items => exact absurd hitems (by simp [pairsOf])
        | _ => exact congrArg Except.error (Except.error.inj hitems).symm
      change Reports (Except.error problems) _
      rw [hfail]
      refine (Reports.fail .notAList).congr fun place p => ?_
      constructor
      · rintro ⟨rfl, rfl⟩
        exact .notAList hnone
      · intro h
        cases h with
        | notAList h => exact ⟨rfl, rfl⟩
        | choice hitems _ _ => exact absurd hitems (hnone _)
  | ok items =>
      rw [pairsOf_eq_ok] at hitems
      change Reports (Checked.all _) _
      have hall : ∀ (i : Nat) (c : Checked (π × Float)),
          (items.mapIdx fun j pair => (readPair pair).under (.index j))[i]? = some c →
          Reports c fun place p => ∃ item q, items[i]? = some item ∧ PairFails π item place q ∧
            p = { q with path := .index i :: q.path } := by
        intro i c hc
        rw [List.getElem?_mapIdx, Option.map_eq_some_iff] at hc
        obtain ⟨item, hitem, rfl⟩ := hc
        refine ((reports_readPair item).under (.index i)).congr fun place p => ?_
        simp [hitem]
      refine (Reports.all hall).congr fun place p => ?_
      constructor
      · rintro ⟨i, -, rest, rfl, item, q, hitem, hfails, rfl⟩
        exact .choice hitems hitem hfails
      · intro h
        cases h with
        | notAList h => exact absurd hitems (h items)
        | @choice others i item rest q hother hitem hfails =>
            obtain rfl := hother.unique hitems
            have hi : i < others.length := (List.getElem?_eq_some_iff.mp hitem).1
            exact ⟨i, by simpa using hi, rest, rfl, item, q, hitem, hfails, rfl⟩

theorem reports_readEntry (entry : Document × Document) :
    Reports (Document.readEntry (readChoices (π := π)) entry) (EntryFails π entry) := by
  have hkey := (Reports.leaf entry.1.asText_cases).under (.key "[key]")
  refine ((hkey.pair (reports_readChoices entry.2)).under entry.1.keyStep).congr fun place p => ?_
  constructor
  · rintro ⟨q, ⟨_, rfl, _, ⟨rfl, kind, hkind, rfl⟩, rfl⟩ | ⟨rest, rfl, hfails⟩, rfl⟩
    · obtain ⟨hkey, rfl⟩ := Document.asText_eq_fail.mp hkind
      exact .key hkey
    · exact .choices hfails
  · intro h
    cases h with
    | key h =>
        have hkind := Document.asText_eq_fail.mpr ⟨h, rfl⟩
        exact ⟨_, Or.inl ⟨[], rfl, _, ⟨rfl, _, hkind, rfl⟩, rfl⟩, rfl⟩
    | @choices rest q h => exact ⟨q, Or.inr ⟨rest, rfl, h⟩, rfl⟩

theorem reports_readEntries (entries : Document.Entries) :
    Reports ((readEntries (π := π) entries).under (.key "rules")) (TableFails π entries) := by
  have hall : ∀ (i : Nat) (c : Checked (Text × List (π × Float))),
      (entries.map (Document.readEntry readChoices))[i]? = some c →
      Reports c fun place p => ∃ entry, entries[i]? = some entry ∧ EntryFails π entry place p := by
    intro i c hc
    rw [List.getElem?_map, Option.map_eq_some_iff] at hc
    obtain ⟨entry, hentry, rfl⟩ := hc
    refine (reports_readEntry entry).congr fun place p => ?_
    simp [hentry]
  refine ((Reports.all hall).under (.key "rules")).congr fun place p => ?_
  constructor
  · rintro ⟨q, ⟨i, -, rest, rfl, entry, hentry, hfails⟩, rfl⟩
    exact .entry hentry hfails
  · intro h
    cases h with
    | @entry i entry rest q hentry hfails =>
        have hi : i < entries.length := (List.getElem?_eq_some_iff.mp hentry).1
        exact ⟨q, ⟨i, by simpa using hi, rest, rfl, entry, hentry, hfails⟩, rfl⟩

/-- As long as some part of the table fails, all that is reported is which parts fail. -/
theorem ofDocument_of_fails {entries : Document.Entries} {place : List Nat} {p : Problem}
    (h : TableFails π entries place p) :
    ∃ placed : List (List Nat × Problem),
      ofDocument (π := π) (.table entries) = .error (placed.map (·.2)) ∧
      placed.Pairwise (fun a b => a.1 < b.1) ∧ ∀ x, x ∈ placed ↔ TableFails π entries x.1 x.2 := by
  obtain ⟨placed, hfinds, hsorted, hmem⟩ := reports_readEntries (π := π) entries
  refine ⟨placed, ?_, hsorted, hmem⟩
  have hne : placed.map (·.2) ≠ [] := by
    rw [ne_eq, List.map_eq_nil_iff]
    exact List.ne_nil_of_mem ((hmem (place, p)).mpr h)
  have herror := hfinds.eq_error hne
  cases hread : readEntries (π := π) entries with
  | error problems =>
      rw [hread] at herror
      rw [ofDocument, hread]
      exact congrArg Except.error (Except.error.inj herror)
  | ok raw =>
      rw [hread] at herror
      exact absurd herror (by simp [Checked.under])

/-- If no part fails, every symbol is a text and its choices can be read. -/
theorem exists_raw_of_not_fails {entries : Document.Entries}
    (h : ∀ place p, ¬ TableFails π entries place p) :
    ∃ raw : List (Text × List (π × Float)), readEntries entries = .ok raw := by
  obtain ⟨placed, hfinds, -, hmem⟩ := reports_readEntries (π := π) entries
  have hnone : placed = [] := by
    rw [List.eq_nil_iff_forall_not_mem]
    exact fun x hx => h _ _ ((hmem x).mp hx)
  rw [hnone, List.map_nil] at hfinds
  obtain ⟨raw, hraw⟩ := hfinds.exists_eq_ok
  exact ⟨raw, Checked.under_eq_ok.mp hraw⟩

end Reports

section Symbols

variable {π : Type} [SpelledPayload π]

/-- Why an entry whose parts can all be read makes no rule. -/
inductive Unruled : Document × Document → SymbolFault → Prop where
  | notOneCharacter {symbol : Text} {value : Document} (h : symbol.length ≠ 1) :
      Unruled (.text symbol, value) (.notOneCharacter symbol)
  | noChoices {c : Symbol} {value : Document} (h : Itemizes value []) :
      Unruled (.text [c], value) (.noChoices [c])

theorem entryOf_eq_error {symbol : Text} {value : Document} {choices : List (π × Float)}
    {fault : SymbolFault} (hvalue : SpellsChoices value choices) :
    entryOf symbol choices = .error fault ↔ Unruled (.text symbol, value) fault := by
  obtain ⟨items, hitems, hchoices⟩ := hvalue
  match symbol, choices, hchoices with
  | [], _, _ =>
      simp only [entryOf, Except.error.injEq]
      constructor
      · rintro rfl
        exact .notOneCharacter (by simp)
      · intro h
        cases h with
        | notOneCharacter h => rfl
  | [c], [], .nil =>
      simp only [entryOf, Choices.ofList?, Except.error.injEq]
      constructor
      · rintro rfl
        exact .noChoices hitems
      · intro h
        cases h with
        | notOneCharacter h => exact absurd rfl h
        | noChoices h => rfl
  | [c], first :: others, .cons _ _ =>
      simp only [entryOf, Choices.ofList?]
      constructor
      · intro h
        exact absurd h (by simp)
      · intro h
        cases h with
        | notOneCharacter h => exact absurd rfl h
        | noChoices h => exact absurd (hitems.unique h) (by simp)
  | _ :: _ :: _, _, _ =>
      simp only [entryOf, Except.error.injEq]
      constructor
      · rintro rfl
        exact .notOneCharacter (by simp)
      · intro h
        cases h with
        | notOneCharacter h => rfl

/-- An entry whose parts are read makes the rule that it spells. -/
theorem entryOf_eq_ok_iff {entry : Document × Document} {read : Text × List (π × Float)}
    (hread : entry.1 = .text read.1 ∧ SpellsChoices entry.2 read.2)
    {rule : Symbol × Choices π Float} :
    entryOf read.1 read.2 = .ok rule ↔ SpellsEntry entry rule := by
  rw [entryOf_eq_ok]
  constructor
  · rintro ⟨hsymbol, hchoices⟩
    rwa [hsymbol, hchoices] at hread
  · rintro ⟨hsymbol, hchoices⟩
    exact ⟨Document.text.inj (hread.1.symm.trans hsymbol), hread.2.unique hchoices⟩

/-- The rules are made in the order of the entries, up to the first that cannot be made. -/
theorem mapM_entryOf_eq_error {entries : Document.Entries} {raw : List (Text × List (π × Float))}
    (hraw : List.Forall₂ (fun entry rule => entry.1 = .text rule.1 ∧ SpellsChoices entry.2 rule.2)
      entries raw) {fault : SymbolFault} :
    (raw.mapM fun entry => entryOf entry.1 entry.2) = .error fault ↔
      ∃ before entry after, entries = before ++ entry :: after ∧
        (∀ e ∈ before, ∃ rule : Symbol × Choices π Float, SpellsEntry e rule) ∧
        Unruled entry fault := by
  induction hraw with
  | nil => simp [pure, Except.pure]
  | @cons entry read entries raw hread hrest ih =>
      have herror (d : SymbolFault) : entryOf read.1 read.2 = .error d ↔ Unruled entry d := by
        rw [entryOf_eq_error hread.2, ← hread.1]
      rw [mapM_cons_eq]
      constructor
      · intro h
        cases hfirst : entryOf read.1 read.2 with
        | error d =>
            rw [hfirst] at h
            obtain rfl := Except.error.inj h
            exact ⟨[], entry, entries, rfl, by simp, (herror d).mp hfirst⟩
        | ok rule =>
            rw [hfirst] at h
            cases hlater : raw.mapM fun entry => entryOf entry.1 entry.2 with
            | error d =>
                rw [hlater] at h
                obtain rfl := Except.error.inj h
                obtain ⟨before, y, after, rfl, hbefore, hy⟩ := ih.mp hlater
                refine ⟨entry :: before, y, after, rfl, ?_, hy⟩
                rw [List.forall_mem_cons]
                exact ⟨⟨rule, (entryOf_eq_ok_iff hread).mp hfirst⟩, hbefore⟩
            | ok rules =>
                rw [hlater] at h
                exact absurd h (by simp [Except.map])
      · rintro ⟨before, y, after, hsplit, hbefore, hy⟩
        cases before with
        | nil =>
            obtain ⟨rfl, rfl⟩ := List.cons.inj hsplit
            rw [(herror fault).mpr hy]
        | cons z before =>
            obtain ⟨rfl, rfl⟩ := List.cons.inj hsplit
            rw [List.forall_mem_cons] at hbefore
            obtain ⟨⟨rule, hrule⟩, hbefore⟩ := hbefore
            rw [(entryOf_eq_ok_iff hread).mpr hrule, ih.mpr ⟨before, y, after, rfl, hbefore, hy⟩]
            rfl

/-- If no part fails, the first symbol that cannot be ruled is reported alone. -/
theorem ofDocument_of_not_fails {entries : Document.Entries}
    (hnone : ∀ place p, ¬ TableFails π entries place p) {problems : List Problem} :
    ofDocument (π := π) (.table entries) = .error problems ↔
      ∃ before entry after fault, entries = before ++ entry :: after ∧
        (∀ e ∈ before, ∃ rule : Symbol × Choices π Float, SpellsEntry e rule) ∧
        Unruled entry fault ∧ problems = [⟨[.key "rules"], .refused (some fault.message)⟩] := by
  obtain ⟨raw, hraw⟩ := exists_raw_of_not_fails hnone
  have hspelled := readEntries_eq_ok.mp hraw
  have hresult : ofDocument (π := π) (.table entries) = .error problems ↔
      ∃ fault, (raw.mapM fun entry => entryOf entry.1 entry.2) = .error fault ∧
        problems = [⟨[.key "rules"], .refused (some fault.message)⟩] := by
    rw [ofDocument, hraw]
    simp only [bind, Except.bind, ofEntries]
    cases raw.mapM fun entry => entryOf entry.1 entry.2 with
    | error fault => simp [Except.map, Checked.under, Checked.fail, eq_comm]
    | ok rules => simp [Except.map, Checked.under]
  rw [hresult]
  simp only [mapM_entryOf_eq_error hspelled]
  constructor
  · rintro ⟨fault, ⟨before, entry, after, hentries, hbefore, hentry⟩, rfl⟩
    exact ⟨before, entry, after, fault, hentries, hbefore, hentry, rfl⟩
  · rintro ⟨before, entry, after, fault, hentries, hbefore, hentry, rfl⟩
    exact ⟨fault, ⟨before, entry, after, hentries, hbefore, hentry⟩, rfl⟩

end Symbols

end RuleTable
end Meristem
