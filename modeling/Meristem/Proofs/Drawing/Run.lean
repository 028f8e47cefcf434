import Meristem.Proofs.Drawing.Trail
import Meristem.Proofs.Instances
import Meristem.Random.Generator
import Mathlib.Data.Set.Card

/-!
Runs that return a plant, seen symbol by symbol. A run passes the symbol at `i` when a walk over
the word up to it, and one symbol further, ends well; in a run that returns every symbol is
passed. The buffers of the plant hold the records that the passages add, in their order.
-/

namespace Meristem

/-- What a drawing leaves records of. -/
inductive Organ where
  | segment
  | leaf
deriving DecidableEq, Repr

namespace Organ

def action : Organ → Action
  | segment => .branch
  | leaf => .leaf

def command (o : Organ) : Command := .stroke (.act o.action)

variable {α : Type}

def records (o : Organ) (w : Walk α) : InstanceBuffer α :=
  match o with
  | segment => w.branches
  | leaf => w.leaves

def stored (o : Organ) (p : Plant α) : InstanceBuffer α :=
  match o with
  | segment => p.branches
  | leaf => p.leaves

theorem records_start (o : Organ) (root : Turtle α) [Arith α] :
    o.records (.start root) = .ofList [] := by
  cases o with
  | segment => rfl
  | leaf => rfl

theorem stored_mk (o : Organ) (symbols : Word) (w : Walk α) :
    o.stored ⟨symbols, w.branches, w.leaves⟩ = o.records w := by
  cases o with
  | segment => rfl
  | leaf => rfl

/-- Whether the turtle draws one when it is asked to. -/
def grows [Arith α] (o : Organ) (t : Turtle α) : Bool :=
  match o with
  | segment => t.isVisible
  | leaf => t.bearsLeaf

end Organ

namespace Pen

variable {α σ : Type} [Scalar α] [DrawSource σ α]

/-- A branch action draws one segment if the turtle is visible, and otherwise leaves everything as
it is. -/
theorem obey_branch_eq_ok {pen : Pen α} {index : Nat} {w next : Walk α}
    (h : pen.obey index (.stroke (.act .branch)) w = .ok next) :
    (w.current.isVisible = false ∧ next = w) ∨
      (w.current.isVisible = true ∧ ∃ t r,
        aimed (!w.parents.isEmpty || w.begun) w.current = .ok t ∧
        record t t.scale pen.branchColor = .ok r ∧
        next = ⟨t.move, w.parents, w.branches.append r, w.leaves, true⟩) := by
  obtain ⟨k, hk, rfl⟩ := pen.obey_stroke_eq_ok h
  rcases Sketch.branch_eq_ok hk with ⟨hsmall, rfl⟩ | ⟨hvisible, t, r, ht, hr, rfl⟩
  · exact Or.inl ⟨hsmall, rfl⟩
  · exact Or.inr ⟨hvisible, t, r, ht, hr, rfl⟩

theorem obey_leaf_eq_ok {pen : Pen α} {index : Nat} {w next : Walk α}
    (h : pen.obey index (.stroke (.act .leaf)) w = .ok next) :
    (w.current.bearsLeaf = false ∧ next = w) ∨
      (w.current.bearsLeaf = true ∧ ∃ r,
        record w.current leafScale pen.leafColor = .ok r ∧
        next = { w with leaves := w.leaves.append r }) := by
  obtain ⟨k, hk, rfl⟩ := pen.obey_stroke_eq_ok h
  rcases Sketch.leaf_eq_ok hk with ⟨hbare, rfl⟩ | ⟨hbears, r, hr, rfl⟩
  · exact Or.inl ⟨hbare, rfl⟩
  · exact Or.inr ⟨hbears, r, hr, rfl⟩

theorem obey_turn_eq_ok {pen : Pen α} {index : Nat} {positive : Bool} {w next : Walk α}
    (h : pen.obey index (.stroke (.turn positive)) w = .ok next) :
    ∃ t, turned (if positive then 1.0 else -1.0) w.current = .ok t ∧
      next = { w with current := t } := by
  obtain ⟨k, hk, rfl⟩ := pen.obey_stroke_eq_ok h
  simp only [Sketch.stroke, Sketch.turn] at hk
  cases hturned : turned (if positive then 1.0 else -1.0) w.sketch.turtle with
  | error e => simp [hturned, bind, Except.bind] at hk
  | ok t =>
      simp only [hturned, bind, Except.bind, pure, Except.pure, Except.ok.injEq] at hk
      exact ⟨t, hturned, by rw [← hk]; rfl⟩

/-- An action leaves one record of its kind if the turtle is fit for it, and otherwise leaves
everything as it is. -/
theorem obey_organ_eq_ok {pen : Pen α} {o : Organ} {index : Nat} {w next : Walk α}
    (h : pen.obey index o.command w = .ok next) :
    (o.grows w.current = false ∧ next = w) ∨
      (o.grows w.current = true ∧ ∃ r, o.records next = (o.records w).append r) := by
  cases o with
  | segment =>
      rcases obey_branch_eq_ok h with hskipped | ⟨hvisible, t, r, -, -, rfl⟩
      · exact Or.inl hskipped
      · exact Or.inr ⟨hvisible, r, rfl⟩
  | leaf =>
      rcases obey_leaf_eq_ok h with hskipped | ⟨hbears, r, -, rfl⟩
      · exact Or.inl hskipped
      · exact Or.inr ⟨hbears, r, rfl⟩

/-- What draws nothing leaves the records and the flag as they are. -/
theorem obey_undrawn {pen : Pen α} {index : Nat} {c : Command} {w next : Walk α}
    (hbranch : c ≠ Organ.segment.command) (hleaf : c ≠ Organ.leaf.command)
    (h : pen.obey index c w = .ok next) :
    next.branches = w.branches ∧ next.leaves = w.leaves ∧ next.begun = w.begun := by
  cases c with
  | enter =>
      obtain ⟨child, -, rfl⟩ := Walk.openGroup_eq_ok h
      exact ⟨rfl, rfl, rfl⟩
  | leave =>
      obtain ⟨parent, others, -, rfl⟩ := Walk.closeGroup_eq_ok h
      exact ⟨rfl, rfl, rfl⟩
  | stroke s =>
      cases s with
      | act action =>
          cases action with
          | branch => exact absurd rfl hbranch
          | leaf => exact absurd rfl hleaf
          | nothing =>
              obtain rfl : w = next := Except.ok.inj h
              exact ⟨rfl, rfl, rfl⟩
      | turn positive =>
          obtain ⟨t, -, rfl⟩ := obey_turn_eq_ok h
          exact ⟨rfl, rfl, rfl⟩
      | rest =>
          obtain rfl : w = next := Except.ok.inj h
          exact ⟨rfl, rfl, rfl⟩

theorem records_of_obey {pen : Pen α} {o : Organ} {index : Nat} {c : Command}
    {w next : Walk α} (hc : c ≠ o.command) (h : pen.obey index c w = .ok next) :
    o.records next = o.records w := by
  cases o with
  | segment =>
      by_cases hleaf : c = Organ.leaf.command
      · subst hleaf
        rcases obey_leaf_eq_ok h with ⟨-, rfl⟩ | ⟨-, r, -, rfl⟩
        · rfl
        · rfl
      · exact (obey_undrawn hc hleaf h).1
  | leaf =>
      by_cases hbranch : c = Organ.segment.command
      · subst hbranch
        rcases obey_branch_eq_ok h with ⟨-, rfl⟩ | ⟨-, t, r, -, -, rfl⟩
        · rfl
        · rfl
      · exact (obey_undrawn hbranch hc h).2.1

theorem begun_of_obey {pen : Pen α} {index : Nat} {c : Command} {w next : Walk α}
    (hc : c ≠ Organ.segment.command) (h : pen.obey index c w = .ok next) :
    next.begun = w.begun := by
  by_cases hleaf : c = Organ.leaf.command
  · subst hleaf
    rcases obey_leaf_eq_ok h with ⟨-, rfl⟩ | ⟨-, r, -, rfl⟩
    · rfl
    · rfl
  · exact (obey_undrawn hc hleaf h).2.2

/-- The run of a pen over a word from `root` comes to the symbol at `i` in one state and leaves it
in another. -/
structure Passes (pen : Pen α) (symbols : Word) (root : Turtle α) (source : σ) (i : Nat)
    (before after : Walk α) : Prop where
  inside : i < symbols.length
  comes : (pen.walk 0 (symbols.take i) (.start root) source).1 = .ok before
  leaves : (pen.walk 0 (symbols.take (i + 1)) (.start root) source).1 = .ok after

variable {pen : Pen α} {symbols : Word} {root : Turtle α} {source rest : σ}
  {commands : List Command}

/-- The states of a walk over a word that can be read are those of its commands. -/
theorem walk_take_eq_ok_iff (hread : pen.read symbols source = (.ok commands, rest)) (i : Nat)
    (w : Walk α) :
    (pen.walk 0 (symbols.take i) (.start root) source).1 = .ok w ↔
      pen.stateAt root commands i = .ok w := by
  obtain ⟨left, hstart⟩ := pen.read_take hread i
  constructor
  · intro h
    obtain ⟨others, hothers, hfollow⟩ := (pen.walk_eq_ok_iff 0 _ _ w source _).mp (Prod.ext h rfl)
    rw [hstart] at hothers
    obtain rfl : commands.take i = others := by simpa using congrArg Prod.fst hothers
    exact hfollow
  · intro h
    have hwalk := (pen.walk_eq_ok_iff 0 _ _ w source left).mpr ⟨_, hstart, h⟩
    rw [hwalk]

theorem Passes.states (hread : pen.read symbols source = (.ok commands, rest)) {i : Nat}
    {before after : Walk α} (h : pen.Passes symbols root source i before after) :
    pen.stateAt root commands i = .ok before ∧ pen.stateAt root commands (i + 1) = .ok after :=
  ⟨(walk_take_eq_ok_iff hread i before).mp h.comes,
    (walk_take_eq_ok_iff hread (i + 1) after).mp h.leaves⟩

theorem Passes.exists_command (hread : pen.read symbols source = (.ok commands, rest)) {i : Nat}
    {before after : Walk α} (h : pen.Passes symbols root source i before after) :
    ∃ c, commands[i]? = some c := by
  have hinside : i < commands.length := by
    rw [pen.read_length hread]
    exact h.inside
  exact ⟨commands[i], List.getElem?_eq_getElem hinside⟩

theorem Passes.le_length (hread : pen.read symbols source = (.ok commands, rest)) {i : Nat}
    {before after : Walk α} (h : pen.Passes symbols root source i before after) :
    i ≤ commands.length := by
  rw [pen.read_length hread]
  exact Nat.le_of_lt h.inside

/-- To pass a symbol is to carry out its command. -/
theorem Passes.obey (hread : pen.read symbols source = (.ok commands, rest)) {i : Nat}
    {c : Command} {before after : Walk α} (h : pen.Passes symbols root source i before after)
    (hc : commands[i]? = some c) : pen.obey i c before = .ok after := by
  obtain ⟨hbefore, hafter⟩ := h.states hread
  obtain ⟨w, hw, hobey⟩ := (pen.stateAt_succ_eq_ok_iff root commands hc after).mp hafter
  obtain rfl : before = w := by simpa [hbefore] using hw
  exact hobey

theorem passes_of_obey (hread : pen.read symbols source = (.ok commands, rest)) {i : Nat}
    {c : Command} {before after : Walk α} (hc : commands[i]? = some c)
    (hbefore : pen.stateAt root commands i = .ok before)
    (hobey : pen.obey i c before = .ok after) :
    pen.Passes symbols root source i before after := by
  obtain ⟨hi, -⟩ := List.getElem?_eq_some_iff.mp hc
  have hafter : pen.stateAt root commands (i + 1) = .ok after :=
    (pen.stateAt_succ_eq_ok_iff root commands hc after).mpr ⟨before, hbefore, hobey⟩
  refine ⟨?_, (walk_take_eq_ok_iff hread i before).mpr hbefore,
    (walk_take_eq_ok_iff hread (i + 1) after).mpr hafter⟩
  rw [← pen.read_length hread]
  exact hi

theorem exists_passes (hread : pen.read symbols source = (.ok commands, rest)) {final : Walk α}
    (hfollow : pen.follow 0 commands (.start root) = .ok final) {i : Nat}
    (hi : i < symbols.length) :
    ∃ before after, pen.Passes symbols root source i before after := by
  obtain ⟨before, hbefore⟩ := pen.exists_stateAt root commands hfollow i
  obtain ⟨after, hafter⟩ := pen.exists_stateAt root commands hfollow (i + 1)
  exact ⟨before, after, hi, (walk_take_eq_ok_iff hread i before).mpr hbefore,
    (walk_take_eq_ok_iff hread (i + 1) after).mpr hafter⟩

theorem Passes.unique {i : Nat} {before after other next : Walk α}
    (h : pen.Passes symbols root source i before after)
    (hother : pen.Passes symbols root source i other next) : before = other ∧ after = next := by
  have hcomes := h.comes.symm.trans hother.comes
  have hleaves := h.leaves.symm.trans hother.leaves
  exact ⟨by simpa using hcomes, by simpa using hleaves⟩

/-- The run leaves the record `r` when it passes the symbol at `i`. -/
def Adds (pen : Pen α) (o : Organ) (symbols : Word) (root : Turtle α) (source : σ) (i : Nat)
    (r : Instance α) : Prop :=
  ∃ before after, pen.Passes symbols root source i before after ∧
    o.records after = (o.records before).append r

theorem Passes.not_adds_of_kept {o : Organ} {i : Nat} {before after : Walk α}
    (h : pen.Passes symbols root source i before after)
    (hkept : o.records after = o.records before) (r : Instance α) :
    ¬ pen.Adds o symbols root source i r := by
  rintro ⟨other, next, hother, hgrown⟩
  obtain ⟨rfl, rfl⟩ := h.unique hother
  rw [hkept] at hgrown
  exact InstanceBuffer.append_ne_self _ _ hgrown.symm

theorem Passes.adds_iff {o : Organ} {i : Nat} {before after : Walk α} {r : Instance α}
    (h : pen.Passes symbols root source i before after)
    (hgrown : o.records after = (o.records before).append r) (s : Instance α) :
    pen.Adds o symbols root source i s ↔ s = r := by
  constructor
  · rintro ⟨other, next, hother, hsame⟩
    obtain ⟨rfl, rfl⟩ := h.unique hother
    exact InstanceBuffer.append_injective (hsame.symm.trans hgrown)
  · rintro rfl
    exact ⟨before, after, h, hgrown⟩

theorem Passes.kept_or_grown (hread : pen.read symbols source = (.ok commands, rest)) {i : Nat}
    {before after : Walk α} (h : pen.Passes symbols root source i before after) (o : Organ) :
    o.records after = o.records before ∨
      ∃ r, o.records after = (o.records before).append r := by
  obtain ⟨c, hc⟩ := h.exists_command hread
  have hobey := h.obey hread hc
  by_cases horgan : c = o.command
  · subst horgan
    rcases obey_organ_eq_ok hobey with ⟨-, rfl⟩ | ⟨-, r, hr⟩
    · exact Or.inl rfl
    · exact Or.inr ⟨r, hr⟩
  · exact Or.inl (records_of_obey horgan hobey)

/-- Only the action for a kind of record leaves one. -/
theorem Adds.command_eq (hread : pen.read symbols source = (.ok commands, rest)) {o : Organ}
    {i : Nat} {r : Instance α} (h : pen.Adds o symbols root source i r) :
    commands[i]? = some o.command := by
  obtain ⟨before, after, hpass, -⟩ := id h
  obtain ⟨c, hc⟩ := hpass.exists_command hread
  by_cases horgan : c = o.command
  · rw [hc, horgan]
  · have hkept := records_of_obey horgan (hpass.obey hread hc)
    exact absurd h (hpass.not_adds_of_kept hkept r)

/-- The records of one kind that the symbols of a stretch leave, each with the place of its symbol
in the stretch, in their order. -/
structure Block (pen : Pen α) (o : Organ) (symbols : Word) (root : Turtle α) (source : σ)
    (start length : Nat) (marks : List (Nat × Instance α)) : Prop where
  sorted : marks.Pairwise fun first second => first.1 < second.1
  mem_iff : ∀ j r, (j, r) ∈ marks ↔ j < length ∧ pen.Adds o symbols root source (start + j) r

namespace Block

variable {o : Organ} {start length : Nat} {marks : List (Nat × Instance α)}
  {before after : Walk α}

theorem empty : pen.Block o symbols root source start 0 [] where
  sorted := List.Pairwise.nil
  mem_iff := by simp

theorem kept (h : pen.Block o symbols root source start length marks)
    (hpass : pen.Passes symbols root source (start + length) before after)
    (hkept : o.records after = o.records before) :
    pen.Block o symbols root source start (length + 1) marks where
  sorted := h.sorted
  mem_iff := by
    intro j r
    rw [h.mem_iff, Nat.lt_succ_iff_lt_or_eq]
    constructor
    · rintro ⟨hj, hr⟩
      exact ⟨Or.inl hj, hr⟩
    · rintro ⟨hj | rfl, hr⟩
      · exact ⟨hj, hr⟩
      · exact absurd hr (hpass.not_adds_of_kept hkept r)

theorem grown (h : pen.Block o symbols root source start length marks)
    (hpass : pen.Passes symbols root source (start + length) before after) {r : Instance α}
    (hgrown : o.records after = (o.records before).append r) :
    pen.Block o symbols root source start (length + 1) (marks ++ [(length, r)]) where
  sorted := by
    rw [List.pairwise_append]
    refine ⟨h.sorted, List.pairwise_singleton _ _, ?_⟩
    intro first hfirst last hlast
    obtain rfl := List.mem_singleton.mp hlast
    exact ((h.mem_iff _ _).mp hfirst).1
  mem_iff := by
    intro j s
    rw [List.mem_append, h.mem_iff, Nat.lt_succ_iff_lt_or_eq, List.mem_singleton, Prod.mk.injEq]
    constructor
    · rintro (⟨hj, hs⟩ | ⟨rfl, rfl⟩)
      · exact ⟨Or.inl hj, hs⟩
      · exact ⟨Or.inr rfl, before, after, hpass, hgrown⟩
    · rintro ⟨hj | rfl, hs⟩
      · exact Or.inl ⟨hj, hs⟩
      · exact Or.inr ⟨rfl, (hpass.adds_iff hgrown s).mp hs⟩

/-- There is one list of the records of a stretch. -/
theorem unique {others : List (Nat × Instance α)}
    (h : pen.Block o symbols root source start length marks)
    (hother : pen.Block o symbols root source start length others) : marks = others := by
  let before (first second : Nat × Instance α) : Prop := first.1 < second.1
  have : Std.Irrefl before := ⟨fun mark => Nat.lt_irrefl mark.1⟩
  have : Std.Antisymm before := ⟨fun _ _ hfirst hsecond => absurd hfirst (Nat.lt_asymm hsecond)⟩
  apply List.Pairwise.eq_of_mem_iff h.sorted hother.sorted
  rintro ⟨j, r⟩
  rw [h.mem_iff, hother.mem_iff]

end Block

/-- Between any two symbols, the buffer of a kind grows by the records that the symbols between
them leave. -/
theorem exists_block (hread : pen.read symbols source = (.ok commands, rest))
    {final : Walk α} (hfollow : pen.follow 0 commands (.start root) = .ok final) (o : Organ)
    {start length : Nat} (hend : start + length ≤ symbols.length) {first last : Walk α}
    (hfirst : pen.stateAt root commands start = .ok first)
    (hlast : pen.stateAt root commands (start + length) = .ok last)
    {records : List (Instance α)} (hrecords : o.records first = .ofList records) :
    ∃ marks, pen.Block o symbols root source start length marks ∧
      o.records last = .ofList (records ++ marks.map (·.2)) := by
  induction length generalizing last with
  | zero =>
      obtain rfl : first = last := by simpa [hfirst] using hlast
      exact ⟨[], Block.empty, by simpa using hrecords⟩
  | succ length ih =>
      obtain ⟨before, after, hpass⟩ := exists_passes hread hfollow (i := start + length) (by omega)
      obtain ⟨hbefore, hafter⟩ := hpass.states hread
      obtain rfl : after = last := by
        rw [← Nat.add_assoc] at hlast
        simpa [hafter] using hlast
      obtain ⟨marks, hblock, hmarks⟩ := ih (by omega) hbefore
      rcases hpass.kept_or_grown hread o with hkept | ⟨r, hr⟩
      · exact ⟨marks, hblock.kept hpass hkept, hkept.trans hmarks⟩
      · refine ⟨marks ++ [(length, r)], hblock.grown hpass hr, ?_⟩
        rw [hr, hmarks, List.map_append, List.map_singleton, ← List.append_assoc,
          InstanceBuffer.ofList_concat]

/-- A stretch of the word draws a segment. -/
def Sprouts (pen : Pen α) (symbols : Word) (root : Turtle α) (source : σ) (start length : Nat) :
    Prop :=
  ∃ j < length, ∃ r, pen.Adds .segment symbols root source (start + j) r

/-- The flag goes up with the first segment and stays up. -/
theorem Passes.begun_iff (hread : pen.read symbols source = (.ok commands, rest)) {i : Nat}
    {before after : Walk α} (h : pen.Passes symbols root source i before after) :
    after.begun = true ↔
      before.begun = true ∨ ∃ r, pen.Adds .segment symbols root source i r := by
  obtain ⟨c, hc⟩ := h.exists_command hread
  have hobey := h.obey hread hc
  have hnone (hkept : after.branches = before.branches) :
      ¬ ∃ r, pen.Adds .segment symbols root source i r := by
    rintro ⟨r, hr⟩
    exact h.not_adds_of_kept (o := .segment) hkept r hr
  by_cases hbranch : c = Organ.segment.command
  · subst hbranch
    rcases obey_branch_eq_ok hobey with ⟨-, rfl⟩ | ⟨-, t, r, -, -, rfl⟩
    · simp [hnone rfl]
    · have hadds : pen.Adds .segment symbols root source i r := ⟨before, _, h, rfl⟩
      simp only [true_iff]
      exact Or.inr ⟨r, hadds⟩
  · rw [begun_of_obey hbranch hobey]
    simp [hnone (records_of_obey hbranch hobey)]

theorem begun_iff_sprouts (hread : pen.read symbols source = (.ok commands, rest))
    {final : Walk α} (hfollow : pen.follow 0 commands (.start root) = .ok final)
    {start length : Nat} (hend : start + length ≤ symbols.length) {first last : Walk α}
    (hfirst : pen.stateAt root commands start = .ok first)
    (hlast : pen.stateAt root commands (start + length) = .ok last) :
    last.begun = true ↔
      first.begun = true ∨ pen.Sprouts symbols root source start length := by
  induction length generalizing last with
  | zero =>
      obtain rfl : first = last := by simpa [hfirst] using hlast
      simp [Sprouts]
  | succ length ih =>
      obtain ⟨before, after, hpass⟩ := exists_passes hread hfollow (i := start + length) (by omega)
      obtain ⟨hbefore, hafter⟩ := hpass.states hread
      obtain rfl : after = last := by
        rw [← Nat.add_assoc] at hlast
        simpa [hafter] using hlast
      have hsplit : pen.Sprouts symbols root source start (length + 1) ↔
          pen.Sprouts symbols root source start length ∨
            ∃ r, pen.Adds .segment symbols root source (start + length) r :=
        Nat.exists_lt_succ_right
      rw [hpass.begun_iff hread, ih (by omega) hbefore, hsplit, or_assoc]

/-- A buffer of a run that returns holds the records that its symbols have left, in their
order. -/
theorem exists_marks (hread : pen.read symbols source = (.ok commands, rest)) {final : Walk α}
    (hfollow : pen.follow 0 commands (.start root) = .ok final) (o : Organ) :
    ∃ marks : List (Nat × Instance α), o.records final = .ofList (marks.map (·.2)) ∧
      marks.Pairwise (fun first second => first.1 < second.1) ∧
      ∀ i r, (i, r) ∈ marks ↔ pen.Adds o symbols root source i r := by
  have hwhole : pen.stateAt root commands (0 + symbols.length) = .ok final := by
    rw [Nat.zero_add, ← pen.read_length hread, stateAt_length]
    exact hfollow
  obtain ⟨marks, hblock, hmarks⟩ := exists_block hread hfollow o (by omega)
    (pen.stateAt_zero root commands) hwhole (o.records_start root)
  refine ⟨marks, hmarks, hblock.sorted, fun i r => ?_⟩
  rw [hblock.mem_iff, Nat.zero_add]
  constructor
  · exact And.right
  · intro hadds
    obtain ⟨before, after, hpass, hr⟩ := hadds
    exact ⟨hpass.inside, before, after, hpass, hr⟩

/-- The same for each column of a buffer. -/
theorem exists_rows (hread : pen.read symbols source = (.ok commands, rest)) {final : Walk α}
    (hfollow : pen.follow 0 commands (.start root) = .ok final) (o : Organ) (c : Column) :
    ∃ marks : List (Nat × Instance α),
      marks.Pairwise (fun first second => first.1 < second.1) ∧
      (∀ i r, (i, r) ∈ marks ↔ pen.Adds o symbols root source i r) ∧
      ((o.records final).column c).toList = marks.flatMap fun mark => (mark.2.row c).toList := by
  obtain ⟨marks, hmarks, hsorted, hmem⟩ := exists_marks hread hfollow o
  refine ⟨marks, hsorted, hmem, ?_⟩
  rw [hmarks, InstanceBuffer.ofList_column, List.flatMap_map]

/-- A buffer counts the symbols that have left records in it. -/
theorem count_eq_ncard (hread : pen.read symbols source = (.ok commands, rest)) {final : Walk α}
    (hfollow : pen.follow 0 commands (.start root) = .ok final) (o : Organ) :
    (o.records final).count = {i | ∃ r, pen.Adds o symbols root source i r}.ncard := by
  obtain ⟨marks, hmarks, hsorted, hmem⟩ := exists_marks hread hfollow o
  have hnodup : (marks.map (·.1)).Nodup := by
    rw [List.Nodup, List.pairwise_map]
    exact hsorted.imp fun hlt => Nat.ne_of_lt hlt
  have hset : {i | ∃ r, pen.Adds o symbols root source i r} =
      ((marks.map (·.1)).toFinset : Set Nat) := by
    ext i
    simp [← hmem]
  rw [hset, Set.ncard_coe_finset, List.toFinset_card_of_nodup hnodup, List.length_map, hmarks,
    InstanceBuffer.ofList_count, List.length_map]

end Pen

/-- A turtle that points up and is deep enough to bear leaves. -/
def Turtle.seedling (place : Vec3 Float) (length : Float) : Turtle Float :=
  ⟨place, Vec3.up, ⟨2.0, length, 2.0⟩, 3⟩

/-- Draws segments and leaves, both by choices that leave nothing open. -/
def Pen.twig : Pen Float := plain ⟨[('F', .only .branch 1.0), ('L', .only .leaf 1.0)]⟩

end Meristem
