import Meristem.Proofs.Drawing.Run
import Mathlib.Data.ENat.Lattice
import Mathlib.Data.Set.Card

/-!
Which actions leave a record. A turtle stops drawing when its segments become too short to be
seen, and each segment is shorter than the one before by a fixed factor. How many have been drawn
is settled by the path: by the branch actions on it, of which each is drawn until the first that
is too short and none after it. Neither places nor directions come into it, nor how thick the
branches are.
-/

namespace Meristem

open Command

variable {α : Type} [Arith α]

/-- The length of a segment after it was made shorter so many times. -/
def segmentAfter (length : α) : Nat → α
  | 0 => length
  | n + 1 => segmentAfter length n * 0.96

/-- How many segments can be drawn along one path before they are too short: the first number
of times after which a segment is, or `⊤` if it never is. -/
noncomputable def reach (length : α) : ℕ∞ :=
  sInf ((fun n : Nat => (n : ℕ∞)) '' {n | segmentAfter length n < Turtle.minVisibleScale})

theorem lt_reach_iff (length : α) (n : Nat) :
    (n : ℕ∞) < reach length ↔
      ∀ k ≤ n, ¬ segmentAfter length k < Turtle.minVisibleScale := by
  constructor
  · intro h k hk hshort
    have hreach : reach length ≤ k := sInf_le ⟨k, hshort, rfl⟩
    have hlt : (n : ℕ∞) < k := lt_of_lt_of_le h hreach
    have hnk : n < k := by exact_mod_cast hlt
    omega
  · intro h
    have hsucc : ((n + 1 : Nat) : ℕ∞) ≤ reach length := by
      apply le_sInf
      rintro _ ⟨k, hk, rfl⟩
      have hnk : n + 1 ≤ k := by
        by_contra hle
        exact h k (by omega) hk
      have hcast : ((n + 1 : Nat) : ℕ∞) ≤ (k : ℕ∞) := by exact_mod_cast hnk
      exact hcast
    have hlt : (n : ℕ∞) < ((n + 1 : Nat) : ℕ∞) := by exact_mod_cast Nat.lt_succ_self n
    exact lt_of_lt_of_le hlt hsucc

namespace Command

def countOn (c : Command) (path : List (Command × Nat)) : Nat := path.countP (·.1 = c)

def branchesOn (path : List (Command × Nat)) : Nat := countOn (.stroke (.act .branch)) path

def openOn (path : List (Command × Nat)) : Nat := countOn .enter path

@[simp] theorem countOn_nil (c : Command) : countOn c [] = 0 := rfl

theorem countOn_cons (c : Command) (x : Command × Nat) (path : List (Command × Nat)) :
    countOn c (x :: path) = countOn c path + if x.1 = c then 1 else 0 := by
  simp [countOn, List.countP_cons]

theorem branchesOn_le {first second : List (Command × Nat)} (h : first <:+ second) :
    branchesOn first ≤ branchesOn second :=
  h.sublist.countP_le

end Command

/-- How a turtle has come from `root` along a path: one deeper for each open group, and with its
segments made shorter by each branch action until they were too short, and by none after that. -/
structure Turtle.Grown (root : Turtle α) (path : List (Command × Nat)) (t : Turtle α) : Prop where
  depth_eq : t.depth = root.depth + openOn path
  shrunk : ∃ drawn ≤ branchesOn path, t.scale.y = segmentAfter root.scale.y drawn ∧
    (∀ k < drawn, ¬ segmentAfter root.scale.y k < minVisibleScale) ∧
    (drawn < branchesOn path → segmentAfter root.scale.y drawn < minVisibleScale)

namespace Turtle.Grown

variable {root t next : Turtle α} {path : List (Command × Nat)}

theorem root_grown (root : Turtle α) : root.Grown [] root where
  depth_eq := by simp [openOn]
  shrunk := ⟨0, Nat.zero_le _, rfl, by simp, by simp [branchesOn]⟩

theorem thinned (h : root.Grown path t) : root.Grown path t.thinned :=
  ⟨h.depth_eq, h.shrunk⟩

theorem isVisible_iff (h : root.Grown path t) :
    t.isVisible = true ↔ (branchesOn path : ℕ∞) < reach root.scale.y := by
  obtain ⟨drawn, hle, hlength, hseen, hshort⟩ := h.shrunk
  have hvisible : t.isVisible = true ↔ ¬ t.scale.y < minVisibleScale := by
    simp [isVisible]
  rw [hvisible, lt_reach_iff, hlength]
  constructor
  · intro hnow k hk
    have hall : drawn = branchesOn path := by
      by_contra hne
      exact hnow (hshort (by omega))
    by_cases hlast : k = drawn
    · rw [hlast]
      exact hnow
    · exact hseen k (by omega)
  · intro hall
    exact hall drawn hle

theorem bearsLeaf_iff (h : root.Grown path t) :
    t.bearsLeaf = true ↔
      (branchesOn path : ℕ∞) < reach root.scale.y ∧ 3 ≤ root.depth + openOn path := by
  rw [← h.isVisible_iff, ← h.depth_eq, bearsLeaf, Bool.and_eq_true, decide_eq_true_iff,
    minLeafDepth]

theorem of_frame (h : root.Grown path t) {c : Command} {i : Nat}
    (hc : c ≠ .stroke (.act .branch)) (hlength : next.scale.y = t.scale.y)
    (hdepth : next.depth = root.depth + openOn ((c, i) :: path)) :
    root.Grown ((c, i) :: path) next where
  depth_eq := hdepth
  shrunk := by
    have hcount : branchesOn ((c, i) :: path) = branchesOn path := by
      simp [branchesOn, countOn_cons, hc]
    rw [hcount, hlength]
    exact h.shrunk

theorem of_branch (h : root.Grown path t) (hvisible : t.isVisible = true) (i : Nat)
    (hlength : next.scale.y = t.scale.y * 0.96) (hdepth : next.depth = t.depth) :
    root.Grown ((.stroke (.act .branch), i) :: path) next where
  depth_eq := by
    rw [hdepth, h.depth_eq]
    simp [openOn, countOn_cons]
  shrunk := by
    have hseen := (lt_reach_iff _ _).mp (h.isVisible_iff.mp hvisible)
    obtain ⟨drawn, hle, hold, -, hshort⟩ := h.shrunk
    have hall : drawn = branchesOn path := by
      by_contra hne
      exact hseen drawn hle (hshort (by omega))
    have hcount : branchesOn ((.stroke (.act .branch), i) :: path) = drawn + 1 := by
      simp [branchesOn, countOn_cons, hall]
    refine ⟨drawn + 1, by omega, ?_, fun k hk => hseen k (by omega), by omega⟩
    rw [hlength, hold]
    rfl

theorem of_skipped (h : root.Grown path t) (hvisible : t.isVisible = false) (i : Nat) :
    root.Grown ((.stroke (.act .branch), i) :: path) t where
  depth_eq := by
    rw [h.depth_eq]
    simp [openOn, countOn_cons]
  shrunk := by
    obtain ⟨drawn, hle, hlength, hseen, -⟩ := h.shrunk
    have hcount : branchesOn ((.stroke (.act .branch), i) :: path) = branchesOn path + 1 := by
      simp [branchesOn, countOn_cons]
    have hshort : segmentAfter root.scale.y drawn < minVisibleScale := by
      rw [← hlength]
      simpa [isVisible] using hvisible
    exact ⟨drawn, by omega, hlength, hseen, fun _ => hshort⟩

end Turtle.Grown

/-- Fewer branch actions stand on the path of the symbol at `i` than can be drawn from a first
segment of this length. -/
def Command.InReach (length : α) (commands : List Command) (i : Nat) : Prop :=
  (branchesOn (path (commands.take i)) : ℕ∞) < reach length

/-- What the path of the symbol at `i` has to be for a record to be left there, if the symbol
asks for one. -/
def Organ.Due (length : α) (depth : Int) (commands : List Command) (i : Nat) : Organ → Prop
  | segment => InReach length commands i
  | leaf => InReach length commands i ∧ 3 ≤ depth + openOn (path (commands.take i))

theorem Organ.Due.inReach {length : α} {depth : Int} {commands : List Command}
    {i : Nat} {o : Organ}
    (h : o.Due length depth commands i) : InReach length commands i := by
  cases o with
  | segment => exact h
  | leaf => exact h.1

theorem Command.InReach.of_suffix {length : α} {commands : List Command} {i j : Nat}
    (hpath : path (commands.take i) <:+ path (commands.take j))
    (h : InReach length commands j) : InReach length commands i := by
  have hcount := branchesOn_le hpath
  have hcast : (branchesOn (path (commands.take i)) : ℕ∞) ≤
      branchesOn (path (commands.take j)) := by exact_mod_cast hcount
  exact lt_of_le_of_lt hcast h

namespace Pen

variable {α σ : Type} [Scalar α] [DrawSource σ α]

/-- Which symbols of a run leave a record, said by the commands of its word, the length of the
root's segments and the root's depth. -/
structure RecordsByPath (pen : Pen α) (symbols : Word) (root : Turtle α) (source : σ)
    (commands : List Command) (plant : Plant α) : Prop where
  passed : ∀ i < symbols.length, ∃ before after, pen.Passes symbols root source i before after
  adds_iff : ∀ (o : Organ) i, commands[i]? = some o.command →
    ((∃ r, pen.Adds o symbols root source i r) ↔ o.Due root.scale.y root.depth commands i)
  /-- An action that leaves no record changes nothing at all. -/
  skipped : ∀ (o : Organ) i before after, commands[i]? = some o.command →
    ¬ o.Due root.scale.y root.depth commands i →
    pen.Passes symbols root source i before after → after = before
  /-- Only the action for a kind of record leaves one. -/
  kept : ∀ (o : Organ) i before after, commands[i]? ≠ some o.command →
    pen.Passes symbols root source i before after → o.records after = o.records before
  /-- A turtle that is too small, and every turtle that comes from it, draws nothing more. -/
  too_small : ∀ i j before after later next, pen.Passes symbols root source i before after →
    pen.Passes symbols root source j later next →
    path (commands.take i) <:+ path (commands.take j) → before.current.isVisible = false →
    later.current.isVisible = false ∧ ∀ o : Organ, o.records next = o.records later
  count_eq : ∀ o : Organ, (o.stored plant).count =
    {i | commands[i]? = some o.command ∧ o.Due root.scale.y root.depth commands i}.ncard

variable {pen : Pen α} {symbols : Word} {root : Turtle α} {source rest : σ}
  {commands : List Command}

/-- Every turtle at work has grown from the root along its path. -/
theorem grown_of_stateAt {i : Nat} {w : Walk α} (hi : i ≤ commands.length)
    (h : pen.stateAt root commands i = .ok w) :
    root.Grown (path (commands.take i)) w.current := by
  refine path_induction (P := root.Grown) (Turtle.Grown.root_grown root) ?_ ?_ hi h
  · intro i c w next _ hclose _ hobey hgrown
    cases c with
    | leave => exact absurd rfl hclose
    | enter =>
        obtain ⟨child, hchild, rfl⟩ := Walk.openGroup_eq_ok hobey
        obtain ⟨direction, rfl⟩ := jittered_eq_ok hchild
        have hdepth := hgrown.depth_eq
        refine hgrown.of_frame (by simp) rfl ?_
        simp only [Turtle.deeper_depth, hdepth, openOn, countOn_cons, ↓reduceIte]
        push_cast
        omega
    | stroke s =>
        obtain ⟨k, hk, rfl⟩ := pen.obey_stroke_eq_ok hobey
        by_cases hs : s = .act .branch
        · subst hs
          rcases Sketch.branch_eq_ok hk with ⟨hvisible, rfl⟩ | ⟨hvisible, t, r, ht, -, rfl⟩
          · exact hgrown.of_skipped hvisible i
          · obtain ⟨-, hscale, hdepth⟩ := aimed_eq_ok ht
            refine hgrown.of_branch hvisible i ?_ hdepth
            simp only [Sketch.atop_current, Turtle.move_scale, hscale]
            rfl
        · obtain ⟨-, hscale, hdepth⟩ := Sketch.stroke_frame hs hk
          have hlength : k.turtle.scale.y = w.current.scale.y := congrArg (·.y) hscale
          have hsame : k.turtle.depth = w.current.depth := hdepth
          refine hgrown.of_frame (by simpa using hs) hlength ?_
          rw [Sketch.atop_current, hsame, hgrown.depth_eq]
          simp [openOn, countOn_cons]
  · intro path t hgrown
    exact hgrown.thinned

theorem Passes.grown (hread : pen.read symbols source = (.ok commands, rest)) {i : Nat}
    {before after : Walk α} (h : pen.Passes symbols root source i before after) :
    root.Grown (path (commands.take i)) before.current :=
  grown_of_stateAt (h.le_length hread) (h.states hread).1

/-- The turtle at work is fit for an action exactly when the path says so. -/
theorem Passes.grows_iff (hread : pen.read symbols source = (.ok commands, rest)) {i : Nat}
    {before after : Walk α} (h : pen.Passes symbols root source i before after) (o : Organ) :
    o.grows before.current = true ↔ o.Due root.scale.y root.depth commands i := by
  have hgrown := h.grown hread
  cases o with
  | segment => exact hgrown.isVisible_iff
  | leaf => exact hgrown.bearsLeaf_iff

theorem Passes.records_kept (hread : pen.read symbols source = (.ok commands, rest)) {o : Organ}
    {i : Nat} {before after : Walk α} (h : pen.Passes symbols root source i before after)
    (hkept : commands[i]? = some o.command → ¬ o.Due root.scale.y root.depth commands i) :
    o.records after = o.records before := by
  obtain ⟨c, hc⟩ := h.exists_command hread
  by_cases horgan : c = o.command
  · subst horgan
    rcases obey_organ_eq_ok (h.obey hread hc) with ⟨-, rfl⟩ | ⟨hgrows, -⟩
    · rfl
    · exact absurd ((h.grows_iff hread o).mp hgrows) (hkept hc)
  · exact records_of_obey horgan (h.obey hread hc)

section Returned

variable {final : Walk α} (hread : pen.read symbols source = (.ok commands, rest))
  (hfollow : pen.follow 0 commands (.start root) = .ok final)

include hread hfollow

theorem exists_adds_iff (o : Organ) (i : Nat) :
    (∃ r, pen.Adds o symbols root source i r) ↔
      commands[i]? = some o.command ∧ o.Due root.scale.y root.depth commands i := by
  constructor
  · rintro ⟨r, before, after, hpass, hgrown⟩
    by_contra hnot
    have hkept := hpass.records_kept hread fun hc hdue => hnot ⟨hc, hdue⟩
    exact hpass.not_adds_of_kept hkept r ⟨before, after, hpass, hgrown⟩
  · rintro ⟨hc, hdue⟩
    obtain ⟨hi, -⟩ := List.getElem?_eq_some_iff.mp hc
    rw [pen.read_length hread] at hi
    obtain ⟨before, after, hpass⟩ := exists_passes hread hfollow hi
    have hgrows := (hpass.grows_iff hread o).mpr hdue
    rcases obey_organ_eq_ok (hpass.obey hread hc) with ⟨hunfit, -⟩ | ⟨-, r, hr⟩
    · simp [hunfit] at hgrows
    · exact ⟨r, before, after, hpass, hr⟩

theorem recordsByPath :
    pen.RecordsByPath symbols root source commands ⟨symbols, final.branches, final.leaves⟩ where
  passed := fun i hi => exists_passes hread hfollow hi
  adds_iff := by
    intro o i hc
    rw [exists_adds_iff hread hfollow]
    exact and_iff_right hc
  skipped := by
    intro o i before after hc hdue hpass
    rcases obey_organ_eq_ok (hpass.obey hread hc) with ⟨-, hsame⟩ | ⟨hgrows, -⟩
    · exact hsame
    · exact absurd ((hpass.grows_iff hread o).mp hgrows) hdue
  kept := by
    intro o i before after hc hpass
    exact hpass.records_kept hread fun horgan => absurd horgan hc
  too_small := by
    intro i j before after later next hpass hlater hpath hsmall
    have hfar : ¬ InReach root.scale.y commands i := by
      intro hreach
      have hvisible := (hpass.grows_iff hread .segment).mpr hreach
      simp [Organ.grows, hsmall] at hvisible
    have hbeyond : ¬ InReach root.scale.y commands j := by
      intro hreach
      exact hfar (hreach.of_suffix hpath)
    constructor
    · rw [← Bool.not_eq_true]
      intro hvisible
      exact hbeyond ((hlater.grows_iff hread .segment).mp hvisible)
    · intro o
      exact hlater.records_kept hread fun _ hdue => hbeyond hdue.inReach
  count_eq := by
    intro o
    rw [o.stored_mk, count_eq_ncard hread hfollow o]
    simp only [exists_adds_iff hread hfollow]

end Returned

/-- In every drawing that succeeds the records are decided by the paths of their symbols. Two
drawings of one word that draw the same actions, from roots of the same segment length and depth,
have as many segments and as many leaves, whatever the roots' places, directions and thickness,
the rules, the colours and the sources. -/
theorem records_decided_by_path {plant : Plant α}
    (h : pen.draw symbols root source = (.ok plant, rest)) :
    ∃ commands, pen.read symbols source = (.ok commands, rest) ∧
      pen.RecordsByPath symbols root source commands plant ∧
      ∀ (τ : Type) [DrawSource τ α] (other : Pen α) (start : Turtle α) (draws left : τ)
        (twin : Plant α), other.draw symbols start draws = (.ok twin, left) →
        (other.read symbols draws).1 = .ok commands →
        start.scale.y = root.scale.y → start.depth = root.depth →
        ∀ o : Organ, (o.stored twin).count = (o.stored plant).count := by
  obtain ⟨commands, final, hread, hfollow, -, rfl⟩ := (pen.draw_eq_ok_iff _ _ _ _ _).mp h
  have hpaths := recordsByPath hread hfollow
  refine ⟨commands, hread, hpaths, ?_⟩
  intro τ _ other start draws left twin htwin hsame hlength hdepth
  obtain ⟨others, last, hother, hlast, -, rfl⟩ := (other.draw_eq_ok_iff _ _ _ _ _).mp htwin
  obtain rfl : others = commands := by simpa [hother] using hsame
  have htwins := recordsByPath hother hlast
  intro o
  rw [htwins.count_eq, hpaths.count_eq, hlength, hdepth]

/-- Two twigs in two places whose first segment is the last one that can be seen: the second
branch action of each draws nothing, and neither bears a leaf after the first. -/
theorem twigs_decided_by_path :
    ∃ (plant twin : Plant Float) (rest left : Generator) (commands : List Command),
      twig.draw ['L', 'F', 'L', 'F', 'L'] (.seedling ⟨0.5, 0.0, 0.0⟩ 0.0101)
        (⟨0, 1⟩ : Generator) = (.ok plant, rest) ∧
      twig.draw ['L', 'F', 'L', 'F', 'L'] (.seedling ⟨9.0, 2.0, 0.0⟩ 0.0101)
        (⟨5, 1⟩ : Generator) = (.ok twin, left) ∧
      commands = [.stroke (.act .leaf), .stroke (.act .branch), .stroke (.act .leaf),
        .stroke (.act .branch), .stroke (.act .leaf)] ∧
      twig.RecordsByPath ['L', 'F', 'L', 'F', 'L'] (.seedling ⟨0.5, 0.0, 0.0⟩ 0.0101)
        (⟨0, 1⟩ : Generator) commands plant ∧
      twin.branches.count = plant.branches.count ∧ twin.leaves.count = plant.leaves.count := by
  obtain ⟨plant, rest, hplant⟩ := exists_eq_ok_of_isOk
    (x := twig.draw ['L', 'F', 'L', 'F', 'L'] (.seedling ⟨0.5, 0.0, 0.0⟩ 0.0101)
      (⟨0, 1⟩ : Generator)) (by decide +kernel)
  obtain ⟨twin, left, htwin⟩ := exists_eq_ok_of_isOk
    (x := twig.draw ['L', 'F', 'L', 'F', 'L'] (.seedling ⟨9.0, 2.0, 0.0⟩ 0.0101)
      (⟨5, 1⟩ : Generator)) (by decide +kernel)
  obtain ⟨commands, hread, hpaths, hsame⟩ := records_decided_by_path hplant
  have hleft : (twig.read ['L', 'F', 'L', 'F', 'L'] (⟨0, 1⟩ : Generator)).1 =
      .ok [.stroke (.act .leaf), .stroke (.act .branch), .stroke (.act .leaf),
        .stroke (.act .branch), .stroke (.act .leaf)] := by decide +kernel
  have hright : (twig.read ['L', 'F', 'L', 'F', 'L'] (⟨5, 1⟩ : Generator)).1 =
      .ok [.stroke (.act .leaf), .stroke (.act .branch), .stroke (.act .leaf),
        .stroke (.act .branch), .stroke (.act .leaf)] := by decide +kernel
  have hcommands := Except.ok.inj ((congrArg Prod.fst hread).symm.trans hleft)
  have hcount := hsame Generator twig (.seedling ⟨9.0, 2.0, 0.0⟩ 0.0101) ⟨5, 1⟩ left twin htwin
    (hright.trans (congrArg Except.ok hcommands.symm)) (by simp only [Turtle.seedling])
    (by simp only [Turtle.seedling])
  exact ⟨plant, twin, rest, left, commands, hplant, htwin, hcommands, hpaths, hcount .segment,
    hcount .leaf⟩

end Pen
end Meristem
