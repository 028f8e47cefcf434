import Meristem.Proofs.Brackets
import Meristem.Proofs.Drawing.Reading
import Mathlib.Data.List.Induction

/-!
The way from the root to a place in a word. A closed group is a side branch, and the turtle that
goes on has not been there; its trail holds the commands before it with every closed group cut
down to the closing bracket. Whatever holds of a turtle by what stands on its trail can be proved
along the trail, without a word about the stack: `trail_induction` does so for every state of a
run. The stack comes in once, where a closing bracket brings back the turtle that met the
opening one.
-/

namespace Meristem
namespace Command

/-- Goes on with a command and its position. A closing bracket takes back what its group has put
on the trail, and stays in place of the group. -/
def extend (trail : List (Command × Nat)) (next : Command × Nat) : List (Command × Nat) :=
  if next.1 = .leave then next :: (trail.dropWhile (·.1 ≠ .enter)).tail
  else next :: trail

/-- The commands on the way to the end of `commands`, each with its position, the last first. -/
def trail (commands : List Command) : List (Command × Nat) :=
  commands.zipIdx.foldl extend []

/-- The trail without what is left of closed groups: of all symbols those that stand in no group
that is closed. The opening brackets on it are those that are open. How it grows by a command and
by a whole group is said in `path_concat` and `path_group`. -/
def path (commands : List Command) : List (Command × Nat) :=
  (trail commands).filter (·.1 ≠ .leave)

@[simp] theorem trail_nil : trail [] = [] := rfl

@[simp] theorem path_nil : path [] = [] := rfl

theorem trail_concat (commands : List Command) (c : Command) :
    trail (commands ++ [c]) = extend (trail commands) (c, commands.length) := by
  simp [trail, List.zipIdx_append]

theorem trail_take_succ {commands : List Command} {i : Nat} {c : Command}
    (h : commands[i]? = some c) :
    trail (commands.take (i + 1)) = extend (trail (commands.take i)) (c, i) := by
  obtain ⟨hlt, rfl⟩ := List.getElem?_eq_some_iff.mp h
  have hlength : (commands.take i).length = i := by
    rw [List.length_take]
    omega
  rw [List.take_succ_eq_append_getElem hlt, trail_concat, hlength]

theorem extend_of_ne_leave {c : Command} (h : c ≠ .leave) (trail : List (Command × Nat))
    (i : Nat) : extend trail (c, i) = (c, i) :: trail := by
  simp [extend, h]

/-- A closing bracket takes the trail back to its opening bracket, which is the last one on it. -/
theorem extend_leave {inner outer : List (Command × Nat)} {i j : Nat}
    (hinner : ∀ x ∈ inner, x.1 ≠ .enter) :
    extend (inner ++ (.enter, j) :: outer) (.leave, i) = (.leave, i) :: outer := by
  have hdrop : ∀ x ∈ inner, decide (x.1 ≠ .enter) = true := by
    intro x hx
    simpa using hinner x hx
  have hrest : (inner ++ (.enter, j) :: outer).dropWhile (fun x => decide (x.1 ≠ .enter)) =
      (.enter, j) :: outer := by
    rw [List.dropWhile_append_of_pos hdrop]
    rfl
  simp only [extend, ↓reduceIte, hrest, List.tail_cons]

/-- The brackets among the commands are those that were read as brackets. -/
def bracket : Command → Option Bracket
  | .enter => some .opening
  | .leave => some .closing
  | .stroke _ => none

/-- A trail with open groups has a last opening bracket. -/
theorem exists_split_enter {onto : List (Command × Nat)} (h : 0 < onto.countP (·.1 = .enter)) :
    ∃ inner j outer, onto = inner ++ (.enter, j) :: outer ∧ (∀ x ∈ inner, x.1 ≠ .enter) ∧
      onto.countP (·.1 = .enter) = outer.countP (·.1 = .enter) + 1 := by
  obtain ⟨x, hx, hcommand⟩ := List.countP_pos_iff.mp h
  obtain ⟨⟨c, j⟩, hfirst⟩ : ∃ first, onto.find? (·.1 = .enter) = some first :=
    Option.isSome_iff_exists.mp (List.find?_isSome.mpr ⟨x, hx, hcommand⟩)
  obtain ⟨hc, inner, outer, rfl, hbefore⟩ := List.find?_eq_some_iff_append.mp hfirst
  obtain rfl : c = .enter := by simpa using hc
  have hinner : ∀ y ∈ inner, y.1 ≠ .enter := by
    intro y hy
    simpa using hbefore y hy
  have hnone : inner.countP (·.1 = .enter) = 0 := by
    rw [List.countP_eq_zero]
    intro y hy
    simpa using hinner y hy
  refine ⟨inner, j, outer, rfl, hinner, ?_⟩
  rw [List.countP_append, hnone, List.countP_cons_of_pos (by simp)]
  omega

/-- Commands that close no group from before them leave the trail from before them as it is, and
of the groups they open those that stay open show on it. -/
theorem exists_trail_append (outer inner : List Command)
    (h : ∀ first, first <+: inner → 0 ≤ height bracket first) :
    ∃ onto, trail (outer ++ inner) = onto ++ trail outer ∧
      (onto.countP (·.1 = .enter) : Int) = height bracket inner := by
  induction inner using List.reverseRecOn with
  | nil => exact ⟨[], by simp, by simp⟩
  | append_singleton inner c ih =>
      obtain ⟨onto, honto, hopen⟩ := ih fun first hfirst =>
        h first (hfirst.trans (List.prefix_append inner [c]))
      have hwhole := h _ List.prefix_rfl
      rw [height_append, ← hopen] at hwhole ⊢
      rw [← List.append_assoc, trail_concat, honto]
      cases c with
      | enter =>
          rw [extend_of_ne_leave (by simp)]
          refine ⟨_ :: onto, rfl, ?_⟩
          simp [rise, bracket]
      | stroke s =>
          rw [extend_of_ne_leave (by simp)]
          refine ⟨_ :: onto, rfl, ?_⟩
          simp [rise, bracket]
      | leave =>
          have hfall : height bracket [Command.leave] = -1 := rfl
          rw [hfall] at hwhole ⊢
          obtain ⟨closed, j, below, rfl, hclosed, hcount⟩ :=
            exists_split_enter (by omega : 0 < onto.countP (·.1 = .enter))
          rw [List.append_assoc, List.cons_append, extend_leave hclosed]
          refine ⟨(.leave, _) :: below, rfl, ?_⟩
          rw [List.countP_cons_of_neg (by simp), hcount]
          omega

theorem path_concat {c : Command} (h : c ≠ .leave) (commands : List Command) :
    path (commands ++ [c]) = (c, commands.length) :: path commands := by
  rw [path, trail_concat, extend_of_ne_leave h, List.filter_cons_of_pos (by simpa using h), path]

/-- A closed group leaves nothing on the path. -/
theorem path_group {inner : List Command} (h : Balanced bracket inner) (outer : List Command) :
    path (outer ++ .enter :: inner ++ [.leave]) = path outer := by
  obtain ⟨onto, honto, hopen⟩ := exists_trail_append (outer ++ [.enter]) inner h.never_below
  rw [h.closed] at hopen
  have hnone : ∀ x ∈ onto, x.1 ≠ .enter := by
    have hzero : onto.countP (·.1 = .enter) = 0 := by exact_mod_cast hopen
    intro x hx
    simpa using List.countP_eq_zero.mp hzero x hx
  have hsplit : outer ++ .enter :: inner = outer ++ [.enter] ++ inner := by simp
  have hopener : trail (outer ++ [.enter]) = (.enter, outer.length) :: trail outer := by
    rw [trail_concat, extend_of_ne_leave (by simp)]
  rw [path, trail_concat, hsplit, honto, hopener, extend_leave hnone]
  simp [path]

/-- What is put on a trail comes on top; of what was there some may go. -/
theorem exists_extend_eq (trail : List (Command × Nat)) (next : Command × Nat) :
    ∃ kept, extend trail next = next :: kept ∧ kept.Sublist trail := by
  unfold extend
  split
  · refine ⟨_, rfl, ?_⟩
    exact (List.tail_sublist _).trans (List.dropWhile_sublist _)
  · exact ⟨trail, rfl, List.Sublist.refl trail⟩

/-- The positions on a trail go down, from below the end of the commands. -/
theorem trail_sorted (commands : List Command) :
    (trail commands).Pairwise (fun later earlier => earlier.2 < later.2) ∧
      ∀ x ∈ trail commands, x.2 < commands.length := by
  induction commands using List.reverseRecOn with
  | nil => simp
  | append_singleton commands c ih =>
      obtain ⟨hsorted, hbound⟩ := ih
      obtain ⟨kept, hkept, hsub⟩ := exists_extend_eq (trail commands) (c, commands.length)
      rw [trail_concat, hkept, List.length_append, List.length_singleton]
      constructor
      · rw [List.pairwise_cons]
        exact ⟨fun x hx => hbound x (hsub.subset hx), hsorted.sublist hsub⟩
      · intro x hx
        rcases List.mem_cons.mp hx with rfl | hx
        · exact Nat.lt_succ_self _
        · exact Nat.lt_succ_of_lt (hbound x (hsub.subset hx))

/-- Commands that close no group from before them. -/
def Stays (commands : List Command) : Prop :=
  ∀ first, first <+: commands → 0 ≤ height bracket first

theorem stays_concat_iff (commands : List Command) (c : Command) :
    Stays (commands ++ [c]) ↔
      Stays commands ∧ 0 ≤ height bracket commands + rise bracket c := by
  constructor
  · intro h
    refine ⟨fun first hfirst => h first (hfirst.trans (List.prefix_append _ _)), ?_⟩
    have hwhole := h _ List.prefix_rfl
    rw [height_append, height_cons, height_nil] at hwhole
    omega
  · rintro ⟨hbefore, hwhole⟩ first hfirst
    rcases List.prefix_concat_iff.mp hfirst with rfl | hfirst
    · rw [height_append, height_cons, height_nil]
      omega
    · exact hbefore first hfirst

theorem stays_iff (commands : List Command) :
    Stays commands ↔ ∀ n ≤ commands.length, 0 ≤ height bracket (commands.take n) := by
  constructor
  · intro h n _
    exact h _ (List.take_prefix n commands)
  · intro h first hfirst
    rw [List.prefix_iff_eq_take.mp hfirst]
    exact h first.length hfirst.length_le

instance (commands : List Command) : Decidable (Stays commands) :=
  decidable_of_iff _ (stays_iff commands).symm

/-- At a closing bracket those stay on the trail that have an opening bracket after them which stays
open till then. -/
theorem mem_extend_leave_iff {commands : List Command} {c : Command} {m : Nat}
    (hc : commands[m]? = some c) (hstays : Stays (commands.drop (m + 1))) :
    (c, m) ∈ extend (trail commands) (.leave, commands.length) ↔
      0 < height bracket (commands.drop (m + 1)) := by
  obtain ⟨hm, -⟩ := List.getElem?_eq_some_iff.mp hc
  obtain ⟨onto, honto, hopen⟩ :=
    exists_trail_append (commands.take (m + 1)) (commands.drop (m + 1)) hstays
  obtain ⟨kept, hkept, -⟩ := exists_extend_eq (trail (commands.take m)) (c, m)
  rw [List.take_append_drop, trail_take_succ hc, hkept] at honto
  obtain ⟨hsorted, hbound⟩ := trail_sorted commands
  rw [← hopen]
  constructor
  · intro hmem
    by_contra hclosed
    have hnone : ∀ x ∈ onto, decide (x.1 ≠ .enter) = true := by
      have hzero : onto.countP (·.1 = .enter) = 0 := by omega
      intro x hx
      simpa using List.countP_eq_zero.mp hzero x hx
    have hrest : (c, m) ∈ (((c, m) :: kept).dropWhile (·.1 ≠ .enter)).tail := by
      simp only [extend, ↓reduceIte, honto, List.dropWhile_append_of_pos hnone] at hmem
      rcases List.mem_cons.mp hmem with hlast | hrest
      · have hplace := congrArg Prod.snd hlast
        simp only at hplace
        omega
      · exact hrest
    have hbelow : (c, m) ∈ kept := by
      by_cases henter : c = .enter
      · rw [List.dropWhile_cons_of_neg (by simp [henter])] at hrest
        exact hrest
      · rw [List.dropWhile_cons_of_pos (by simpa using henter)] at hrest
        exact (List.dropWhile_sublist _).subset (List.mem_of_mem_tail hrest)
    rw [honto, List.pairwise_append, List.pairwise_cons] at hsorted
    exact Nat.lt_irrefl m (hsorted.2.1.1 _ hbelow)
  · intro hpos
    obtain ⟨inner, j, outer, rfl, hinner, -⟩ := exists_split_enter (by exact_mod_cast hpos)
    rw [honto, List.append_assoc, List.cons_append, extend_leave hinner]
    simp

/-- On the trail are the commands that stand in no group that is closed since, those that open one
included, and the ends of groups that stand in no other such group. -/
theorem mem_trail_iff (commands : List Command) (c : Command) (m : Nat) :
    (c, m) ∈ trail commands ↔ commands[m]? = some c ∧ Stays (commands.drop (m + 1)) := by
  induction commands using List.reverseRecOn with
  | nil => simp
  | append_singleton commands d ih =>
      obtain ⟨kept, hkept, hsub⟩ := exists_extend_eq (trail commands) (d, commands.length)
      have hbound := (trail_sorted commands).2
      rw [trail_concat]
      rcases Nat.lt_trichotomy m commands.length with hm | rfl | hm
      · have hne : (c, m) ≠ (d, commands.length) := by
          intro hsame
          exact Nat.ne_of_lt hm (congrArg Prod.snd hsame)
        rw [List.getElem?_append_left hm, List.drop_append_of_le_length (by omega),
          stays_concat_iff, ← and_assoc, ← ih]
        constructor
        · intro hmem
          have hbefore : (c, m) ∈ trail commands := by
            rw [hkept] at hmem
            exact hsub.subset ((List.mem_cons.mp hmem).resolve_left hne)
          obtain ⟨hc, hstays⟩ := ih.mp hbefore
          have hopen := hstays _ List.prefix_rfl
          refine ⟨hbefore, ?_⟩
          cases d with
          | enter =>
              simp only [rise, bracket]
              omega
          | stroke s =>
              simp only [rise, bracket]
              omega
          | leave =>
              have hpos := (mem_extend_leave_iff hc hstays).mp hmem
              simp only [rise, bracket]
              omega
        · rintro ⟨hbefore, hopen⟩
          obtain ⟨hc, hstays⟩ := ih.mp hbefore
          by_cases hclose : d = .leave
          · subst hclose
            apply (mem_extend_leave_iff hc hstays).mpr
            simp only [rise, bracket] at hopen
            omega
          · rw [extend_of_ne_leave hclose]
            exact List.mem_cons_of_mem _ hbefore
      · have hnew : (c, commands.length) ∉ kept := by
          intro hold
          exact Nat.lt_irrefl _ (hbound _ (hsub.subset hold))
        simp [hkept, hnew, Stays, eq_comm]
      · have hnone : (c, m) ∉ extend (trail commands) (d, commands.length) := by
          rw [hkept, List.mem_cons]
          rintro (hlast | hold)
          · exact Nat.ne_of_gt hm (congrArg Prod.snd hlast)
          · exact Nat.lt_asymm hm (hbound _ (hsub.subset hold))
        have hend : (commands ++ [d])[m]? = none := by
          rw [List.getElem?_eq_none_iff, List.length_append, List.length_singleton]
          omega
        simp [hnone, hend]

/-- The symbol at `m` is on the way to the one at `i`: it stands in no group that is closed between
them, and opens none. -/
def OnWay (commands : List Command) (m i : Nat) : Prop :=
  m ≤ i ∧ Stays ((commands.take (i + 1)).drop (m + 1))

instance (commands : List Command) (m i : Nat) : Decidable (OnWay commands m i) :=
  inferInstanceAs (Decidable (_ ∧ _))

/-- The trail to the end of a command holds what is on the way to it. -/
theorem mem_trail_take_iff {commands : List Command} {c : Command} {m i : Nat} :
    (c, m) ∈ trail (commands.take (i + 1)) ↔ commands[m]? = some c ∧ OnWay commands m i := by
  rw [mem_trail_iff, List.getElem?_take, OnWay]
  by_cases hm : m ≤ i
  · simp [hm, Nat.lt_succ_of_le hm]
  · simp [hm, show ¬ m < i + 1 by omega]

end Command

namespace Pen

open Command

variable {α : Type} [Scalar α] (pen : Pen α) (root : Turtle α) (commands : List Command)

/-- The state of a run from `root` before the command at `i`. -/
def stateAt (i : Nat) : Except GrowthError (Walk α) :=
  pen.follow 0 (commands.take i) (.start root)

@[simp] theorem stateAt_zero : pen.stateAt root commands 0 = .ok (.start root) := by
  simp [stateAt, follow]

theorem stateAt_length :
    pen.stateAt root commands commands.length = pen.follow 0 commands (.start root) := by
  rw [stateAt, List.take_length]

theorem stateAt_succ_eq_ok_iff {i : Nat} {c : Command} (hc : commands[i]? = some c)
    (next : Walk α) :
    pen.stateAt root commands (i + 1) = .ok next ↔
      ∃ w, pen.stateAt root commands i = .ok w ∧ pen.obey i c w = .ok next := by
  obtain ⟨hlt, rfl⟩ := List.getElem?_eq_some_iff.mp hc
  have hlength : 0 + (commands.take i).length = i := by
    rw [List.length_take]
    omega
  unfold stateAt
  rw [List.take_succ_eq_append_getElem hlt, follow_append, hlength]
  cases pen.follow 0 (commands.take i) (.start root) with
  | error e => simp
  | ok w => simp [follow_singleton]

theorem exists_stateAt {final : Walk α}
    (h : pen.follow 0 commands (.start root) = .ok final) (i : Nat) :
    ∃ w, pen.stateAt root commands i = .ok w := by
  rw [← List.take_append_drop i commands, follow_append] at h
  unfold stateAt
  cases hfirst : pen.follow 0 (commands.take i) (.start root) with
  | error e => simp [hfirst] at h
  | ok w => exact ⟨w, rfl⟩

/-- Where the turtles of a state come from. Either the turtle at work is the first one and no
group is open, or the last open group was opened at some `j`: then the turtle that waits for its
end is the one that was at work there, thinned, and below it wait those that waited there. -/
def Lineage (i : Nat) (w : Walk α) : Prop :=
  (w.parents = [] ∧ ∀ x ∈ trail (commands.take i), x.1 ≠ .enter) ∨
    ∃ j v inner, j < i ∧ pen.stateAt root commands j = .ok v ∧
      trail (commands.take i) = inner ++ (.enter, j) :: trail (commands.take j) ∧
      (∀ x ∈ inner, x.1 ≠ .enter) ∧ w.parents = v.current.thinned :: v.parents

variable {pen root commands}

theorem lineage_start : pen.Lineage root commands 0 (.start root) :=
  Or.inl ⟨rfl, by simp⟩

/-- A lineage goes on over a command that puts itself on the trail and leaves the stack alone. -/
theorem Lineage.extend {i n : Nat} {w next : Walk α} {c : Command}
    (h : pen.Lineage root commands i w) (hlt : i < n) (hc : c ≠ .enter)
    (htrail : trail (commands.take n) = (c, n - 1) :: trail (commands.take i))
    (hparents : next.parents = w.parents) : pen.Lineage root commands n next := by
  rcases h with ⟨hbottom, hnone⟩ | ⟨j, v, inner, hj, hv, hsplit, hinner, hstack⟩
  · refine Or.inl ⟨hparents.trans hbottom, ?_⟩
    intro x hx
    rw [htrail] at hx
    rcases List.mem_cons.mp hx with rfl | hx
    · exact hc
    · exact hnone x hx
  · refine Or.inr ⟨j, v, (c, n - 1) :: inner, by omega, hv, ?_, ?_, hparents.trans hstack⟩
    · simp [htrail, hsplit]
    · intro x hx
      rcases List.mem_cons.mp hx with rfl | hx
      · exact hc
      · exact hinner x hx

/-- At a closing bracket the turtle that met the opening one goes on, thinned, with the stack it
had and with its own trail. -/
theorem Lineage.restore {i : Nat} {w next : Walk α}
    (h : pen.Lineage root commands i w) (hc : commands[i]? = some .leave)
    (hobey : pen.obey i .leave w = .ok next) :
    ∃ j v, j < i ∧ pen.stateAt root commands j = .ok v ∧
      trail (commands.take (i + 1)) = (.leave, i) :: trail (commands.take j) ∧
      next.current = v.current.thinned ∧ next.parents = v.parents := by
  obtain ⟨parent, others, hwait, rfl⟩ := Walk.closeGroup_eq_ok hobey
  rcases h with ⟨hbottom, -⟩ | ⟨j, v, inner, hj, hv, hsplit, hinner, hstack⟩
  · simp [hbottom] at hwait
  · obtain ⟨rfl, rfl⟩ : v.current.thinned = parent ∧ v.parents = others := by
      simpa [hstack] using hwait
    refine ⟨j, v, hj, hv, ?_, rfl, rfl⟩
    rw [trail_take_succ hc, hsplit, extend_leave hinner]

/-- Every state of a run has its lineage. The induction has to reach back further than one
command, since a closing bracket goes on from the state at its opening bracket. -/
theorem lineage_of_stateAt {i : Nat} {w : Walk α} (hi : i ≤ commands.length)
    (h : pen.stateAt root commands i = .ok w) : pen.Lineage root commands i w := by
  induction i using Nat.strongRecOn generalizing w with
  | ind i ih =>
      cases i with
      | zero =>
          obtain rfl : Walk.start root = w := by simpa using h
          exact lineage_start
      | succ i =>
          obtain ⟨c, hc⟩ : ∃ c, commands[i]? = some c :=
            ⟨_, List.getElem?_eq_getElem (by omega)⟩
          obtain ⟨v, hv, hobey⟩ := (pen.stateAt_succ_eq_ok_iff root commands hc w).mp h
          have hbefore : pen.Lineage root commands i v := ih i (by omega) (by omega) hv
          have htrail := trail_take_succ hc
          cases c with
          | enter =>
              obtain ⟨child, -, rfl⟩ := Walk.openGroup_eq_ok hobey
              rw [extend_of_ne_leave (by simp)] at htrail
              exact Or.inr ⟨i, v, [], by omega, hv, by simpa using htrail, by simp, rfl⟩
          | leave =>
              obtain ⟨j, u, hj, hu, hback, -, hparents⟩ := hbefore.restore hc hobey
              have hopener : pen.Lineage root commands j u := ih j (by omega) (by omega) hu
              exact hopener.extend (by omega) (by simp) hback hparents
          | stroke s =>
              obtain ⟨k, -, rfl⟩ := pen.obey_stroke_eq_ok hobey
              rw [extend_of_ne_leave (by simp)] at htrail
              exact hbefore.extend (by omega) (by simp) htrail rfl

/-- What holds of the root, and is handed on along a trail by each command for itself, holds of
the turtle at work in every state of a run. A closing bracket hands on from its opening bracket:
of its group nothing is left but that the turtle is thinner. -/
theorem trail_induction {P : List (Command × Nat) → Turtle α → Prop} (hstart : P [] root)
    (hstep : ∀ i c w next, commands[i]? = some c → c ≠ .leave →
      pen.stateAt root commands i = .ok w → pen.obey i c w = .ok next →
      P (trail (commands.take i)) w.current →
      P ((c, i) :: trail (commands.take i)) next.current)
    (hleave : ∀ i trail t, P trail t → P ((.leave, i) :: trail) t.thinned)
    {i : Nat} {w : Walk α} (hi : i ≤ commands.length)
    (h : pen.stateAt root commands i = .ok w) : P (trail (commands.take i)) w.current := by
  induction i using Nat.strongRecOn generalizing w with
  | ind i ih =>
      cases i with
      | zero =>
          obtain rfl : Walk.start root = w := by simpa using h
          exact hstart
      | succ i =>
          obtain ⟨c, hc⟩ : ∃ c, commands[i]? = some c :=
            ⟨_, List.getElem?_eq_getElem (by omega)⟩
          obtain ⟨v, hv, hobey⟩ := (pen.stateAt_succ_eq_ok_iff root commands hc w).mp h
          by_cases hclose : c = .leave
          · subst hclose
            have hlineage := lineage_of_stateAt (by omega) hv
            obtain ⟨j, u, hj, hu, hback, hcurrent, -⟩ := hlineage.restore hc hobey
            have hopener : P (trail (commands.take j)) u.current :=
              ih j (by omega) (by omega) hu
            rw [hback, hcurrent]
            exact hleave i _ _ hopener
          · have hbefore : P (trail (commands.take i)) v.current :=
              ih i (by omega) (by omega) hv
            rw [trail_take_succ hc, extend_of_ne_leave hclose]
            exact hstep i c v w hc hclose hv hobey hbefore

/-- The same along the path, for what a turtle keeps when it is made thinner. -/
theorem path_induction {P : List (Command × Nat) → Turtle α → Prop} (hstart : P [] root)
    (hstep : ∀ i c w next, commands[i]? = some c → c ≠ .leave →
      pen.stateAt root commands i = .ok w → pen.obey i c w = .ok next →
      P (path (commands.take i)) w.current →
      P ((c, i) :: path (commands.take i)) next.current)
    (hthinned : ∀ path t, P path t → P path t.thinned)
    {i : Nat} {w : Walk α} (hi : i ≤ commands.length)
    (h : pen.stateAt root commands i = .ok w) : P (path (commands.take i)) w.current := by
  refine trail_induction (P := fun trail t => P (trail.filter (·.1 ≠ .leave)) t) hstart ?_ ?_ hi h
  · intro i c w next hc hclose hw hobey hpath
    rw [List.filter_cons_of_pos (by simpa using hclose)]
    exact hstep i c w next hc hclose hw hobey hpath
  · intro i trail t hpath
    rw [List.filter_cons_of_neg (by simp)]
    exact hthinned _ _ hpath

end Pen
end Meristem
