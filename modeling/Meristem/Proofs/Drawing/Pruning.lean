import Mathlib.Analysis.SpecialFunctions.Trigonometric.Bounds
import Meristem.Proofs.Drawing.Likeness
import Meristem.Proofs.Drawing.Visibility
import Meristem.Proofs.Exact.Drawing

/-!
Pruning. A side branch that is cut off, or grafted in another's place, must not bend the rest of
the plant. Three things of a group could reach what comes after it: the records it has made, which
nobody reads; the turtle that opened it, which comes back thinner and otherwise as it was, whatever
was in the group; and the flag that the first segment of the plant has been drawn.
-/

namespace Meristem

/-- A word put into brackets. -/
def grouped (w : Word) : Word := CodePoint.ofChar '[' :: (w ++ [CodePoint.ofChar ']'])

namespace Pen

/-- The records of a plant whose word has three parts. Each buffer holds those of the first part,
then those of the second and then those of the third, in every part by the order of the symbols. -/
structure Parts {α σ : Type} [Scalar α] [DrawSource σ α] (pen : Pen α) (u w v : Word)
    (root : Turtle α) (source : σ) (plant : Plant α)
    (before within after : Organ → List (Nat × Instance α)) : Prop where
  first : ∀ o, pen.Block o (u ++ w ++ v) root source 0 u.length (before o)
  second : ∀ o, pen.Block o (u ++ w ++ v) root source u.length w.length (within o)
  third : ∀ o, pen.Block o (u ++ w ++ v) root source (u.length + w.length) v.length (after o)
  stored : ∀ o : Organ, o.stored plant = .ofList ((before o ++ within o ++ after o).map (·.2))

variable {α σ τ : Type} [Scalar α] [DrawSource σ α] [DrawSource τ α] {pen : Pen α}
  {root : Turtle α} {u v w w' : Word} {source rest : σ} {draws left : τ}
  {commands twins : List Command} {plant twin : Plant α} {final last : Walk α}

theorem Block.ne_nil_iff {symbols : Word} {start length : Nat} {marks : List (Nat × Instance α)}
    (h : pen.Block .segment symbols root source start length marks) :
    marks ≠ [] ↔ pen.Sprouts symbols root source start length := by
  constructor
  · intro hmarks
    obtain ⟨⟨j, r⟩, hmem⟩ := List.exists_mem_of_ne_nil marks hmarks
    obtain ⟨hj, hr⟩ := (h.mem_iff j r).mp hmem
    exact ⟨j, hj, r, hr⟩
  · rintro ⟨j, hj, r, hr⟩
    exact List.ne_nil_of_mem ((h.mem_iff j r).mpr ⟨hj, hr⟩)

/-- Every run that returns has its three parts. -/
theorem exists_parts (hread : pen.read (u ++ w ++ v) source = (.ok commands, rest))
    (hfollow : pen.follow 0 commands (.start root) = .ok final) :
    ∃ before within after, pen.Parts u w v root source
      ⟨u ++ w ++ v, final.branches, final.leaves⟩ before within after := by
  obtain ⟨first, hfirst⟩ := pen.exists_stateAt root commands hfollow (0 + u.length)
  obtain ⟨second, hsecond⟩ := pen.exists_stateAt root commands hfollow (u.length + w.length)
  have hend : pen.stateAt root commands (u.length + w.length + v.length) = .ok final := by
    have hlength : u.length + w.length + v.length = commands.length := by
      rw [pen.read_length hread, List.length_append, List.length_append]
    rw [hlength, stateAt_length]
    exact hfollow
  have hbefore (o : Organ) := exists_block hread hfollow o (by simp)
    (pen.stateAt_zero root commands) hfirst (o.records_start root)
  choose before hbefore hlow using hbefore
  rw [Nat.zero_add] at hfirst
  have hwithin (o : Organ) := exists_block hread hfollow o (by simp) hfirst hsecond (hlow o)
  choose within hwithin hmiddle using hwithin
  have hafter (o : Organ) := exists_block hread hfollow o (by simp [Nat.add_assoc]) hsecond hend
    (hmiddle o)
  choose after hafter hall using hafter
  refine ⟨before, within, after, hbefore, hwithin, hafter, fun o => ?_⟩
  rw [o.stored_mk, hall]
  simp

section Runs

variable {before within after others inner later : Organ → List (Nat × Instance α)}
  (hread : pen.read (u ++ w ++ v) source = (.ok commands, rest))
  (hfollow : pen.follow 0 commands (.start root) = .ok final)

include hread hfollow

/-- The flag is up after the second part if a segment was drawn in the first two. -/
theorem Parts.begun_iff (h : pen.Parts u w v root source plant before within after) {x : Walk α}
    (hx : pen.stateAt root commands (u.length + w.length) = .ok x) :
    x.begun = true ↔ before .segment ≠ [] ∨ within .segment ≠ [] := by
  obtain ⟨middle, hmiddle⟩ := pen.exists_stateAt root commands hfollow (0 + u.length)
  have hfirst := begun_iff_sprouts hread hfollow (by simp) (pen.stateAt_zero root commands) hmiddle
  rw [Nat.zero_add] at hmiddle
  have hsecond := begun_iff_sprouts hread hfollow (by simp) hmiddle hx
  rw [hsecond, hfirst, (h.first .segment).ne_nil_iff, (h.second .segment).ne_nil_iff]
  simp [Walk.start]

variable (hdecided : pen.rules.Decided)
  (hother : pen.read (u ++ w' ++ v) draws = (.ok twins, left))
  (hlast : pen.follow 0 twins (.start root) = .ok last)
  (h : pen.Parts u w v root source plant before within after)
  (htwin : pen.Parts u w' v root draws twin others inner later)

include hdecided hother hlast h htwin

/-- Two runs over words that start alike start alike. -/
theorem Parts.first_eq :
    before = others ∧ ∃ x y, pen.stateAt root commands u.length = .ok x ∧
      pen.stateAt root twins u.length = .ok y ∧ x.Alike Eq y := by
  have hsame (k : Nat) (hk : k < u.length) : commands[0 + k]? = twins[0 + k]? := by
    apply commands_agree hdecided hread hother
    rw [Nat.zero_add, List.append_assoc, List.append_assoc, List.getElem?_append_left hk,
      List.getElem?_append_left hk]
  obtain ⟨x, y, hx, hy, halike, hblocks⟩ := exists_alike_blocks keepsLength_eq hread hfollow hother
    hlast (by simp) (by simp) hsame (pen.stateAt_zero root commands) (pen.stateAt_zero root twins)
    ⟨⟨rfl, rfl, rfl, rfl⟩, .nil, rfl⟩
  rw [Nat.zero_add] at hx hy
  refine ⟨funext fun o => ?_, x, y, hx, hy, halike⟩
  obtain ⟨marks, copies, hmarks, hcopies, hall⟩ := hblocks o
  rw [(h.first o).unique hmarks, (htwin.first o).unique hcopies]
  exact Instance.eq_of_forall₂_markedAlike hall

/-- Two runs over words that start and end alike leave alike records at the end, if what comes in
between leads to alike turtles and does not set the flag in one of them only. -/
theorem Parts.third_alike {R : Vec3 α → Vec3 α → Prop} (hR : KeepsLength R)
    (hturtles : ∀ x x' y y', pen.stateAt root commands u.length = .ok x →
      pen.stateAt root commands (u.length + w.length) = .ok x' →
      pen.stateAt root twins u.length = .ok y →
      pen.stateAt root twins (u.length + w'.length) = .ok y' → x.Alike Eq y →
      x'.current.Alike R y'.current ∧ List.Forall₂ (Turtle.Alike R) x'.parents y'.parents)
    (hflag : before .segment ≠ [] ∨ (within .segment ≠ [] ↔ inner .segment ≠ [])) (o : Organ) :
    List.Forall₂ (Instance.MarkedAlike R o) (after o) (later o) := by
  obtain ⟨rfl, x, y, hx, hy, hstart⟩ :=
    Parts.first_eq hread hfollow hdecided hother hlast h htwin
  obtain ⟨x', hx'⟩ := pen.exists_stateAt root commands hfollow (u.length + w.length)
  obtain ⟨y', hy'⟩ := pen.exists_stateAt root twins hlast (u.length + w'.length)
  have hbegun : x'.begun = y'.begun := by
    rw [Bool.eq_iff_iff, h.begun_iff hread hfollow hx', htwin.begun_iff hother hlast hy']
    tauto
  obtain ⟨hcurrent, hparents⟩ := hturtles x x' y y' hx hx' hy hy' hstart
  have hsame (k : Nat) (hk : k < v.length) :
      commands[u.length + w.length + k]? = twins[u.length + w'.length + k]? := by
    apply commands_agree hdecided hread hother
    rw [← List.length_append, ← List.length_append, List.getElem?_append_right (by omega),
      List.getElem?_append_right (by omega)]
    simp
  obtain ⟨-, -, -, -, -, hblocks⟩ := exists_alike_blocks hR hread hfollow hother hlast
    (by simp [Nat.add_assoc]) (by simp [Nat.add_assoc]) hsame hx' hy'
    ⟨hcurrent, hparents, hbegun⟩
  obtain ⟨marks, copies, hmarks, hcopies, hall⟩ := hblocks o
  rw [(h.third o).unique hmarks, (htwin.third o).unique hcopies]
  exact hall

end Runs

section Group

variable (hopen : pen.rules.choices? '[' = none) (hclose : pen.rules.choices? ']' = none)

include hopen hclose

/-- Over a group the turtle at work becomes thinner, and nothing else becomes of the turtles. -/
theorem turtles_of_walk_group (hw : Balanced Symbol.bracket w) {index : Nat} {x y : Walk α}
    (h : pen.walk index (grouped w) x source = (.ok y, rest)) :
    y.current = x.current.thinned ∧ y.parents = x.parents := by
  obtain ⟨tree, rfl⟩ := Bough.exists_word_eq w hw
  have hgroup : grouped tree.word = (Bough.group tree .tip).word := rfl
  have hdescend := pen.walk_word_eq_descend hopen hclose (.group tree .tip) index x.sketch
    x.parents source
  rw [← hgroup, Sketch.atop_sketch, h] at hdescend
  simp only [Bough.descend] at hdescend
  cases hchild : jittered x.sketch.turtle.deeper with
  | error e => simp [hchild, Except.map] at hdescend
  | ok child =>
      simp only [hchild] at hdescend
      cases hinner : tree.descend pen false { x.sketch with turtle := child } source with
      | mk result next =>
          cases result with
          | error e => simp [hinner, Except.map] at hdescend
          | ok drawn =>
              simp only [hinner, Except.map, Prod.mk.injEq, Except.ok.injEq] at hdescend
              rw [hdescend.1]
              exact ⟨rfl, rfl⟩

theorem turtles_of_group (hw : Balanced Symbol.bracket w)
    (hread : pen.read (u ++ grouped w ++ v) source = (.ok commands, rest)) {x y : Walk α}
    (hx : pen.stateAt root commands u.length = .ok x)
    (hy : pen.stateAt root commands (u.length + (grouped w).length) = .ok y) :
    y.current = x.current.thinned ∧ y.parents = x.parents := by
  have hfirst := (walk_take_eq_ok_iff hread u.length x).mpr hx
  have hsecond := (walk_take_eq_ok_iff hread (u.length + (grouped w).length) y).mpr hy
  rw [List.append_assoc, List.take_left] at hfirst
  rw [← List.length_append, List.take_left, walk_append] at hsecond
  cases hwalk : pen.walk 0 u (.start root) source with
  | mk result next =>
      obtain rfl : result = .ok x := by simpa [hwalk] using hfirst
      simp only [hwalk] at hsecond
      exact pen.turtles_of_walk_group hopen hclose hw (Prod.ext hsecond rfl)

end Group

/-- A side branch of a plant may be exchanged or cut off, and the rest of the plant stays as it
is, if the first segment of the plant is not at stake: a segment is drawn before the group, or the
group and what takes its place do not differ in whether they draw one. If the group is cut off, the
segments after it may change in thickness. -/
theorem pruning_keeps_rest (hdecided : pen.rules.Decided) (hopen : pen.rules.choices? '[' = none)
    (hclose : pen.rules.choices? ']' = none) (hw : Balanced Symbol.bracket w)
    (h : pen.draw (u ++ grouped w ++ v) root source = (.ok plant, rest)) :
    ∃ before within after, pen.Parts u (grouped w) v root source plant before within after ∧
      (∀ (τ : Type) [DrawSource τ α] (w' : Word) (draws left : τ) (twin : Plant α),
        Balanced Symbol.bracket w' →
        pen.draw (u ++ grouped w' ++ v) root draws = (.ok twin, left) →
        ∃ inner later, pen.Parts u (grouped w') v root draws twin before inner later ∧
          (before .segment ≠ [] ∨ (within .segment ≠ [] ↔ inner .segment ≠ []) →
            later = after)) ∧
      ∀ (τ : Type) [DrawSource τ α] (draws left : τ) (twin : Plant α),
        pen.draw (u ++ v) root draws = (.ok twin, left) →
        ∃ later, pen.Parts u [] v root draws twin before (fun _ => []) later ∧
          (before .segment ≠ [] ∨ within .segment = [] →
            ∀ o, List.Forall₂ (Instance.MarkedAlike SameLength o) (after o) (later o)) := by
  obtain ⟨commands, final, hread, hfollow, -, rfl⟩ := (pen.draw_eq_ok_iff _ _ _ _ _).mp h
  obtain ⟨before, within, after, hparts⟩ := exists_parts hread hfollow
  refine ⟨before, within, after, hparts, ?_, ?_⟩
  · intro τ _ w' draws left twin hw' htwin
    obtain ⟨twins, last, hother, hlast, -, rfl⟩ := (pen.draw_eq_ok_iff _ _ _ _ _).mp htwin
    obtain ⟨others, inner, later, hcopy⟩ := exists_parts hother hlast
    obtain ⟨rfl, -⟩ := Parts.first_eq hread hfollow hdecided hother hlast hparts hcopy
    refine ⟨inner, later, hcopy, fun hflag => funext fun o => ?_⟩
    have halike : List.Forall₂ (Instance.MarkedAlike Eq o) (after o) (later o) := by
      refine Parts.third_alike hread hfollow hdecided hother hlast hparts hcopy keepsLength_eq ?_
        hflag o
      intro x x' y y' hx hx' hy hy' hstart
      obtain ⟨hturtle, hparents⟩ := turtles_of_group hopen hclose hw hread hx hx'
      obtain ⟨hcurrent, hstack⟩ := turtles_of_group hopen hclose hw' hother hy hy'
      rw [hturtle, hparents, hcurrent, hstack]
      exact ⟨hstart.current.thinned keepsLength_eq, hstart.parents⟩
    exact (Instance.eq_of_forall₂_markedAlike halike).symm
  · intro τ _ draws left twin htwin
    rw [← List.append_nil u] at htwin
    obtain ⟨twins, last, hother, hlast, -, rfl⟩ := (pen.draw_eq_ok_iff _ _ _ _ _).mp htwin
    obtain ⟨others, inner, later, hcopy⟩ := exists_parts hother hlast
    obtain ⟨rfl, -⟩ := Parts.first_eq hread hfollow hdecided hother hlast hparts hcopy
    obtain rfl : inner = fun _ => [] := funext fun o => (hcopy.second o).unique Block.empty
    refine ⟨later, hcopy, fun hflag => ?_⟩
    refine Parts.third_alike hread hfollow hdecided hother hlast hparts hcopy
      keepsLength_sameLength ?_ (by simpa using hflag)
    intro x x' y y' hx hx' hy hy' hstart
    obtain ⟨hturtle, hparents⟩ := turtles_of_group hopen hclose hw hread hx hx'
    obtain rfl : y = y' := by
      rw [List.length_nil, Nat.add_zero, hy] at hy'
      exact Except.ok.inj hy'
    have hlike : x.Alike SameLength y := hstart.mono fun _ _ => congrArg Vec3.y
    rw [hturtle, hparents]
    exact ⟨hlike.current.thinned_left, hlike.parents⟩

end Pen

/-- A turtle in exact arithmetic that is deep enough to bear leaves. -/
noncomputable def Turtle.stalk : Turtle ℝ := { Turtle.origin with depth := 3 }

namespace Pen

/-- Draws segments and leaves in exact arithmetic, both by choices that leave nothing open. -/
noncomputable def sprig : Pen ℝ := plain ⟨[('F', .only .branch 1.0), ('L', .only .leaf 1.0)]⟩

theorem sprig_choices_cases {s : Symbol} {choices : Choices Action ℝ}
    (h : sprig.rules.choices? s = some choices) : ∃ action, choices = .only action 1.0 := by
  obtain ⟨entry, hentry, rfl⟩ := Option.map_eq_some_iff.mp h
  have hmem := List.mem_of_find?_eq_some hentry
  simp only [sprig, plain, List.mem_cons, List.not_mem_nil, or_false] at hmem
  rcases hmem with rfl | rfl
  · exact ⟨.branch, rfl⟩
  · exact ⟨.leaf, rfl⟩

theorem sprig_ready : sprig.Ready where
  covers := by
    intro s choices h
    obtain ⟨action, rfl⟩ := sprig_choices_cases h
    exact Choices.covers_only action
  branch := ⟨_, rfl⟩
  leaf := ⟨_, rfl⟩

theorem sprig_decided : sprig.rules.Decided := by
  apply RuleTable.decided_of_single
  intro s choices h
  obtain ⟨action, rfl⟩ := sprig_choices_cases h
  rfl

/-- Two segments of a stalk can be drawn one after the other. -/
theorem stalk_reach {n : ℕ} (hn : n ≤ 1) : (n : ℕ∞) < reach Turtle.stalk.scale.y := by
  rw [lt_reach_iff]
  intro k hk
  simp only [Turtle.stalk, Turtle.origin, Turtle.atRoot, Turtle.minVisibleScale]
  obtain rfl | rfl : k = 0 ∨ k = 1 := by omega
  · simp only [segmentAfter, Arith.scientific_real]
    norm_num
  · simp only [segmentAfter, Arith.scientific_real]
    norm_num

/-- A sprig that starts with a segment draws it from every root that is long enough. -/
theorem sprig_adds_first {w : Word} {root : Turtle ℝ} {numbers rest : ℕ → ℝ} {plant : Plant ℝ}
    (hlong : ((0 : ℕ) : ℕ∞) < reach root.scale.y)
    (h : sprig.draw ('F' :: w) root numbers = (.ok plant, rest)) :
    ∃ r, sprig.Adds .segment ('F' :: w) root numbers 0 r := by
  obtain ⟨commands, final, hread, hfollow, -, -⟩ := (sprig.draw_eq_ok_iff _ _ _ _ _).mp h
  obtain ⟨c, next, more, hc, -, rfl⟩ := (sprig.read_cons_eq_ok_iff _ _ _ _ _).mp hread
  have hrule : sprig.rules.choices? 'F' = some (.only .branch 1.0) := rfl
  obtain rfl : c = Organ.segment.command := by
    rcases command_eq_ok hc with ⟨hplain, -⟩ | ⟨choices, hchoices, rfl, -⟩
    · simp [hrule] at hplain
    · obtain rfl : Choices.only .branch 1.0 = choices :=
        Option.some.inj (hrule.symm.trans hchoices)
      rw [Choices.pick_only]
      rfl
  apply (exists_adds_iff hread hfollow .segment 0).mpr
  exact ⟨rfl, hlong⟩

theorem sprig_sprouts {w : Word} {numbers rest : ℕ → ℝ} {plant : Plant ℝ}
    (h : sprig.draw ('F' :: w) .stalk numbers = (.ok plant, rest)) :
    sprig.Sprouts ('F' :: w) .stalk numbers 0 1 := by
  obtain ⟨r, hr⟩ := sprig_adds_first (stalk_reach (Nat.zero_le 1)) h
  exact ⟨0, Nat.one_pos, r, hr⟩

/-- A side branch of a sprig that is exchanged for an empty one, and then cut off. -/
theorem pruned_sprig :
    ∃ (plant twin bare : Plant ℝ) (rest left last : ℕ → ℝ)
      (before within inner after later : Organ → List (ℕ × Instance ℝ)),
      sprig.draw ['F', '[', 'F', ']', 'F', 'L'] .stalk (fun _ : ℕ => (0 : ℝ)) =
        (.ok plant, rest) ∧
      sprig.draw ['F', '[', ']', 'F', 'L'] .stalk (fun _ : ℕ => (0 : ℝ)) = (.ok twin, left) ∧
      sprig.draw ['F', 'F', 'L'] .stalk (fun _ : ℕ => (0 : ℝ)) = (.ok bare, last) ∧
      before .segment ≠ [] ∧
      sprig.Parts ['F'] (grouped ['F']) ['F', 'L'] .stalk (fun _ : ℕ => (0 : ℝ)) plant
        before within after ∧
      sprig.Parts ['F'] (grouped []) ['F', 'L'] .stalk (fun _ : ℕ => (0 : ℝ)) twin
        before inner after ∧
      sprig.Parts ['F'] [] ['F', 'L'] .stalk (fun _ : ℕ => (0 : ℝ)) bare
        before (fun _ => []) later ∧
      ∀ o, List.Forall₂ (Instance.MarkedAlike SameLength o) (after o) (later o) := by
  have hopen : sprig.rules.choices? '[' = none := rfl
  have hclose : sprig.rules.choices? ']' = none := rfl
  have hdraw (word : Word) (hword : Balanced Symbol.bracket word) :
      ∃ plant rest, sprig.draw word .stalk (fun _ : ℕ => (0 : ℝ)) = (.ok plant, rest) :=
    sprig.exists_draw sprig_ready hopen hclose hword Vec3.isUnit_up _
  obtain ⟨plant, rest, hplant⟩ := hdraw ['F', '[', 'F', ']', 'F', 'L'] (by decide)
  obtain ⟨twin, left, htwin⟩ := hdraw ['F', '[', ']', 'F', 'L'] (by decide)
  obtain ⟨bare, last, hbare⟩ := hdraw ['F', 'F', 'L'] (by decide)
  obtain ⟨before, within, after, hparts, hexchanged, hcut⟩ :=
    pruning_keeps_rest (u := ['F']) (w := ['F']) (v := ['F', 'L']) sprig_decided hopen hclose
      (by decide) hplant
  have hdrawn : before .segment ≠ [] :=
    (hparts.first .segment).ne_nil_iff.mpr (sprig_sprouts hplant)
  obtain ⟨inner, same, hinner, hsame⟩ :=
    hexchanged (ℕ → ℝ) [] _ left twin (by decide) htwin
  obtain ⟨later, hlater, halike⟩ := hcut (ℕ → ℝ) _ last bare hbare
  obtain rfl := hsame (Or.inl hdrawn)
  exact ⟨plant, twin, bare, rest, left, last, before, within, inner, same, later, hplant, htwin,
    hbare, hdrawn, hparts, hinner, hlater, halike (Or.inl hdrawn)⟩

end Pen
end Meristem
