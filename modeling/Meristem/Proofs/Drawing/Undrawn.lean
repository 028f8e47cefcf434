import Meristem.Proofs.Deletion
import Meristem.Proofs.Drawing.Likeness

/-!
Symbols that draw nothing. A symbol without any meaning can be left out of a word, and the drawing
comes out the same, draws and failures included; only the places of the symbols behind it are
others. A symbol that stands for a leaf or for nothing takes a draw, so without it the others are
drawn with other numbers. Where no choice depends on them the segments stay the same nevertheless:
nothing that happens to a turtle looks at the leaves.
-/

namespace Meristem

/-- The state without its leaves. -/
def Walk.leafless {α : Type} (w : Walk α) : Walk α := { w with leaves := .empty }

namespace Pen

section Commands

variable {α : Type} [Scalar α] {pen : Pen α}

/-- A command that is carried out is carried out alike wherever it stands. -/
theorem obey_elsewhere {i : Nat} {c : Command} {w next : Walk α}
    (h : pen.obey i c w = .ok next) (j : Nat) : pen.obey j c w = .ok next := by
  cases c with
  | enter => exact h
  | leave =>
      obtain ⟨parent, others, hparents, rfl⟩ := Walk.closeGroup_eq_ok h
      obtain ⟨current, parents, branches, leaves, begun⟩ := w
      subst hparents
      rfl
  | stroke s => exact h

/-- Of all that is done to a state nothing looks at its leaves. -/
theorem obey_leafless (i : Nat) (c : Command) (w : Walk α) :
    (pen.obey i c w.leafless).map Walk.leafless = (pen.obey i c w).map Walk.leafless := by
  obtain ⟨current, parents, branches, leaves, begun⟩ := w
  cases c with
  | enter =>
      simp only [obey, Walk.openGroup, Walk.leafless]
      cases jittered current.deeper with
      | error e => rfl
      | ok child => rfl
  | leave =>
      cases parents with
      | nil => rfl
      | cons parent others => rfl
  | stroke s =>
      cases s with
      | act action =>
          simp only [← act_eq_obey, Walk.leafless]
          cases action with
          | branch =>
              simp only [act, drawBranch]
              split
              · cases aimed (!parents.isEmpty || begun) current with
                | error e => rfl
                | ok t =>
                    simp only [bind, Except.bind]
                    cases record t t.scale pen.branchColor with
                    | error e => rfl
                    | ok r => rfl
              · rfl
          | leaf =>
              simp only [act, drawLeaf]
              split
              · cases record current leafScale pen.leafColor with
                | error e => rfl
                | ok r => rfl
              · rfl
          | nothing => rfl
      | turn positive =>
          simp only [obey, Sketch.stroke, Sketch.turn, Walk.sketch, Walk.leafless]
          cases turned (if positive then 1.0 else -1.0) current with
          | error e => rfl
          | ok t => rfl
      | rest => rfl

/-- A view of a state that shows all that commands look at, and the turtles that wait. -/
structure Shows (pen : Pen α) (view : Walk α → Walk α) : Prop where
  obey_view : ∀ i c w, (pen.obey i c (view w)).map view = (pen.obey i c w).map view
  parents_view : ∀ w, (view w).parents = w.parents

theorem shows_id : pen.Shows id where
  obey_view := fun _ _ _ => rfl
  parents_view := fun _ => rfl

theorem shows_leafless : pen.Shows Walk.leafless where
  obey_view := obey_leafless
  parents_view := fun _ => rfl

/-- A command that the view does not show: where it is carried out nothing is to be seen of it. -/
def Unseen (pen : Pen α) (view : Walk α → Walk α) (c : Command) : Prop :=
  ∀ i w next, pen.obey i c w = .ok next → view next = view w

variable {view : Walk α → Walk α}

theorem Shows.exists_obey (hview : pen.Shows view) {i : Nat} {c : Command} {v w v' : Walk α}
    (hsame : view v = view w) (h : pen.obey i c v = .ok v') (j : Nat) :
    ∃ w', pen.obey j c w = .ok w' ∧ view v' = view w' := by
  have hboth : (pen.obey i c w).map view = .ok (view v') := by
    rw [← hview.obey_view, ← hsame, hview.obey_view, h]
    rfl
  cases hobey : pen.obey i c w with
  | error e => simp [hobey, Except.map] at hboth
  | ok w' =>
      have hend : view w' = view v' := by simpa [hobey, Except.map] using hboth
      exact ⟨w', obey_elsewhere hobey j, hend.symm⟩

/-- A run that ends well does so without commands that the view does not show, and ends with the
same view. The induction is on how the second run comes from the first, for any two states of one
view. -/
theorem Shows.exists_follow (hview : pen.Shows view) {commands twins : List Command}
    (h : Without (pen.Unseen view) commands twins) {i : Nat} {v w final : Walk α}
    (hsame : view v = view w) (hfollow : pen.follow i commands v = .ok final) (j : Nat) :
    ∃ last, pen.follow j twins w = .ok last ∧ view final = view last := by
  induction h generalizing i j v w with
  | nil =>
      obtain rfl : v = final := Except.ok.inj hfollow
      exact ⟨w, rfl, hsame⟩
  | keep c _ ih =>
      obtain ⟨v', hv, hrest⟩ := (pen.follow_cons_eq_ok_iff _ _ _ _ _).mp hfollow
      obtain ⟨w', hw, hnext⟩ := hview.exists_obey hsame hv j
      obtain ⟨last, hlast, hend⟩ := ih hnext hrest (j + 1)
      exact ⟨last, (pen.follow_cons_eq_ok_iff _ _ _ _ _).mpr ⟨w', hw, hlast⟩, hend⟩
  | drop hc _ ih =>
      obtain ⟨v', hv, hrest⟩ := (pen.follow_cons_eq_ok_iff _ _ _ _ _).mp hfollow
      exact ih ((hc _ _ _ hv).trans hsame) hrest j

end Commands

variable {α σ τ : Type} [Scalar α] [DrawSource σ α] [DrawSource τ α] {pen : Pen α}
  {word twin : Word} {root : Turtle α} {source rest : σ}

section Undrawn

variable (hdecided : pen.rules.Decided)

include hdecided

/-- Where nothing is left to choose, a symbol that can be read is read alike with any draws. -/
theorem exists_command_eq {s : Symbol} {c : Command}
    (h : pen.command s source = (.ok c, rest)) (draws : τ) :
    ∃ left, pen.command s draws = (.ok c, left) := by
  have hok : ∃ d left, pen.command s draws = (.ok d, left) := by
    unfold command at h ⊢
    cases hchoices : pen.rules.choices? s with
    | none => exact ⟨_, _, rfl⟩
    | some choices =>
        simp only [hchoices, choices.draw_eq] at h ⊢
        cases hcovers : choices.covers with
        | false => simp [hcovers] at h
        | true => exact ⟨_, _, rfl⟩
  obtain ⟨d, left, hd⟩ := hok
  rw [command_unique hdecided h hd]
  exact ⟨left, hd⟩

theorem exists_read_without {gone : Symbol → Prop} {unseen : Command → Prop}
    (hgone : ∀ s, gone s → ∀ (c : Command) (source next : σ),
      pen.command s source = (.ok c, next) → unseen c)
    (h : Without gone word twin) {commands : List Command}
    (hread : pen.read word source = (.ok commands, rest)) (draws : τ) :
    ∃ twins left, pen.read twin draws = (.ok twins, left) ∧ Without unseen commands twins := by
  induction h generalizing source commands draws with
  | nil =>
      simp only [read, Prod.mk.injEq, Except.ok.injEq] at hread
      obtain ⟨rfl, -⟩ := hread
      exact ⟨[], draws, rfl, Without.nil⟩
  | keep s _ ih =>
      obtain ⟨c, next, more, hc, hmore, rfl⟩ := (pen.read_cons_eq_ok_iff _ _ _ _ _).mp hread
      obtain ⟨middle, hd⟩ := exists_command_eq hdecided hc draws
      obtain ⟨twins, left, htwins, hwithout⟩ := ih hmore middle
      refine ⟨c :: twins, left, ?_, Without.keep c hwithout⟩
      exact (pen.read_cons_eq_ok_iff _ _ _ _ _).mpr ⟨c, middle, twins, hd, htwins, rfl⟩
  | drop hs _ ih =>
      obtain ⟨c, next, more, hc, hmore, rfl⟩ := (pen.read_cons_eq_ok_iff _ _ _ _ _).mp hread
      obtain ⟨twins, left, htwins, hwithout⟩ := ih hmore draws
      exact ⟨twins, left, htwins, Without.drop (hgone _ hs c source next hc) hwithout⟩

/-- A drawing that succeeds does so without symbols whose commands a view does not show, and with
any draws. The two plants belong to states of one view. -/
theorem exists_draw_without {gone : Symbol → Prop} {view : Walk α → Walk α}
    (hview : pen.Shows view)
    (hgone : ∀ s, gone s → ∀ (c : Command) (source next : σ),
      pen.command s source = (.ok c, next) → pen.Unseen view c)
    (h : Without gone word twin) {plant : Plant α}
    (hdraw : pen.draw word root source = (.ok plant, rest)) (draws : τ) :
    ∃ (copy : Plant α) (left : τ), pen.draw twin root draws = (.ok copy, left) ∧
      ∃ v w : Walk α, view v = view w ∧ plant = ⟨word, v.branches, v.leaves⟩ ∧
        copy = ⟨twin, w.branches, w.leaves⟩ := by
  obtain ⟨commands, final, hread, hfollow, hparents, rfl⟩ :=
    (pen.draw_eq_ok_iff _ _ _ _ _).mp hdraw
  obtain ⟨twins, left, htwins, hwithout⟩ := exists_read_without hdecided hgone h hread draws
  obtain ⟨last, hlast, hsame⟩ := hview.exists_follow hwithout rfl hfollow 0
  have hclosed : last.parents = [] := by
    rw [← hview.parents_view last, ← hsame, hview.parents_view, hparents]
  refine ⟨⟨twin, last.branches, last.leaves⟩, left, ?_, final, last, hsame, rfl, rfl⟩
  exact (pen.draw_eq_ok_iff _ _ _ _ _).mpr ⟨twins, last, htwins, hlast, hclosed, rfl⟩

end Undrawn

theorem unseen_nothing (view : Walk α → Walk α) :
    pen.Unseen view (.stroke (.act .nothing)) := by
  intro i w next h
  obtain rfl : w = next := Except.ok.inj h
  rfl

theorem unseen_leaf : pen.Unseen Walk.leafless (.stroke (.act .leaf)) := by
  intro i w next h
  rcases obey_leaf_eq_ok h with ⟨-, rfl⟩ | ⟨-, r, -, rfl⟩
  · rfl
  · rfl

/-- Where nothing is left to choose, a symbol with an action stands for that action. -/
theorem command_eq_of_offers (hdecided : pen.rules.Decided) {s : Symbol} {action : Action}
    (hs : pen.rules.Offers s action) {c : Command}
    (h : pen.command s source = (.ok c, rest)) : c = .stroke (.act action) := by
  obtain ⟨choices, weight, hchoices, hmem⟩ := id hs
  rcases command_eq_ok h with ⟨hplain, -⟩ | ⟨others, hothers, rfl, -⟩
  · simp [hplain] at hchoices
  · obtain ⟨other, hpick⟩ := others.exists_pick_mem (DrawSource.number source 0)
    rw [hdecided s _ _ ⟨others, other, hothers, hpick⟩ hs]

/-- A symbol that a drawing takes no notice of: it has no drawing rule, is no bracket and no
sign. -/
def Inert (pen : Pen α) (s : Symbol) : Prop :=
  pen.rules.contains s = false ∧ s ≠ '[' ∧ s ≠ ']' ∧ s ≠ '+' ∧ s ≠ '-'

theorem step_inert {s : Symbol} (hs : pen.Inert s) (i : Nat) (w : Walk α) (source : σ) :
    pen.step i s w source = (.ok w, source) := by
  obtain ⟨hplain, hopen, hclose, hplus, hminus⟩ := hs
  have hnone : pen.rules.choices? s = none := by
    simpa [RuleTable.contains] using hplain
  simp [step, hnone, Walk.steer, hopen, hclose, hplus, hminus]

/-- Where a symbol stands makes a difference to nothing but the complaint about a closing bracket
that no turtle waits for. -/
theorem step_elsewhere (i j : Nat) (s : Symbol) (w : Walk α) (source : σ) :
    pen.step j s w source = pen.step i s w source ∨
      ∃ left, pen.step i s w source = (.error (.unmatchedClose i), left) ∧
        pen.step j s w source = (.error (.unmatchedClose j), left) := by
  rw [step_eq, step_eq]
  cases pen.command s source with
  | mk result left =>
      cases result with
      | error e => exact Or.inl rfl
      | ok c =>
          cases c with
          | enter => exact Or.inl rfl
          | stroke s => exact Or.inl rfl
          | leave =>
              obtain ⟨current, parents, branches, leaves, begun⟩ := w
              cases parents with
              | nil => exact Or.inr ⟨left, rfl, rfl⟩
              | cons parent others => exact Or.inl rfl

/-- Two walks over words that differ by inert symbols end in the same state or with the same error,
after the same draws; or both end at the same closing bracket, each naming it by the place where it
stands in its own word. -/
theorem walk_without_inert (h : Without pen.Inert word twin) (i j : Nat) (w : Walk α)
    (source : σ) :
    pen.walk j twin w source = pen.walk i word w source ∨
      ∃ m n left, pen.walk i word w source = (.error (.unmatchedClose (i + m)), left) ∧
        pen.walk j twin w source = (.error (.unmatchedClose (j + n)), left) ∧
        word[m]? = twin[n]? ∧ Without pen.Inert (word.take m) (twin.take n) := by
  induction h generalizing i j w source with
  | nil => exact Or.inl rfl
  | keep s _ ih =>
      simp only [walk]
      rcases step_elsewhere i j s w source with hsame | ⟨left, hi, hj⟩
      · rw [hsame]
        cases pen.step i s w source with
        | mk result next =>
            cases result with
            | error e => exact Or.inl rfl
            | ok v =>
                rcases ih (i + 1) (j + 1) v next with hrest | ⟨m, n, left, hi, hj, hat, hbefore⟩
                · exact Or.inl hrest
                · refine Or.inr ⟨m + 1, n + 1, left, ?_, ?_, hat, Without.keep s hbefore⟩
                  · rw [← Nat.add_assoc, Nat.add_right_comm]
                    exact hi
                  · rw [← Nat.add_assoc, Nat.add_right_comm]
                    exact hj
      · rw [hi, hj]
        exact Or.inr ⟨0, 0, left, rfl, rfl, rfl, Without.nil⟩
  | drop hs _ ih =>
      simp only [walk, step_inert hs]
      rcases ih (i + 1) j w source with hrest | ⟨m, n, left, hi, hj, hat, hbefore⟩
      · exact Or.inl hrest
      · refine Or.inr ⟨m + 1, n, left, ?_, hj, hat, Without.drop hs hbefore⟩
        rw [← Nat.add_assoc, Nat.add_right_comm]
        exact hi

/-- The same outcome of two drawings: the same records, or the same error. An unmatched closing
bracket is the same if it stands at places up to which the words differ by inert symbols. -/
inductive SameOutcome (pen : Pen α) (word twin : Word) :
    Except GrowthError (Plant α) → Except GrowthError (Plant α) → Prop
  | drawn (branches leaves : InstanceBuffer α) :
      SameOutcome pen word twin (.ok ⟨word, branches, leaves⟩) (.ok ⟨twin, branches, leaves⟩)
  | failed (e : GrowthError) : SameOutcome pen word twin (.error e) (.error e)
  | unmatched (m n : Nat) (hat : word[m]? = twin[n]?)
      (hbefore : Without pen.Inert (word.take m) (twin.take n)) :
      SameOutcome pen word twin (.error (.unmatchedClose m)) (.error (.unmatchedClose n))

theorem sameOutcome_of_without (h : Without pen.Inert word twin) (root : Turtle α) (source : σ) :
    pen.SameOutcome word twin (pen.draw word root source).1 (pen.draw twin root source).1 ∧
      (pen.draw twin root source).2 = (pen.draw word root source).2 := by
  unfold draw
  rcases walk_without_inert h 0 0 (.start root) source with
    hsame | ⟨m, n, left, hword, htwin, hat, hbefore⟩
  · rw [hsame]
    cases pen.walk 0 word (.start root) source with
    | mk result left =>
        cases result with
        | error e => exact ⟨SameOutcome.failed e, rfl⟩
        | ok w =>
            refine ⟨?_, rfl⟩
            simp only [finish]
            split
            · exact SameOutcome.drawn _ _
            · exact SameOutcome.failed _
  · rw [hword, htwin, Nat.zero_add, Nat.zero_add]
    exact ⟨SameOutcome.unmatched m n hat hbefore, rfl⟩

/-- Symbols that draw no segments have no part in the segments. Inert symbols can be taken out of
every word, in any number, and the drawing has the same outcome and makes the same draws. Where each
symbol has a single action, also symbols for leaves and for nothing can be taken out of every word
that can be drawn, and the segments stay what they are; without those for nothing the leaves stay
too. -/
theorem draw_without_undrawn (pen : Pen α) (root : Turtle α) (word twin : Word) :
    (Without pen.Inert word twin → ∀ source : σ,
      pen.SameOutcome word twin (pen.draw word root source).1 (pen.draw twin root source).1 ∧
        (pen.draw twin root source).2 = (pen.draw word root source).2) ∧
    (pen.rules.Decided → ∀ (source rest : σ) (plant : Plant α),
      pen.draw word root source = (.ok plant, rest) → ∀ draws : τ,
      (Without (fun s => pen.rules.Offers s .leaf ∨ pen.rules.Offers s .nothing) word twin →
        ∃ copy left, pen.draw twin root draws = (.ok copy, left) ∧
          copy.branches = plant.branches) ∧
      (Without (fun s => pen.rules.Offers s .nothing) word twin →
        ∃ copy left, pen.draw twin root draws = (.ok copy, left) ∧
          copy.branches = plant.branches ∧ copy.leaves = plant.leaves)) := by
  refine ⟨fun h source => sameOutcome_of_without h root source, ?_⟩
  intro hdecided source rest plant hdraw draws
  constructor
  · intro h
    obtain ⟨copy, left, hcopy, v, w, hsame, rfl, rfl⟩ :=
      exists_draw_without hdecided shows_leafless (by
        rintro s (hs | hs) c start next hc
        · rw [command_eq_of_offers hdecided hs hc]
          exact unseen_leaf
        · rw [command_eq_of_offers hdecided hs hc]
          exact unseen_nothing _) h hdraw draws
    have hbranches : v.leafless.branches = w.leafless.branches := congrArg Walk.branches hsame
    exact ⟨_, left, hcopy, hbranches.symm⟩
  · intro h
    obtain ⟨copy, left, hcopy, v, w, rfl, rfl, rfl⟩ :=
      exists_draw_without hdecided shows_id (by
        intro s hs c start next hc
        rw [command_eq_of_offers hdecided hs hc]
        exact unseen_nothing _) h hdraw draws
    exact ⟨_, left, hcopy, rfl, rfl⟩

/-- Draws segments and leaves and has a symbol for nothing, each by a choice that leaves nothing
open. -/
def bud : Pen Float :=
  plain ⟨[('F', .only .branch 1.0), ('L', .only .leaf 1.0), ('N', .only .nothing 1.0)]⟩

theorem bud_decided : bud.rules.Decided := by
  apply RuleTable.decided_of_single
  intro s choices h
  obtain ⟨entry, hentry, rfl⟩ := Option.map_eq_some_iff.mp h
  have hmem : entry ∈ bud.rules.entries := List.mem_of_find?_eq_some hentry
  simp only [bud, plain, List.mem_cons, List.not_mem_nil, or_false] at hmem
  rcases hmem with rfl | rfl | rfl
  · rfl
  · rfl
  · rfl

/-- A bud is drawn without a symbol that has no meaning, then without its leaf and what stands for
nothing, then without the latter alone. -/
theorem bud_without_undrawn :
    ∃ (plant copy twin : Plant Float) (rest left last : Generator),
      bud.draw ['x', 'N', 'F', 'L'] (.seedling ⟨0.5, 0.0, 0.0⟩ 2.0) (⟨0, 1⟩ : Generator) =
        (.ok plant, rest) ∧
      plant.branches.count = 1 ∧ plant.leaves.count = 1 ∧
      bud.SameOutcome ['x', 'N', 'F', 'L'] ['N', 'F', 'L'] (.ok plant)
        (bud.draw ['N', 'F', 'L'] (.seedling ⟨0.5, 0.0, 0.0⟩ 2.0) (⟨0, 1⟩ : Generator)).1 ∧
      bud.draw ['x', 'F'] (.seedling ⟨0.5, 0.0, 0.0⟩ 2.0) (⟨5, 1⟩ : Generator) =
        (.ok copy, left) ∧
      copy.branches = plant.branches ∧
      bud.draw ['x', 'F', 'L'] (.seedling ⟨0.5, 0.0, 0.0⟩ 2.0) (⟨5, 1⟩ : Generator) =
        (.ok twin, last) ∧
      twin.branches = plant.branches ∧ twin.leaves = plant.leaves := by
  have hinert : bud.Inert 'x' := by
    unfold Inert
    decide
  have hleaf : bud.rules.Offers 'L' .leaf := ⟨_, 1.0, rfl, List.mem_singleton_self _⟩
  have hnothing : bud.rules.Offers 'N' .nothing := ⟨_, 1.0, rfl, List.mem_singleton_self _⟩
  have hbare : Without (fun s => bud.rules.Offers s .leaf ∨ bud.rules.Offers s .nothing)
      ['x', 'N', 'F', 'L'] ['x', 'F'] := by
    apply Without.keep
    apply Without.drop
    · exact Or.inr hnothing
    apply Without.keep
    apply Without.drop
    · exact Or.inl hleaf
    exact Without.nil
  have hshort : Without (fun s => bud.rules.Offers s .nothing)
      ['x', 'N', 'F', 'L'] ['x', 'F', 'L'] := by
    apply Without.keep
    apply Without.drop
    · exact hnothing
    exact Without.refl _ _
  obtain ⟨plant, rest, hplant⟩ := exists_eq_ok_of_isOk
    (x := bud.draw ['x', 'N', 'F', 'L'] (.seedling ⟨0.5, 0.0, 0.0⟩ 2.0) (⟨0, 1⟩ : Generator))
    (by decide +kernel)
  have hcounts : (bud.draw ['x', 'N', 'F', 'L'] (.seedling ⟨0.5, 0.0, 0.0⟩ 2.0)
      (⟨0, 1⟩ : Generator)).1.map (fun p => (p.branches.count, p.leaves.count)) =
        .ok (1, 1) := by decide +kernel
  simp only [hplant, Except.map, Except.ok.injEq, Prod.mk.injEq] at hcounts
  obtain ⟨hsame, -⟩ := (draw_without_undrawn bud (.seedling ⟨0.5, 0.0, 0.0⟩ 2.0)
    ['x', 'N', 'F', 'L'] ['N', 'F', 'L'] (σ := Generator) (τ := Generator)).1
      (Without.drop hinert (Without.refl _ _)) (⟨0, 1⟩ : Generator)
  obtain ⟨copy, left, hcopy, hbranches⟩ :=
    ((draw_without_undrawn bud (.seedling ⟨0.5, 0.0, 0.0⟩ 2.0)
      ['x', 'N', 'F', 'L'] ['x', 'F']).2 bud_decided _ _ _ hplant (⟨5, 1⟩ : Generator)).1
        hbare
  obtain ⟨twin, last, htwin, hsegments, hleaves⟩ :=
    ((draw_without_undrawn bud (.seedling ⟨0.5, 0.0, 0.0⟩ 2.0)
      ['x', 'N', 'F', 'L'] ['x', 'F', 'L']).2 bud_decided _ _ _ hplant (⟨5, 1⟩ : Generator)).2
        hshort
  rw [hplant] at hsame
  exact ⟨plant, copy, twin, rest, left, last, hplant, hcounts.1, hcounts.2, hsame, hcopy, hbranches,
    htwin, hsegments, hleaves⟩

end Pen
end Meristem
