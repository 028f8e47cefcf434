import Meristem.Proofs.Drawing.Run
import Mathlib.Data.List.Forall2

/-!
How thick a turtle is has no bearing on where it goes. Of its scale only the length of its segments
is ever looked at, and what is done to the thickness leaves the length alone. Two runs that carry
out the same commands from states that differ in thickness alone, and in the records made before,
go the same way: they leave records at the same symbols, and the records differ in the thickness of
segments alone.
-/

namespace Meristem

section Alike

variable {α : Type} (R : Vec3 α → Vec3 α → Prop)

/-- Two turtles that agree but for what `R` leaves open of their scales. -/
structure Turtle.Alike (t u : Turtle α) : Prop where
  position : t.position = u.position
  orientation : t.orientation = u.orientation
  scale : R t.scale u.scale
  depth : t.depth = u.depth

/-- Two states whose turtles agree, at work or waiting. Their records do not count. -/
structure Walk.Alike (v w : Walk α) : Prop where
  current : v.current.Alike R w.current
  parents : List.Forall₂ (Turtle.Alike R) v.parents w.parents
  begun : v.begun = w.begun

/-- The scales of two records of one kind. Leaves are all of one size. -/
def Organ.ScalesAlike : Organ → Vec3 α → Vec3 α → Prop
  | segment, a, b => R a b
  | leaf, a, b => a = b

/-- Two records of one kind that agree but for what `R` leaves open of the scales of segments. -/
structure Instance.Alike (o : Organ) (r s : Instance α) : Prop where
  position : r.position = s.position
  rotation : r.rotation = s.rotation
  color : r.color = s.color
  scale : o.ScalesAlike R r.scale s.scale

/-- The same for records with the places of their symbols. -/
structure Instance.MarkedAlike (o : Organ) (mark other : Nat × Instance α) : Prop where
  place : mark.1 = other.1
  record : Instance.Alike R o mark.2 other.2

variable {R}

theorem Turtle.Alike.mono {S : Vec3 α → Vec3 α → Prop} {t u : Turtle α} (h : t.Alike R u)
    (hRS : ∀ a b, R a b → S a b) : t.Alike S u :=
  ⟨h.position, h.orientation, hRS _ _ h.scale, h.depth⟩

theorem Walk.Alike.mono {S : Vec3 α → Vec3 α → Prop} {v w : Walk α} (h : v.Alike R w)
    (hRS : ∀ a b, R a b → S a b) : v.Alike S w :=
  ⟨h.current.mono hRS, h.parents.imp fun _ _ hturtle => hturtle.mono hRS, h.begun⟩

theorem Walk.Alike.isEmpty_eq {v w : Walk α} (h : v.Alike R w) :
    v.parents.isEmpty = w.parents.isEmpty := by
  have hlength := h.parents.length_eq
  rw [Bool.eq_iff_iff, List.isEmpty_iff_length_eq_zero, List.isEmpty_iff_length_eq_zero, hlength]

theorem Instance.Alike.eq {o : Organ} {r s : Instance α} (h : Instance.Alike Eq o r s) :
    r = s := by
  have hscale : r.scale = s.scale := by
    cases o with
    | segment => exact h.scale
    | leaf => exact h.scale
  obtain ⟨position, rotation, scale, color⟩ := r
  obtain ⟨hposition, hrotation, hcolor, -⟩ := h
  subst hposition hrotation hcolor hscale
  rfl

theorem Instance.eq_of_forall₂_markedAlike {o : Organ} {marks others : List (Nat × Instance α)}
    (h : List.Forall₂ (Instance.MarkedAlike Eq o) marks others) : marks = others := by
  rw [← List.forall₂_eq_eq_eq]
  exact h.imp fun _ _ hmark => Prod.ext hmark.place hmark.record.eq

theorem Turtle.Alike.deeper {t u : Turtle α} (h : t.Alike R u) : t.deeper.Alike R u.deeper :=
  ⟨h.position, h.orientation, h.scale, congrArg (· + 1) h.depth⟩

theorem Turtle.Alike.redirected {t u : Turtle α} (h : t.Alike R u) (direction : Vec3 α) :
    Turtle.Alike R { t with orientation := direction } { u with orientation := direction } :=
  ⟨h.position, rfl, h.scale, h.depth⟩

end Alike

section Arith

variable {α : Type} [Arith α]

/-- A relation that drawing keeps between the scales of two turtles, and that lets them differ in
thickness only. -/
structure KeepsLength (R : Vec3 α → Vec3 α → Prop) : Prop where
  length_eq : ∀ {a b : Vec3 α}, R a b → a.y = b.y
  shrunk : ∀ {t u : Turtle α}, R t.scale u.scale → R t.shrunk.scale u.shrunk.scale
  thinned : ∀ {t u : Turtle α}, R t.scale u.scale → R t.thinned.scale u.thinned.scale

/-- Scales of segments that are equally long, and may differ in thickness. -/
def SameLength (a b : Vec3 α) : Prop := a.y = b.y

theorem keepsLength_sameLength : KeepsLength (SameLength (α := α)) where
  length_eq := id
  shrunk := congrArg (· * 0.96)
  thinned := id

theorem keepsLength_eq : KeepsLength (Eq (α := Vec3 α)) where
  length_eq := congrArg Vec3.y
  shrunk := by
    intro t u h
    rw [Turtle.shrunk_scale, Turtle.shrunk_scale, h]
  thinned := by
    intro t u h
    simp [Turtle.thinned, h]

namespace Turtle.Alike

variable {R : Vec3 α → Vec3 α → Prop} {t u : Turtle α}

theorem lifted (h : t.Alike R u) : t.lifted.Alike R u.lifted := by
  refine ⟨by simpa using h.position, ?_, by simpa using h.scale, by simpa using h.depth⟩
  simp only [Turtle.lifted, h.orientation, h.depth]
  split
  · rfl
  · exact h.orientation

theorem thinned_left (h : t.Alike SameLength u) : t.thinned.Alike SameLength u :=
  ⟨h.position, h.orientation, h.scale, h.depth⟩

variable (hR : KeepsLength R)

include hR

theorem thinned (h : t.Alike R u) : t.thinned.Alike R u.thinned :=
  ⟨h.position, h.orientation, hR.thinned h.scale, h.depth⟩

theorem shrunk (h : t.Alike R u) : t.shrunk.Alike R u.shrunk :=
  ⟨h.position, h.orientation, hR.shrunk h.scale, h.depth⟩

theorem move (h : t.Alike R u) : t.move.Alike R u.move := by
  refine ⟨?_, h.orientation, h.scale, h.depth⟩
  rw [move_position, move_position, h.position, h.orientation, hR.length_eq h.scale]

theorem isVisible_eq (h : t.Alike R u) : t.isVisible = u.isVisible := by
  rw [isVisible, isVisible, hR.length_eq h.scale]

theorem bearsLeaf_eq (h : t.Alike R u) : t.bearsLeaf = u.bearsLeaf := by
  rw [bearsLeaf, bearsLeaf, h.isVisible_eq hR, h.depth]

end Turtle.Alike
end Arith

section Scalar

variable {α : Type} [Scalar α] {R : Vec3 α → Vec3 α → Prop}

namespace Turtle.Alike

variable {t u t' u' : Turtle α}

theorem jittered (h : t.Alike R u) (ht : Pen.jittered t = .ok t')
    (hu : Pen.jittered u = .ok u') : t'.Alike R u' := by
  obtain ⟨middle, direction, hmiddle, hdirection, rfl⟩ :=
    jitter_eq_ok ((mapError_eq_ok _ _ _).mp ht)
  obtain ⟨half, way, hhalf, hway, rfl⟩ := jitter_eq_ok ((mapError_eq_ok _ _ _).mp hu)
  rw [← h.position, ← h.orientation, hmiddle, Option.some.injEq] at hhalf
  rw [← h.position, ← hhalf, hdirection, Option.some.injEq] at hway
  rw [← hway]
  exact h.redirected direction

theorem turned {sign : α} (h : t.Alike R u) (ht : Pen.turned sign t = .ok t')
    (hu : Pen.turned sign u = .ok u') : t'.Alike R u' := by
  obtain ⟨frame, middle, direction, hframe, hmiddle, hdirection, rfl⟩ :=
    turn_eq_ok ((mapError_eq_ok _ _ _).mp ht)
  obtain ⟨view, half, way, hview, hhalf, hway, rfl⟩ :=
    turn_eq_ok ((mapError_eq_ok _ _ _).mp hu)
  rw [← h.position, ← h.orientation, hframe, Option.some.injEq] at hview
  rw [← h.position, ← h.orientation, ← hview, hmiddle, Option.some.injEq] at hhalf
  rw [← h.position, ← hview, ← hhalf, hdirection, Option.some.injEq] at hway
  rw [← hway]
  exact h.redirected direction

theorem aimed (hR : KeepsLength R) {wobble : Bool} (h : t.Alike R u)
    (ht : Pen.aimed wobble t = .ok t') (hu : Pen.aimed wobble u = .ok u') : t'.Alike R u' := by
  obtain ⟨shaken, hshaken, rfl⟩ := Pen.exists_shaken_of_aimed ht
  obtain ⟨other, hother, rfl⟩ := Pen.exists_shaken_of_aimed hu
  have halike : shaken.Alike R other := by
    cases wobble with
    | false =>
        obtain rfl : t = shaken := by simpa using hshaken
        obtain rfl : u = other := by simpa using hother
        exact h
    | true => exact h.jittered hshaken hother
  exact halike.lifted.shrunk hR

theorem record (h : t.Alike R u) (o : Organ) {a b : Vec3 α} (hsize : o.ScalesAlike R a b)
    {color : Except ColorFault (Vec4 α)} {r s : Instance α} (hr : Pen.record t a color = .ok r)
    (hs : Pen.record u b color = .ok s) : Instance.Alike R o r s := by
  obtain ⟨hposition, hrotation, rfl, hcolor⟩ := Pen.record_eq_ok hr
  obtain ⟨hplace, hquaternion, rfl, hpaint⟩ := Pen.record_eq_ok hs
  rw [quaternion?, ← h.orientation] at hquaternion
  refine ⟨?_, ?_, ?_, hsize⟩
  · rw [hposition, hplace, h.position]
  · exact Option.some.inj (hrotation.symm.trans hquaternion)
  · exact Except.ok.inj (hcolor.symm.trans hpaint)

end Turtle.Alike

namespace Pen

variable {pen : Pen α} {i j : Nat} {v w v' w' : Walk α}

/-- Two turtles of one length both draw their segment or both skip it. -/
theorem branches_alike (hR : KeepsLength R) (h : v.Alike R w)
    (hv : pen.obey i (.stroke (.act .branch)) v = .ok v')
    (hw : pen.obey j (.stroke (.act .branch)) w = .ok w') :
    (v' = v ∧ w' = w) ∨ ∃ (t u : Turtle α) (r s : Instance α),
      t.Alike R u ∧ Instance.Alike R .segment r s ∧
      v' = ⟨t.move, v.parents, v.branches.append r, v.leaves, true⟩ ∧
      w' = ⟨u.move, w.parents, w.branches.append s, w.leaves, true⟩ := by
  have hvisible := h.current.isVisible_eq hR
  rcases obey_branch_eq_ok hv with ⟨hsmall, hsame⟩ | ⟨hseen, t, r, ht, hr, hdrawn⟩
  · rcases obey_branch_eq_ok hw with ⟨-, hother⟩ | ⟨hlarge, -⟩
    · exact Or.inl ⟨hsame, hother⟩
    · simp [hsmall, hlarge] at hvisible
  · rcases obey_branch_eq_ok hw with ⟨hsmall, -⟩ | ⟨-, u, s, hu, hs, hother⟩
    · simp [hseen, hsmall] at hvisible
    · rw [← h.isEmpty_eq, ← h.begun] at hu
      have halike : t.Alike R u := h.current.aimed hR ht hu
      have hrecord : Instance.Alike R .segment r s := halike.record .segment halike.scale hr hs
      exact Or.inr ⟨t, u, r, s, halike, hrecord, hdrawn, hother⟩

theorem leaves_alike (hR : KeepsLength R) (h : v.Alike R w)
    (hv : pen.obey i (.stroke (.act .leaf)) v = .ok v')
    (hw : pen.obey j (.stroke (.act .leaf)) w = .ok w') :
    (v' = v ∧ w' = w) ∨ ∃ r s, Instance.Alike R .leaf r s ∧
      v' = { v with leaves := v.leaves.append r } ∧
      w' = { w with leaves := w.leaves.append s } := by
  have hbears := h.current.bearsLeaf_eq hR
  rcases obey_leaf_eq_ok hv with ⟨hbare, hsame⟩ | ⟨hfit, r, hr, hdrawn⟩
  · rcases obey_leaf_eq_ok hw with ⟨-, hother⟩ | ⟨hother, -⟩
    · exact Or.inl ⟨hsame, hother⟩
    · simp [hbare, hother] at hbears
  · rcases obey_leaf_eq_ok hw with ⟨hbare, -⟩ | ⟨-, s, hs, hother⟩
    · simp [hfit, hbare] at hbears
    · have hrecord : Instance.Alike R .leaf r s := h.current.record .leaf rfl hr hs
      exact Or.inr ⟨r, s, hrecord, hdrawn, hother⟩

/-- A command leads from alike states to alike states, wherever it stands in its word. -/
theorem obey_alike (hR : KeepsLength R) {c : Command} (h : v.Alike R w)
    (hv : pen.obey i c v = .ok v') (hw : pen.obey j c w = .ok w') : v'.Alike R w' := by
  cases c with
  | enter =>
      obtain ⟨child, hchild, rfl⟩ := Walk.openGroup_eq_ok hv
      obtain ⟨other, hother, rfl⟩ := Walk.openGroup_eq_ok hw
      exact ⟨h.current.deeper.jittered hchild hother, .cons (h.current.thinned hR) h.parents,
        h.begun⟩
  | leave =>
      obtain ⟨parent, parents, hwait, rfl⟩ := Walk.closeGroup_eq_ok hv
      obtain ⟨other, others, hstay, rfl⟩ := Walk.closeGroup_eq_ok hw
      have hparents := h.parents
      rw [hwait, hstay, List.forall₂_cons] at hparents
      exact ⟨hparents.1, hparents.2, h.begun⟩
  | stroke s =>
      cases s with
      | act action =>
          cases action with
          | branch =>
              rcases branches_alike hR h hv hw with
                ⟨rfl, rfl⟩ | ⟨t, u, r, s, halike, -, rfl, rfl⟩
              · exact h
              · exact ⟨halike.move hR, h.parents, rfl⟩
          | leaf =>
              rcases leaves_alike hR h hv hw with ⟨rfl, rfl⟩ | ⟨r, s, -, rfl, rfl⟩
              · exact h
              · exact ⟨h.current, h.parents, h.begun⟩
          | nothing =>
              obtain rfl : v = v' := Except.ok.inj hv
              obtain rfl : w = w' := Except.ok.inj hw
              exact h
      | turn positive =>
          obtain ⟨t, ht, rfl⟩ := obey_turn_eq_ok hv
          obtain ⟨u, hu, rfl⟩ := obey_turn_eq_ok hw
          exact ⟨h.current.turned ht hu, h.parents, h.begun⟩
      | rest =>
          obtain rfl : v = v' := Except.ok.inj hv
          obtain rfl : w = w' := Except.ok.inj hw
          exact h

/-- Either both runs leave the records of a kind as they are, or each adds one to them, and the
two are alike. -/
theorem records_alike (hR : KeepsLength R) {c : Command} (h : v.Alike R w)
    (hv : pen.obey i c v = .ok v') (hw : pen.obey j c w = .ok w') (o : Organ) :
    (o.records v' = o.records v ∧ o.records w' = o.records w) ∨
      ∃ r s, o.records v' = (o.records v).append r ∧ o.records w' = (o.records w).append s ∧
        Instance.Alike R o r s := by
  by_cases hc : c = o.command
  · subst hc
    cases o with
    | segment =>
        rcases branches_alike hR h hv hw with ⟨rfl, rfl⟩ | ⟨t, u, r, s, -, hrecord, rfl, rfl⟩
        · exact Or.inl ⟨rfl, rfl⟩
        · exact Or.inr ⟨r, s, rfl, rfl, hrecord⟩
    | leaf =>
        rcases leaves_alike hR h hv hw with ⟨rfl, rfl⟩ | ⟨r, s, hrecord, rfl, rfl⟩
        · exact Or.inl ⟨rfl, rfl⟩
        · exact Or.inr ⟨r, s, rfl, rfl, hrecord⟩
  · exact Or.inl ⟨records_of_obey hc hv, records_of_obey hc hw⟩

section Runs

variable {σ τ : Type} [DrawSource σ α] [DrawSource τ α] {symbols others : Word} {source rest : σ}
  {draws left : τ} {commands twins : List Command}

/-- A pen whose symbols each have one possible action reads a symbol in one way only. -/
theorem command_unique (hdecided : pen.rules.Decided) {s : Symbol} {c d : Command}
    (hc : pen.command s source = (.ok c, rest)) (hd : pen.command s draws = (.ok d, left)) :
    c = d := by
  rcases command_eq_ok hc with ⟨hplain, rfl, -⟩ | ⟨choices, hchoices, rfl, -⟩
  · rcases command_eq_ok hd with ⟨-, rfl, -⟩ | ⟨others, hothers, -⟩
    · rfl
    · simp [hplain] at hothers
  · rcases command_eq_ok hd with ⟨hplain, -⟩ | ⟨others, hothers, rfl, -⟩
    · simp [hplain] at hchoices
    · obtain rfl : choices = others := Option.some.inj (hchoices.symm.trans hothers)
      have hoffers (u : α) : pen.rules.Offers s (choices.pick u) := by
        obtain ⟨weight, hmem⟩ := choices.exists_pick_mem u
        exact ⟨choices, weight, hchoices, hmem⟩
      rw [hdecided s _ _ (hoffers _) (hoffers _)]

theorem exists_command_of_read (h : pen.read symbols source = (.ok commands, rest)) {s : Symbol}
    (hs : symbols[i]? = some s) :
    ∃ c before after, commands[i]? = some c ∧ pen.command s before = (.ok c, (after : σ)) := by
  induction symbols generalizing source commands i with
  | nil => simp at hs
  | cons first symbols ih =>
      obtain ⟨c, next, more, hcommand, hmore, rfl⟩ := (pen.read_cons_eq_ok_iff _ _ _ _ _).mp h
      cases i with
      | zero =>
          obtain rfl : first = s := by simpa using hs
          exact ⟨c, source, next, rfl, hcommand⟩
      | succ i =>
          have htail : symbols[i]? = some s := by simpa using hs
          simpa using ih hmore htail

/-- Where two words have the same symbol, such a pen reads the same command. -/
theorem commands_agree (hdecided : pen.rules.Decided)
    (hread : pen.read symbols source = (.ok commands, rest))
    (hother : pen.read others draws = (.ok twins, left)) (hsame : symbols[i]? = others[j]?) :
    commands[i]? = twins[j]? := by
  cases hs : symbols[i]? with
  | none =>
      have hi : commands.length ≤ i := by
        rw [pen.read_length hread]
        exact List.getElem?_eq_none_iff.mp hs
      have hj : twins.length ≤ j := by
        rw [pen.read_length hother]
        exact List.getElem?_eq_none_iff.mp (hsame.symm.trans hs)
      rw [List.getElem?_eq_none hi, List.getElem?_eq_none hj]
  | some s =>
      obtain ⟨c, before, after, hc, hcommand⟩ := exists_command_of_read hread hs
      obtain ⟨d, start, stop, hd, htwin⟩ := exists_command_of_read hother (hsame.symm.trans hs)
      rw [hc, hd, command_unique hdecided hcommand htwin]

/-- Two runs that come to a stretch in alike states and carry out the same commands on it leave it
in alike states, and leave alike records at the same symbols of it. The induction is on the length
of the stretch, for the two runs together. -/
theorem exists_alike_blocks (hR : KeepsLength R) {root : Turtle α} {final last : Walk α}
    (hread : pen.read symbols source = (.ok commands, rest))
    (hfollow : pen.follow 0 commands (.start root) = .ok final)
    (hother : pen.read others draws = (.ok twins, left))
    (hlast : pen.follow 0 twins (.start root) = .ok last) {length : Nat}
    (hi : i + length ≤ symbols.length) (hj : j + length ≤ others.length)
    (hsame : ∀ k < length, commands[i + k]? = twins[j + k]?)
    (hv : pen.stateAt root commands i = .ok v) (hw : pen.stateAt root twins j = .ok w)
    (h : v.Alike R w) :
    ∃ v' w', pen.stateAt root commands (i + length) = .ok v' ∧
      pen.stateAt root twins (j + length) = .ok w' ∧ v'.Alike R w' ∧
      ∀ o, ∃ marks copies, pen.Block o symbols root source i length marks ∧
        pen.Block o others root draws j length copies ∧
        List.Forall₂ (Instance.MarkedAlike R o) marks copies := by
  induction length with
  | zero =>
      exact ⟨v, w, hv, hw, h, fun o => ⟨[], [], Block.empty, Block.empty, .nil⟩⟩
  | succ length ih =>
      obtain ⟨v, w, hv, hw, halike, hblocks⟩ :=
        ih (by omega) (by omega) fun k hk => hsame k (by omega)
      obtain ⟨before, v', hpass⟩ := exists_passes hread hfollow (i := i + length) (by omega)
      obtain ⟨start, w', htwin⟩ := exists_passes hother hlast (i := j + length) (by omega)
      obtain ⟨hbefore, hafter⟩ := hpass.states hread
      obtain ⟨hstart, hstop⟩ := htwin.states hother
      obtain rfl : v = before := by simpa [hv] using hbefore
      obtain rfl : w = start := by simpa [hw] using hstart
      obtain ⟨c, hc⟩ := hpass.exists_command hread
      have hobey := hpass.obey hread hc
      have hcopy := htwin.obey hother ((hsame length (by omega)).symm.trans hc)
      refine ⟨v', w', hafter, hstop, obey_alike hR halike hobey hcopy, fun o => ?_⟩
      obtain ⟨marks, copies, hmarks, hcopies, hall⟩ := hblocks o
      rcases records_alike hR halike hobey hcopy o with ⟨hkept, hstill⟩ | ⟨r, s, hr, hs, hrecord⟩
      · exact ⟨marks, copies, hmarks.kept hpass hkept, hcopies.kept htwin hstill, hall⟩
      · refine ⟨marks ++ [(length, r)], copies ++ [(length, s)], hmarks.grown hpass hr,
          hcopies.grown htwin hs, ?_⟩
        exact List.rel_append hall (.cons ⟨rfl, hrecord⟩ .nil)

end Runs
end Pen
end Scalar
end Meristem
