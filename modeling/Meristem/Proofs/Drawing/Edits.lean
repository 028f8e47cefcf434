import Meristem.Proofs.Drawing.Continuity
import Mathlib.Logic.Relation

/-!
What happens to a turtle, one change at a time. A wobble, a turn, the aiming for a segment, the move
along it and the start or the end of a group are made of few kinds of changes, and no command makes
a turtle in any other way: each turtle of a state has come by such changes from one of the state
before. What single changes keep is thereby kept for every turtle of a run, also in the midst of a
command.
-/

namespace Meristem

/-- The turtles of a state, the one at work first. -/
def Walk.turtles {α : Type} (w : Walk α) : List (Turtle α) := w.current :: w.parents

namespace Turtle

variable {α : Type} [Scalar α]

/-- One change of a turtle. -/
inductive Edit : Turtle α → Turtle α → Prop
  | rotate {t next : Turtle α} {axis : Vec3 α} {degrees : α}
      (h : t.rotate axis degrees = .ok next) : Edit t next
  | lift (t : Turtle α) : Edit t t.lifted
  | shrink (t : Turtle α) : Edit t t.shrunk
  | move (t : Turtle α) : Edit t t.move
  | thin (t : Turtle α) : Edit t t.thinned
  | deepen (t : Turtle α) : Edit t t.deeper

/-- Any number of changes, one after the other. -/
def Edits : Turtle α → Turtle α → Prop := Relation.ReflTransGen Edit

theorem Edits.refl (t : Turtle α) : t.Edits t := Relation.ReflTransGen.refl

theorem Edit.edits {t next : Turtle α} (h : t.Edit next) : t.Edits next :=
  Relation.ReflTransGen.single h

theorem Edits.trans {t middle next : Turtle α} (h : t.Edits middle) (hrest : middle.Edits next) :
    t.Edits next :=
  Relation.ReflTransGen.trans h hrest

/-- What every change keeps, any number of changes keeps. -/
theorem Edits.preserves {P : Turtle α → Prop}
    (hstep : ∀ s u : Turtle α, s.Edit u → P s → P u)
    {t next : Turtle α} (h : t.Edits next) (ht : P t) : P next := by
  induction h with
  | refl => exact ht
  | tail _ hedit ih => exact hstep _ _ hedit ih

variable {t next : Turtle α}

theorem edits_of_rotations {axis : Vec3 α} {degrees : α} {second : Vec3 α}
    {angle : Turtle α → α}
    (h : (do let half ← t.rotate axis degrees; half.rotate second (angle half)) = .ok next) :
    t.Edits next := by
  cases hfirst : t.rotate axis degrees with
  | error stuck => simp [hfirst, bind, Except.bind] at h
  | ok half =>
      simp only [hfirst, bind, Except.bind] at h
      exact (Edit.rotate hfirst).edits.trans (Edit.rotate h).edits

theorem edits_of_jittered (h : Pen.jittered t = .ok next) : t.Edits next :=
  edits_of_rotations ((mapError_eq_ok _ _ _).mp h)

theorem edits_of_turned {sign : α} (h : Pen.turned sign t = .ok next) : t.Edits next := by
  have hturn : t.turn sign = .ok next := (mapError_eq_ok _ _ _).mp h
  unfold turn at hturn
  cases hframe : Frame.lookAt? t.position (t.position + t.orientation) with
  | none => simp [hframe] at hturn
  | some frame =>
      simp only [hframe] at hturn
      exact edits_of_rotations hturn

theorem edits_of_aimed {wobble : Bool} (h : Pen.aimed wobble t = .ok next) : t.Edits next := by
  obtain ⟨shaken, hshaken, rfl⟩ := Pen.exists_shaken_of_aimed h
  have hstart : t.Edits shaken := by
    cases wobble with
    | false =>
        obtain rfl : t = shaken := by simpa using hshaken
        exact Edits.refl t
    | true => exact edits_of_jittered hshaken
  exact (hstart.trans (Edit.lift shaken).edits).trans (Edit.shrink _).edits

end Turtle

namespace Pen

variable {α σ : Type} [Scalar α] [DrawSource σ α]

section Obey

variable {pen : Pen α} {index : Nat} {c : Command} {w next : Walk α}

/-- A turtle at work that was changed, over the turtles that wait as before. -/
theorem edits_of_current (hparents : next.parents = w.parents)
    (hcurrent : w.current.Edits next.current) :
    ∀ t ∈ next.turtles, ∃ s ∈ w.turtles, s.Edits t := by
  intro t ht
  rcases List.mem_cons.mp ht with rfl | ht
  · exact ⟨w.current, List.mem_cons_self, hcurrent⟩
  · rw [hparents] at ht
    exact ⟨t, List.mem_cons_of_mem _ ht, Turtle.Edits.refl t⟩

/-- A command makes its turtles from those it finds. -/
theorem edits_of_obey (h : pen.obey index c w = .ok next) :
    ∀ t ∈ next.turtles, ∃ s ∈ w.turtles, s.Edits t := by
  cases c with
  | enter =>
      obtain ⟨child, hchild, rfl⟩ := Walk.openGroup_eq_ok h
      have hborn : w.current.Edits child :=
        (Turtle.Edit.deepen w.current).edits.trans (Turtle.edits_of_jittered hchild)
      intro t ht
      rcases List.mem_cons.mp ht with rfl | ht
      · exact ⟨w.current, List.mem_cons_self, hborn⟩
      rcases List.mem_cons.mp ht with rfl | ht
      · exact ⟨w.current, List.mem_cons_self, (Turtle.Edit.thin w.current).edits⟩
      · exact ⟨t, List.mem_cons_of_mem _ ht, Turtle.Edits.refl t⟩
  | leave =>
      obtain ⟨parent, others, hparents, rfl⟩ := Walk.closeGroup_eq_ok h
      intro t ht
      refine ⟨t, ?_, Turtle.Edits.refl t⟩
      rw [Walk.turtles, hparents]
      exact List.mem_cons_of_mem _ ht
  | stroke s =>
      cases s with
      | act action =>
          cases action with
          | branch =>
              rcases obey_branch_eq_ok h with ⟨-, rfl⟩ | ⟨-, t, r, ht, -, rfl⟩
              · exact edits_of_current rfl (Turtle.Edits.refl _)
              · exact edits_of_current rfl
                  ((Turtle.edits_of_aimed ht).trans (Turtle.Edit.move t).edits)
          | leaf =>
              rcases obey_leaf_eq_ok h with ⟨-, rfl⟩ | ⟨-, r, -, rfl⟩
              · exact edits_of_current rfl (Turtle.Edits.refl _)
              · exact edits_of_current rfl (Turtle.Edits.refl _)
          | nothing =>
              obtain rfl : w = next := Except.ok.inj h
              exact edits_of_current rfl (Turtle.Edits.refl _)
      | turn positive =>
          obtain ⟨t, ht, rfl⟩ := obey_turn_eq_ok h
          exact edits_of_current rfl (Turtle.edits_of_turned ht)
      | rest =>
          obtain rfl : w = next := Except.ok.inj h
          exact edits_of_current rfl (Turtle.Edits.refl _)

end Obey

variable {pen : Pen α} {symbols : Word} {root : Turtle α} {source rest : σ}
  {commands : List Command}

theorem Passes.edits (hread : pen.read symbols source = (.ok commands, rest)) {i : Nat}
    {before after : Walk α} (h : pen.Passes symbols root source i before after) :
    ∀ t ∈ after.turtles, ∃ s ∈ before.turtles, s.Edits t := by
  obtain ⟨c, hc⟩ := h.exists_command hread
  exact edits_of_obey (h.obey hread hc)

/-- Every turtle of a run has come from the root. -/
theorem edits_of_follow {index : Nat} {w final : Walk α}
    (hstart : ∀ t ∈ w.turtles, root.Edits t)
    (h : pen.follow index commands w = .ok final) : ∀ t ∈ final.turtles, root.Edits t := by
  refine pen.follow_keeps (P := fun w => ∀ t ∈ w.turtles, root.Edits t) ?_ h hstart
  intro index c w next hobey hbefore t ht
  obtain ⟨s, hs, hedits⟩ := edits_of_obey hobey t ht
  exact (hbefore s hs).trans hedits

theorem Passes.edits_root (hread : pen.read symbols source = (.ok commands, rest)) {i : Nat}
    {before after : Walk α} (h : pen.Passes symbols root source i before after) :
    ∀ t ∈ before.turtles, root.Edits t := by
  refine edits_of_follow ?_ (h.states hread).1
  intro t ht
  obtain rfl : t = root := by simpa [Walk.turtles, Walk.start] using ht
  exact Turtle.Edits.refl t

end Pen
end Meristem
