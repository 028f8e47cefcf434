import Meristem.Proofs.Drawing.Edits
import Meristem.Proofs.Drawing.Unmatched

/-!
Where a drawing can lose its direction. Wobbles and quaternions are made from a turtle's direction
alone, but a turn works with the difference of two places. So if a property of turtles is kept by
every change and is enough for the first two, only a turn is left to find no direction.
-/

namespace Meristem

/-- The sign that makes a turn. -/
def Symbol.sign : Bool → Symbol
  | true => '+'
  | false => '-'

theorem Command.ofSymbol_eq_turn_iff {s : Symbol} {positive : Bool} :
    ofSymbol s = .stroke (.turn positive) ↔ s = Symbol.sign positive := by
  constructor
  · intro h
    unfold ofSymbol Stroke.ofSymbol at h
    split at h
    · simp at h
    split at h
    · simp at h
    split at h
    · rename_i hplus
      obtain rfl : true = positive := by simpa using h
      exact hplus
    split at h
    · rename_i hminus
      obtain rfl : false = positive := by simpa using h
      exact hminus
    · simp at h
  · rintro rfl
    cases positive with
    | true => rfl
    | false => rfl

/-- A property that a turtle cannot lose, and that lets it wobble and leave records. -/
structure Turtle.Steady {α : Type} [Scalar α] (P : Turtle α → Prop) : Prop where
  edit : ∀ t next : Turtle α, t.Edit next → P t → P next
  jitter : ∀ t : Turtle α, P t → ∃ next, t.jitter = .ok next
  quaternion : ∀ t : Turtle α, P t → ∃ q, t.quaternion? = some q

namespace Turtle.Steady

variable {α : Type} [Scalar α] {P : Turtle α → Prop} (hP : Steady P) {t : Turtle α}

include hP

theorem edits {next : Turtle α} (h : t.Edits next) (ht : P t) : P next :=
  h.preserves hP.edit ht

theorem exists_jittered (ht : P t) : ∃ next, Pen.jittered t = .ok next := by
  obtain ⟨next, hnext⟩ := hP.jitter t ht
  exact ⟨next, (mapError_eq_ok _ _ _).mpr hnext⟩

theorem exists_aimed (ht : P t) (wobble : Bool) :
    ∃ next, Pen.aimed wobble t = .ok next ∧ P next := by
  obtain ⟨next, hnext⟩ : ∃ next, Pen.aimed wobble t = .ok next := by
    cases wobble with
    | false => exact ⟨t.lifted.shrunk, rfl⟩
    | true =>
        obtain ⟨shaken, hshaken⟩ := hP.exists_jittered ht
        refine ⟨shaken.lifted.shrunk, ?_⟩
        simp only [Pen.aimed, ↓reduceIte, hshaken, bind, Except.bind, pure, Except.pure]
  exact ⟨next, hnext, hP.edits (edits_of_aimed hnext) ht⟩

theorem record_ne (ht : P t) (scale : Vec3 α) (color : Except ColorFault (Vec4 α)) :
    Pen.record t scale color ≠ .error .noDirection := by
  obtain ⟨q, hq⟩ := hP.quaternion t ht
  cases color with
  | error fault => simp [Pen.record, hq, mapError_error, bind, Except.bind]
  | ok paint => simp [Pen.record, hq, mapError_ok, bind, Except.bind, pure, Except.pure]

/-- Of all strokes only a turn can find no direction. -/
theorem stroke_error {pen : Pen α} {bottom : Bool} {s : Stroke} {k : Sketch α}
    (hk : P k.turtle) (h : k.stroke pen bottom s = .error .noDirection) :
    ∃ positive, s = .turn positive ∧
      Pen.turned (if positive then 1.0 else -1.0) k.turtle = .error .noDirection := by
  cases s with
  | act action =>
      cases action with
      | branch =>
          obtain ⟨t, ht, hsteady⟩ := hP.exists_aimed hk (!bottom || k.begun)
          simp only [Sketch.stroke, Sketch.branch] at h
          split at h
          · cases hrecord : Pen.record t t.scale pen.branchColor with
            | error e =>
                obtain rfl : e = .noDirection := by
                  simpa [ht, hrecord, bind, Except.bind] using h
                exact absurd hrecord (hP.record_ne hsteady _ _)
            | ok r => simp [ht, hrecord, bind, Except.bind, pure, Except.pure] at h
          · simp at h
      | leaf =>
          simp only [Sketch.stroke, Sketch.leaf] at h
          split at h
          · cases hrecord : Pen.record k.turtle Pen.leafScale pen.leafColor with
            | error e =>
                obtain rfl : e = .noDirection := by
                  simpa [hrecord, bind, Except.bind] using h
                exact absurd hrecord (hP.record_ne hk _ _)
            | ok r => simp [hrecord, bind, Except.bind, pure, Except.pure] at h
          · simp at h
      | nothing => simp [Sketch.stroke] at h
  | turn positive =>
      refine ⟨positive, rfl, ?_⟩
      simp only [Sketch.stroke, Sketch.turn] at h
      cases hturned : Pen.turned (if positive then 1.0 else -1.0) k.turtle with
      | error e =>
          obtain rfl : e = .noDirection := Pen.turned_error hturned
          rfl
      | ok t =>
          simp only [hturned, bind, Except.bind, pure, Except.pure] at h
          simp at h
  | rest => simp [Sketch.stroke] at h

theorem obey_error {pen : Pen α} {index : Nat} {c : Command} {w : Walk α} (hw : P w.current)
    (h : pen.obey index c w = .error .noDirection) :
    ∃ positive, c = .stroke (.turn positive) ∧
      Pen.turned (if positive then 1.0 else -1.0) w.current = .error .noDirection := by
  cases c with
  | enter =>
      obtain ⟨child, hchild⟩ := hP.exists_jittered (hP.edit _ _ (.deepen w.current) hw)
      simp [Pen.obey, Walk.openGroup, hchild, bind, Except.bind, pure, Except.pure] at h
  | leave =>
      obtain ⟨current, parents, branches, leaves, begun⟩ := w
      cases parents with
      | nil => simp [Pen.obey, Walk.closeGroup] at h
      | cons parent others => simp [Pen.obey, Walk.closeGroup] at h
  | stroke s =>
      obtain ⟨positive, rfl, hturned⟩ := hP.stroke_error (k := w.sketch) hw (eq_error_of_map h)
      exact ⟨positive, rfl, hturned⟩

end Turtle.Steady

namespace Pen

variable {α σ : Type} [Scalar α] [DrawSource σ α]

/-- The run comes to a sign at `i`, where the turtle `t` is to turn. -/
def ComesToTurn (pen : Pen α) (symbols : Word) (root : Turtle α) (source : σ) (i : Nat)
    (positive : Bool) (t : Turtle α) : Prop :=
  symbols[i]? = some (.sign positive) ∧
    pen.rules.choices? (.sign positive) = none ∧
    ∃ w rest, pen.walk 0 (symbols.take i) (.start root) source = (.ok w, rest) ∧ t = w.current

/-- The run comes to a sign at `i` with the turtle `t`, which finds no direction for its turn. -/
def LosesTurn (pen : Pen α) (symbols : Word) (root : Turtle α) (source : σ) (i : Nat)
    (t : Turtle α) : Prop :=
  ∃ positive, pen.ComesToTurn symbols root source i positive t ∧
    turned (if positive then 1.0 else -1.0) t = .error .noDirection

variable {pen : Pen α} {symbols : Word} {root : Turtle α} {source : σ}

theorem edits_of_walk {word : Word} {w : Walk α} {rest : σ}
    (h : pen.walk 0 word (.start root) source = (.ok w, rest)) : root.Edits w.current := by
  obtain ⟨commands, -, hfollow⟩ := (pen.walk_eq_ok_iff 0 _ _ w source _).mp h
  refine edits_of_follow ?_ hfollow _ List.mem_cons_self
  intro t ht
  obtain rfl : t = root := by simpa [Walk.turtles, Walk.start] using ht
  exact Turtle.Edits.refl t

theorem ComesToTurn.edits {i : Nat} {positive : Bool} {t : Turtle α}
    (h : pen.ComesToTurn symbols root source i positive t) : root.Edits t := by
  obtain ⟨-, -, w, rest, hwalk, rfl⟩ := h
  exact edits_of_walk hwalk

/-- A turn that finds no direction ends the drawing. -/
theorem LosesTurn.draw {i : Nat} {t : Turtle α} (h : pen.LosesTurn symbols root source i t) :
    (pen.draw symbols root source).1 = .error .noDirection := by
  obtain ⟨positive, ⟨hs, hplain, w, rest, hwalk, rfl⟩, hturned⟩ := h
  obtain ⟨hi, hsign⟩ := List.getElem?_eq_some_iff.mp hs
  have hcommand := Command.ofSymbol_eq_turn_iff.mpr hsign
  rw [← hsign] at hplain
  have hsplit : symbols = symbols.take i ++ symbols[i] :: symbols.drop (i + 1) := by simp
  have hstep : pen.step i symbols[i] w rest = (.error .noDirection, rest) := by
    have hread : pen.command symbols[i] rest = (.ok (.stroke (.turn positive)), rest) := by
      simp [command, hplain, hcommand]
    simp only [step_eq, hread, obey, Sketch.stroke, Sketch.turn]
    have hsketch : w.sketch.turtle = w.current := rfl
    rw [hsketch, hturned]
    rfl
  have hwhole : pen.walk 0 symbols (.start root) source = (.error .noDirection, rest) := by
    rw [hsplit, walk_append, hwalk]
    simp only [List.length_take, Nat.min_eq_left hi.le, Nat.zero_add, walk, hstep]
  simp [Pen.draw, hwhole]

/-- If all turtles that come from the root are steady, then a drawing fails for want of a direction
exactly if some turn finds none. -/
theorem draw_noDirection_iff {P : Turtle α → Prop} (hP : Turtle.Steady P) (hroot : P root) :
    (pen.draw symbols root source).1 = .error .noDirection ↔
      ∃ i t, pen.LosesTurn symbols root source i t := by
  constructor
  · intro h
    have hwalk : (pen.walk 0 symbols (.start root) source).1 = .error .noDirection := by
      unfold draw at h
      cases hwalk : pen.walk 0 symbols (.start root) source with
      | mk result rest =>
          cases result with
          | error e => simpa [hwalk] using h
          | ok w =>
              simp only [hwalk, finish] at h
              split at h
              · simp at h
              · simp at h
    obtain ⟨first, s, w, ⟨second, rfl⟩, hfirst, hstops, -⟩ := walk_error (Prod.ext hwalk rfl)
    rw [walk_concat, hfirst] at hstops
    have hborn := edits_of_walk hfirst
    simp only [step_eq] at hstops
    cases hcommand : pen.command s (DrawSource.advance source (pen.rules.ruled first)) with
    | mk result rest =>
        cases result with
        | error e =>
            obtain rfl : e = .noDirection := by simpa [hcommand] using congrArg Prod.fst hstops
            simpa using command_error hcommand
        | ok c =>
            have hobey : pen.obey (0 + first.length) c w = .error .noDirection := by
              simpa [hcommand] using congrArg Prod.fst hstops
            obtain ⟨positive, rfl, hturned⟩ := hP.obey_error (hP.edits hborn hroot) hobey
            rcases command_eq_ok hcommand with ⟨hplain, hcommand, -⟩ | ⟨_, -, hdrawn, -⟩
            · have hsign := Command.ofSymbol_eq_turn_iff.mp hcommand.symm
              have hbefore : (first ++ [s] ++ second).take first.length = first := by simp
              have hsymbol : (first ++ [s] ++ second)[first.length]? = some s := by simp
              rw [← hbefore] at hfirst
              rw [hsign] at hplain
              exact ⟨first.length, w.current, positive,
                ⟨hsymbol.trans (congrArg some hsign), hplain, w, _, hfirst, rfl⟩, hturned⟩
            · simp at hdrawn
  · rintro ⟨i, t, hlost⟩
    exact hlost.draw

end Pen
end Meristem
