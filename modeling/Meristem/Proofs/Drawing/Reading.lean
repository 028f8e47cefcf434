import Meristem.Proofs.Draws
import Meristem.Proofs.Drawing.Sketch

/-!
A walk as a reading and an execution. A symbol is first read, which is all that takes a draw, and
then the command it stands for is carried out, which is all that touches turtles and records. A
walk that ends well has read the whole word into commands and carried them all out.
-/

namespace Meristem

/-- What a symbol stands for once its action, if it has any, is drawn. -/
inductive Command where
  | enter
  | leave
  | stroke (stroke : Stroke)
deriving DecidableEq, Repr

/-- The command of a symbol without a drawing rule. -/
def Command.ofSymbol (s : Symbol) : Command :=
  if s = '[' then .enter
  else if s = ']' then .leave
  else .stroke (.ofSymbol s)

namespace Walk

theorem closeGroup_eq_ok {α : Type} {index : Nat} {w next : Walk α}
    (h : w.closeGroup index = .ok next) :
    ∃ parent others, w.parents = parent :: others ∧
      next = ⟨parent, others, w.branches, w.leaves, w.begun⟩ := by
  obtain ⟨current, parents, branches, leaves, begun⟩ := w
  cases parents with
  | nil => simp [closeGroup] at h
  | cons parent others =>
      simp only [closeGroup, Except.ok.injEq] at h
      exact ⟨parent, others, rfl, h.symm⟩

theorem openGroup_eq_ok {α : Type} [Scalar α] {w next : Walk α} (h : w.openGroup = .ok next) :
    ∃ child, Pen.jittered w.current.deeper = .ok child ∧
      next = ⟨child, w.current.thinned :: w.parents, w.branches, w.leaves, w.begun⟩ := by
  unfold openGroup at h
  cases hjitter : Pen.jittered w.current.deeper with
  | error e => simp [hjitter, bind, Except.bind] at h
  | ok child =>
      simp only [hjitter, bind, Except.bind, pure, Except.pure, Except.ok.injEq] at h
      exact ⟨child, rfl, h.symm⟩

end Walk

namespace Pen

section Follow

variable {α : Type} [Scalar α] (pen : Pen α)

/-- Carries out one command, which stands at `index`. -/
def obey (index : Nat) : Command → Walk α → Except GrowthError (Walk α)
  | .enter, w => w.openGroup
  | .leave, w => w.closeGroup index
  | .stroke s, w => (w.sketch.stroke pen w.parents.isEmpty s).map (·.atop w.parents)

/-- Carries out commands from `index` on, up to the first error. -/
def follow : Nat → List Command → Walk α → Except GrowthError (Walk α)
  | _, [], w => .ok w
  | index, c :: rest, w =>
    match pen.obey index c w with
    | .error e => .error e
    | .ok w => follow (index + 1) rest w

theorem obey_stroke_eq_ok {index : Nat} {s : Stroke} {w next : Walk α}
    (h : pen.obey index (.stroke s) w = .ok next) :
    ∃ k, w.sketch.stroke pen w.parents.isEmpty s = .ok k ∧ next = k.atop w.parents := by
  simp only [obey] at h
  cases hstroke : w.sketch.stroke pen w.parents.isEmpty s with
  | error e => simp [hstroke, Except.map] at h
  | ok k =>
      simp only [hstroke, Except.map, Except.ok.injEq] at h
      exact ⟨k, rfl, h.symm⟩

theorem follow_singleton (c : Command) (index : Nat) (w : Walk α) :
    pen.follow index [c] w = pen.obey index c w := by
  simp only [follow]
  cases pen.obey index c w with
  | error e => rfl
  | ok next => rfl

theorem follow_cons_eq_ok_iff (c : Command) (rest : List Command) (index : Nat)
    (w final : Walk α) :
    pen.follow index (c :: rest) w = .ok final ↔
      ∃ middle, pen.obey index c w = .ok middle ∧
        pen.follow (index + 1) rest middle = .ok final := by
  simp only [follow]
  cases pen.obey index c w with
  | error e => simp
  | ok middle => simp

/-- What every command keeps is kept to the end. -/
theorem follow_keeps {P : Walk α → Prop} {commands : List Command} {index : Nat}
    {w final : Walk α} (hstep : ∀ index c w next, pen.obey index c w = .ok next → P w → P next)
    (h : pen.follow index commands w = .ok final) (hw : P w) : P final := by
  induction commands generalizing index w with
  | nil =>
      obtain rfl : w = final := Except.ok.inj h
      exact hw
  | cons c commands ih =>
      obtain ⟨middle, hobey, hmore⟩ := (pen.follow_cons_eq_ok_iff _ _ _ _ _).mp h
      exact ih hmore (hstep _ _ _ _ hobey hw)

theorem follow_append (first second : List Command) (index : Nat) (w : Walk α) :
    pen.follow index (first ++ second) w =
      match pen.follow index first w with
      | .error e => .error e
      | .ok middle => pen.follow (index + first.length) second middle := by
  induction first generalizing index w with
  | nil => rfl
  | cons c rest ih =>
      simp only [List.cons_append, follow]
      cases pen.obey index c w with
      | error e => rfl
      | ok next =>
          have hindex : index + 1 + rest.length = index + (c :: rest).length := by
            simp only [List.length_cons]
            omega
          simp only [ih (index + 1) next, hindex]

theorem steer_eq_obey (index : Nat) (s : Symbol) (w : Walk α) :
    w.steer index s = pen.obey index (.ofSymbol s) w := by
  have hw : w = w.sketch.atop w.parents := rfl
  unfold Walk.steer Command.ofSymbol Stroke.ofSymbol
  split
  · rfl
  split
  · rfl
  split
  · rw [hw]
    exact pen.turn_atop true w.sketch w.parents
  split
  · rw [hw]
    exact pen.turn_atop false w.sketch w.parents
  · rfl

theorem act_eq_obey (index : Nat) (action : Action) (w : Walk α) :
    pen.act action w = pen.obey index (.stroke (.act action)) w :=
  pen.act_atop action w.sketch w.parents

end Follow

variable {α σ : Type} [Scalar α] [DrawSource σ α] (pen : Pen α)

/-- Reads one symbol. Of all that a pen does only this uses the source. -/
def command (s : Symbol) (source : σ) : Except GrowthError Command × σ :=
  match pen.rules.choices? s with
  | some choices =>
    match choices.draw source with
    | (.error e, source) => (.error e, source)
    | (.ok action, source) => (.ok (.stroke (.act action)), source)
  | none => (.ok (.ofSymbol s), source)

variable {pen} in
/-- A symbol is read as what it stands for in itself, or as an action that is drawn for it. -/
theorem command_eq_ok {s : Symbol} {source rest : σ} {c : Command}
    (h : pen.command s source = (.ok c, rest)) :
    (pen.rules.choices? s = none ∧ c = .ofSymbol s ∧ rest = source) ∨
      ∃ choices, pen.rules.choices? s = some choices ∧
        c = .stroke (.act (choices.pick (DrawSource.number source 0))) ∧
        rest = DrawSource.advance source 1 := by
  unfold command at h
  cases hchoices : pen.rules.choices? s with
  | none =>
      simp only [hchoices, Prod.mk.injEq, Except.ok.injEq] at h
      exact Or.inl ⟨rfl, h.1.symm, h.2.symm⟩
  | some choices =>
      simp only [hchoices, choices.draw_eq] at h
      cases hcovers : choices.covers with
      | false => simp [hcovers] at h
      | true =>
          simp only [hcovers, ↓reduceIte, Prod.mk.injEq, Except.ok.injEq] at h
          exact Or.inr ⟨choices, rfl, h.1.symm, h.2.symm⟩

def read : Word → σ → Except GrowthError (List Command) × σ
  | [], source => (.ok [], source)
  | s :: rest, source =>
    match pen.command s source with
    | (.error e, source) => (.error e, source)
    | (.ok c, source) =>
      match read rest source with
      | (.error e, source) => (.error e, source)
      | (.ok commands, source) => (.ok (c :: commands), source)

theorem walk_append (index : Nat) (first second : Word) (w : Walk α) (source : σ) :
    pen.walk index (first ++ second) w source =
      match pen.walk index first w source with
      | (.error e, rest) => (.error e, rest)
      | (.ok middle, rest) => pen.walk (index + first.length) second middle rest := by
  induction first generalizing index w source with
  | nil => rfl
  | cons s first ih =>
      simp only [List.cons_append, walk]
      cases pen.step index s w source with
      | mk result rest =>
          cases result with
          | error e => rfl
          | ok next =>
              have hindex : index + 1 + first.length = index + (s :: first).length := by
                simp only [List.length_cons]
                omega
              simp only [ih (index + 1) next rest, hindex]

/-- One step of a walk reads a symbol and carries out its command. -/
theorem step_eq (index : Nat) (s : Symbol) (w : Walk α) (source : σ) :
    pen.step index s w source =
      match pen.command s source with
      | (.error e, rest) => (.error e, rest)
      | (.ok c, rest) => (pen.obey index c w, rest) := by
  unfold step command
  cases pen.rules.choices? s with
  | none => simp only [pen.steer_eq_obey index s w]
  | some choices =>
      simp only
      cases choices.draw source with
      | mk result rest =>
          cases result with
          | error e => rfl
          | ok action => simp only [pen.act_eq_obey index action w]

theorem read_cons_eq_ok_iff (s : Symbol) (word : Word) (source rest : σ)
    (commands : List Command) :
    pen.read (s :: word) source = (.ok commands, rest) ↔
      ∃ c next more, pen.command s source = (.ok c, next) ∧
        pen.read word next = (.ok more, rest) ∧ commands = c :: more := by
  constructor
  · intro h
    simp only [read] at h
    cases hcommand : pen.command s source with
    | mk result next =>
        cases result with
        | error e => simp [hcommand] at h
        | ok c =>
            simp only [hcommand] at h
            cases htail : pen.read word next with
            | mk tail last =>
                cases tail with
                | error e => simp [htail] at h
                | ok more =>
                    simp only [htail, Prod.mk.injEq, Except.ok.injEq] at h
                    obtain ⟨rfl, rfl⟩ := h
                    exact ⟨c, next, more, rfl, htail, rfl⟩
  · rintro ⟨c, next, more, hcommand, hmore, rfl⟩
    simp [read, hcommand, hmore]

/-- A walk ends well exactly when its word can be read and the commands can all be carried out.
In between it meets the first error of either kind. -/
theorem walk_eq_ok_iff (index : Nat) (word : Word) (w final : Walk α) (source rest : σ) :
    pen.walk index word w source = (.ok final, rest) ↔
      ∃ commands, pen.read word source = (.ok commands, rest) ∧
        pen.follow index commands w = .ok final := by
  induction word generalizing index w source with
  | nil =>
      constructor
      · intro h
        simp only [walk, Prod.mk.injEq, Except.ok.injEq] at h
        obtain ⟨rfl, rfl⟩ := h
        exact ⟨[], rfl, rfl⟩
      · rintro ⟨commands, hread, hfollow⟩
        simp only [read, Prod.mk.injEq, Except.ok.injEq] at hread
        obtain ⟨rfl, rfl⟩ := hread
        simp only [follow, Except.ok.injEq] at hfollow
        simp [walk, hfollow]
  | cons s word ih =>
      simp only [walk, step_eq]
      constructor
      · intro h
        cases hcommand : pen.command s source with
        | mk result next =>
            cases result with
            | error e => simp [hcommand] at h
            | ok c =>
                simp only [hcommand] at h
                cases hobey : pen.obey index c w with
                | error e => simp [hobey] at h
                | ok middle =>
                    simp only [hobey] at h
                    obtain ⟨more, hread, hfollow⟩ := (ih _ _ _).mp h
                    refine ⟨c :: more, ?_, ?_⟩
                    · exact (pen.read_cons_eq_ok_iff _ _ _ _ _).mpr
                        ⟨c, next, more, hcommand, hread, rfl⟩
                    · exact (pen.follow_cons_eq_ok_iff _ _ _ _ _).mpr ⟨middle, hobey, hfollow⟩
      · rintro ⟨commands, hread, hfollow⟩
        obtain ⟨c, next, more, hcommand, hmore, rfl⟩ :=
          (pen.read_cons_eq_ok_iff _ _ _ _ _).mp hread
        obtain ⟨middle, hobey, hrest⟩ := (pen.follow_cons_eq_ok_iff _ _ _ _ _).mp hfollow
        simp only [hcommand, hobey]
        exact (ih _ _ _).mpr ⟨more, hmore, hrest⟩

theorem read_length {word : Word} {source rest : σ} {commands : List Command}
    (h : pen.read word source = (.ok commands, rest)) : commands.length = word.length := by
  induction word generalizing source commands with
  | nil =>
      simp only [read, Prod.mk.injEq, Except.ok.injEq] at h
      simp [← h.1]
  | cons s word ih =>
      obtain ⟨c, next, more, -, hmore, rfl⟩ := (pen.read_cons_eq_ok_iff _ _ _ _ _).mp h
      simp [ih hmore]

theorem read_take {word : Word} {source rest : σ} {commands : List Command}
    (h : pen.read word source = (.ok commands, rest)) (i : Nat) :
    ∃ left, pen.read (word.take i) source = (.ok (commands.take i), left) := by
  induction word generalizing source commands i with
  | nil =>
      simp only [read, Prod.mk.injEq, Except.ok.injEq] at h
      exact ⟨source, by simp [← h.1, read]⟩
  | cons s word ih =>
      cases i with
      | zero => exact ⟨source, by simp [read]⟩
      | succ i =>
          obtain ⟨c, next, more, hcommand, hmore, rfl⟩ :=
            (pen.read_cons_eq_ok_iff _ _ _ _ _).mp h
          obtain ⟨left, hleft⟩ := ih hmore i
          refine ⟨left, ?_⟩
          simp only [List.take_succ_cons]
          exact (pen.read_cons_eq_ok_iff _ _ _ _ _).mpr
            ⟨c, next, more.take i, hcommand, hleft, rfl⟩

/-- A drawing succeeds exactly when its word can be read, the commands can be carried out and no
group stays open. -/
theorem draw_eq_ok_iff (symbols : Word) (root : Turtle α) (source rest : σ) (plant : Plant α) :
    pen.draw symbols root source = (.ok plant, rest) ↔
      ∃ commands final, pen.read symbols source = (.ok commands, rest) ∧
        pen.follow 0 commands (.start root) = .ok final ∧ final.parents = [] ∧
        plant = ⟨symbols, final.branches, final.leaves⟩ := by
  constructor
  · intro h
    unfold draw at h
    cases hwalk : pen.walk 0 symbols (.start root) source with
    | mk result last =>
        cases result with
        | error e => simp [hwalk] at h
        | ok final =>
            simp only [hwalk, Prod.mk.injEq] at h
            obtain ⟨hfinish, rfl⟩ := h
            unfold finish at hfinish
            split at hfinish
            · rename_i hparents
              obtain ⟨commands, hread, hfollow⟩ := (pen.walk_eq_ok_iff _ _ _ _ _ _).mp hwalk
              refine ⟨commands, final, hread, hfollow, hparents, ?_⟩
              simpa using hfinish.symm
            · simp at hfinish
  · rintro ⟨commands, final, hread, hfollow, hparents, rfl⟩
    have hwalk : pen.walk 0 symbols (.start root) source = (.ok final, rest) :=
      (pen.walk_eq_ok_iff _ _ _ _ _ _).mpr ⟨commands, hread, hfollow⟩
    simp [draw, hwalk, finish, hparents]

end Pen
end Meristem
