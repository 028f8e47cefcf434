import Meristem.Proofs.Drawing.Run

/-!
Why a plant hangs together. A turtle moves only when it draws a segment, and then to the end of
that segment. So every record of a path stands where the last segment on the path ends, whatever
lies between in the word: a group that is closed leaves its turtle behind, and a group that is
opened starts its own where the turtle stands that goes on after it.
-/

namespace Meristem

open Command

/-- The places of all turtles of a state, the one at work first. -/
def Walk.places {α : Type} (w : Walk α) : List (Vec3 α) :=
  w.current.position :: w.parents.map (·.position)

namespace Pen

variable {α σ : Type} [Scalar α] [DrawSource σ α]

/-- The run draws the segment `r` in a direction when it passes the symbol at `i`: it aims the
turtle, leaves a record of it and moves it to the segment's end. -/
def Draws (pen : Pen α) (symbols : Word) (root : Turtle α) (source : σ) (i : Nat)
    (r : Instance α) (direction : Vec3 α) : Prop :=
  ∃ before after t, pen.Passes symbols root source i before after ∧
    aimed (!before.parents.isEmpty || before.begun) before.current = .ok t ∧
    record t t.scale pen.branchColor = .ok r ∧
    after = ⟨t.move, before.parents, before.branches.append r, before.leaves, true⟩ ∧
    direction = t.orientation

/-- A path ends where the last segment drawn on it ends, or at the root if none is. -/
def EndsAt (pen : Pen α) (symbols : Word) (root : Turtle α) (source : σ)
    (path : List (Command × Nat)) (place : Vec3 α) : Prop :=
  ((∀ x ∈ path, ∀ r, ¬ pen.Adds .segment symbols root source x.2 r) ∧
      place = root.position) ∨
    ∃ later c j earlier r direction, path = later ++ (c, j) :: earlier ∧
      (∀ x ∈ later, ∀ s, ¬ pen.Adds .segment symbols root source x.2 s) ∧
      pen.Draws symbols root source j r direction ∧
      place = r.position + direction.scale r.scale.y

/-- A column holds the places of the records of one kind that a run leaves, in the order of their
symbols, each followed by a zero. -/
def StoresPlaces (pen : Pen α) (o : Organ) (symbols : Word) (root : Turtle α) (source : σ)
    (column : Array α) : Prop :=
  ∃ marks : List (Nat × Instance α),
    marks.Pairwise (fun first second => first.1 < second.1) ∧
    (∀ i r, (i, r) ∈ marks ↔ pen.Adds o symbols root source i r) ∧
    column.toList = marks.flatMap fun mark =>
      [mark.2.position.x, mark.2.position.y, mark.2.position.z, 0.0]

/-- How the records and the turtles of a run stand to each other. -/
structure Connected (pen : Pen α) (symbols : Word) (root : Turtle α) (source : σ)
    (commands : List Command) (plant : Plant α) : Prop where
  passed : ∀ i < symbols.length, ∃ before after, pen.Passes symbols root source i before after
  drawn : ∀ i r, pen.Adds .segment symbols root source i r →
    ∃ direction, pen.Draws symbols root source i r direction
  /-- A segment starts where its turtle stands, is turned the way the turtle is aimed and ends
  where the turtle is put. -/
  segment : ∀ i r direction, pen.Draws symbols root source i r direction →
    Quat.between? Vec3.up direction = some r.rotation ∧
      ∃ before after, pen.Passes symbols root source i before after ∧
        r.position = before.current.position ∧ r.scale = before.current.scale.scale 0.96 ∧
        after.current.position = r.position + direction.scale r.scale.y ∧
        after.parents = before.parents
  /-- A record stands at the end of its path. -/
  placed : ∀ o i r, pen.Adds o symbols root source i r →
    pen.EndsAt symbols root source (path (commands.take i)) r.position
  entered : ∀ i before after, commands[i]? = some .enter →
    pen.Passes symbols root source i before after →
    after.places = before.current.position :: before.places
  left : ∀ i before after, commands[i]? = some .leave →
    pen.Passes symbols root source i before after →
    before.places = before.current.position :: after.places
  /-- What draws no segment moves no turtle. -/
  still : ∀ i s before after, commands[i]? = some (.stroke s) →
    pen.Passes symbols root source i before after →
    (∀ r, ¬ pen.Adds .segment symbols root source i r) → after.places = before.places
  stored : ∀ o : Organ, pen.StoresPlaces o symbols root source (o.stored plant).translate

variable {pen : Pen α} {symbols : Word} {root : Turtle α} {source rest : σ}
  {commands : List Command}

theorem Draws.adds {i : Nat} {r : Instance α} {direction : Vec3 α}
    (h : pen.Draws symbols root source i r direction) :
    pen.Adds .segment symbols root source i r := by
  obtain ⟨before, after, t, hpass, -, -, rfl, -⟩ := h
  exact ⟨before, _, hpass, rfl⟩

theorem Draws.unique {i : Nat} {r s : Instance α} {direction way : Vec3 α}
    (h : pen.Draws symbols root source i r direction)
    (hother : pen.Draws symbols root source i s way) : r = s ∧ direction = way := by
  obtain ⟨before, after, t, hpass, haim, hr, -, rfl⟩ := h
  obtain ⟨other, next, u, hsame, hagain, hs, -, rfl⟩ := hother
  obtain ⟨rfl, rfl⟩ := hpass.unique hsame
  obtain rfl : t = u := by simpa [haim] using hagain
  exact ⟨by simpa [hr] using hs, rfl⟩

section EndsAt

variable {path : List (Command × Nat)} {place : Vec3 α}

theorem endsAt_nil : pen.EndsAt symbols root source [] root.position :=
  Or.inl ⟨by simp, rfl⟩

/-- What a path ends with decides where it ends, unless it draws no segment. -/
theorem endsAt_cons_iff (c : Command) (i : Nat) :
    pen.EndsAt symbols root source ((c, i) :: path) place ↔
      (∃ r direction, pen.Draws symbols root source i r direction ∧
        place = r.position + direction.scale r.scale.y) ∨
      ((∀ r, ¬ pen.Adds .segment symbols root source i r) ∧
        pen.EndsAt symbols root source path place) := by
  constructor
  · rintro (⟨hundrawn, hplace⟩ | ⟨later, last, j, earlier, r, direction, hpath, hlater, hrest⟩)
    · refine Or.inr ⟨hundrawn (c, i) (by simp), Or.inl ⟨?_, hplace⟩⟩
      intro x hx
      exact hundrawn x (List.mem_cons_of_mem _ hx)
    · cases later with
      | nil =>
          simp only [List.nil_append, List.cons.injEq, Prod.mk.injEq] at hpath
          obtain ⟨⟨rfl, rfl⟩, rfl⟩ := hpath
          exact Or.inl ⟨r, direction, hrest⟩
      | cons x later =>
          simp only [List.cons_append, List.cons.injEq] at hpath
          obtain ⟨rfl, rfl⟩ := hpath
          refine Or.inr ⟨hlater (c, i) (by simp), Or.inr ?_⟩
          refine ⟨later, last, j, earlier, r, direction, rfl, ?_, hrest⟩
          intro x hx
          exact hlater x (List.mem_cons_of_mem _ hx)
  · rintro (⟨r, direction, hdraws, hplace⟩ | ⟨hnone, hends⟩)
    · exact Or.inr ⟨[], c, i, path, r, direction, rfl, by simp, hdraws, hplace⟩
    · rcases hends with ⟨hundrawn, hplace⟩ |
        ⟨later, last, j, earlier, r, direction, rfl, hlater, hrest⟩
      · refine Or.inl ⟨?_, hplace⟩
        intro x hx
        rcases List.mem_cons.mp hx with rfl | hx
        · exact hnone
        · exact hundrawn x hx
      · refine Or.inr ⟨(c, i) :: later, last, j, earlier, r, direction, rfl, ?_, hrest⟩
        intro x hx
        rcases List.mem_cons.mp hx with rfl | hx
        · exact hnone
        · exact hlater x hx

/-- A path ends in one place. -/
theorem EndsAt.unique {other : Vec3 α} (h : pen.EndsAt symbols root source path place)
    (hother : pen.EndsAt symbols root source path other) : place = other := by
  induction path with
  | nil =>
      rcases h with ⟨-, rfl⟩ | ⟨later, _, _, _, _, _, hpath, -⟩
      · rcases hother with ⟨-, rfl⟩ | ⟨later, _, _, _, _, _, hpath, -⟩
        · rfl
        · simp at hpath
      · simp at hpath
  | cons x path ih =>
      obtain ⟨c, i⟩ := x
      rcases (endsAt_cons_iff c i).mp h with ⟨r, direction, hdraws, rfl⟩ | ⟨hnone, hends⟩
      · rcases (endsAt_cons_iff c i).mp hother with ⟨s, way, hsame, rfl⟩ | ⟨hnone, -⟩
        · obtain ⟨rfl, rfl⟩ := hdraws.unique hsame
          rfl
        · exact absurd hdraws.adds (hnone r)
      · rcases (endsAt_cons_iff c i).mp hother with ⟨s, way, hdraws, -⟩ | ⟨-, hsame⟩
        · exact absurd hdraws.adds (hnone s)
        · exact ih hends hsame

end EndsAt

/-- A symbol that leaves a segment draws it. -/
theorem Adds.draws (hread : pen.read symbols source = (.ok commands, rest)) {i : Nat}
    {r : Instance α} (h : pen.Adds .segment symbols root source i r) :
    ∃ direction, pen.Draws symbols root source i r direction := by
  have hbranch := h.command_eq hread
  obtain ⟨before, after, hpass, hgrown⟩ := h
  rcases obey_branch_eq_ok (hpass.obey hread hbranch) with ⟨-, rfl⟩ | ⟨-, t, s, haim, hs, rfl⟩
  · exact absurd hgrown.symm (InstanceBuffer.append_ne_self _ _)
  · obtain rfl : s = r := InstanceBuffer.append_injective hgrown
    exact ⟨t.orientation, before, _, t, hpass, haim, hs, rfl, rfl⟩

/-- A symbol draws a segment or leaves the segments as they are. -/
theorem Passes.draws_or_kept (hread : pen.read symbols source = (.ok commands, rest)) {i : Nat}
    {before after : Walk α} (h : pen.Passes symbols root source i before after) :
    (∃ r direction, pen.Draws symbols root source i r direction) ∨
      after.branches = before.branches := by
  rcases h.kept_or_grown hread .segment with hkept | ⟨r, hr⟩
  · exact Or.inr hkept
  · have hadds : pen.Adds .segment symbols root source i r := ⟨before, after, h, hr⟩
    obtain ⟨direction, hdraws⟩ := hadds.draws hread
    exact Or.inl ⟨r, direction, hdraws⟩

theorem Draws.segment {i : Nat} {r : Instance α} {direction : Vec3 α} {before after : Walk α}
    (h : pen.Draws symbols root source i r direction)
    (hpass : pen.Passes symbols root source i before after) :
    r.position = before.current.position ∧ Quat.between? Vec3.up direction = some r.rotation ∧
      r.scale = before.current.scale.scale 0.96 ∧
      after.current.position = r.position + direction.scale r.scale.y ∧
      after.parents = before.parents ∧ after.branches = before.branches.append r := by
  obtain ⟨other, next, t, hsame, haim, hr, rfl, rfl⟩ := h
  obtain ⟨rfl, rfl⟩ := hpass.unique hsame
  obtain ⟨hplace, hscale, -⟩ := aimed_eq_ok haim
  obtain ⟨hposition, hrotation, hsize, -⟩ := record_eq_ok hr
  refine ⟨hposition.trans hplace, hrotation, hsize.trans hscale, ?_, rfl, rfl⟩
  rw [Turtle.move_position, hposition, hsize]

section Places

variable {index : Nat} {w next : Walk α}

theorem places_of_enter (h : pen.obey index .enter w = .ok next) :
    next.places = w.current.position :: w.places := by
  obtain ⟨child, hchild, rfl⟩ := Walk.openGroup_eq_ok h
  obtain ⟨direction, rfl⟩ := jittered_eq_ok hchild
  rfl

theorem places_of_leave (h : pen.obey index .leave w = .ok next) :
    w.places = w.current.position :: next.places := by
  obtain ⟨parent, others, hparents, rfl⟩ := Walk.closeGroup_eq_ok h
  simp [Walk.places, hparents]

/-- A stroke that draws no segment moves no turtle. -/
theorem places_of_stroke {s : Stroke} (h : pen.obey index (.stroke s) w = .ok next)
    (hkept : next.branches = w.branches) : next.places = w.places := by
  by_cases hs : s = .act .branch
  · subst hs
    rcases obey_branch_eq_ok h with ⟨-, rfl⟩ | ⟨-, t, r, -, -, rfl⟩
    · rfl
    · exact absurd hkept (InstanceBuffer.append_ne_self _ _)
  · obtain ⟨k, hk, rfl⟩ := pen.obey_stroke_eq_ok h
    obtain ⟨hplace, -, -⟩ := Sketch.stroke_frame hs hk
    have hcurrent : k.turtle.position = w.current.position := hplace
    simp [Walk.places, hcurrent]

end Places

/-- The turtle at work stands where its path ends. -/
theorem endsAt_of_stateAt (hread : pen.read symbols source = (.ok commands, rest)) {i : Nat}
    {w : Walk α} (hi : i ≤ commands.length) (h : pen.stateAt root commands i = .ok w) :
    pen.EndsAt symbols root source (path (commands.take i)) w.current.position := by
  refine path_induction
    (P := fun path t => pen.EndsAt symbols root source path t.position) endsAt_nil ?_ ?_ hi h
  · intro i c w next hc hclose hw hobey hends
    have hpass := passes_of_obey hread hc hw hobey
    rw [endsAt_cons_iff]
    rcases hpass.draws_or_kept hread with ⟨r, direction, hdraws⟩ | hkept
    · obtain ⟨-, -, -, hplace, -, -⟩ := hdraws.segment hpass
      exact Or.inl ⟨r, direction, hdraws, hplace⟩
    · refine Or.inr ⟨hpass.not_adds_of_kept hkept, ?_⟩
      have hplace : next.current.position = w.current.position := by
        cases c with
        | leave => exact absurd rfl hclose
        | enter => exact (List.cons.inj (places_of_enter hobey)).1
        | stroke s => exact (List.cons.inj (places_of_stroke hobey hkept)).1
      rw [hplace]
      exact hends
  · intro path t hends
    exact hends

/-- A record of either kind stands where its turtle stands. -/
theorem Adds.position_eq (hread : pen.read symbols source = (.ok commands, rest)) {o : Organ}
    {i : Nat} {r : Instance α} {before after : Walk α}
    (hpass : pen.Passes symbols root source i before after)
    (h : pen.Adds o symbols root source i r) : r.position = before.current.position := by
  cases o with
  | segment =>
      obtain ⟨direction, hdraws⟩ := h.draws hread
      exact (hdraws.segment hpass).1
  | leaf =>
      have hobey := hpass.obey hread (h.command_eq hread)
      rcases obey_leaf_eq_ok hobey with ⟨-, rfl⟩ | ⟨-, s, hs, rfl⟩
      · exact absurd h (hpass.not_adds_of_kept rfl r)
      · obtain rfl := (hpass.adds_iff rfl r).mp h
        exact (record_eq_ok hs).1

theorem storesPlaces (hread : pen.read symbols source = (.ok commands, rest)) {final : Walk α}
    (hfollow : pen.follow 0 commands (.start root) = .ok final) (o : Organ) :
    pen.StoresPlaces o symbols root source (o.records final).translate :=
  exists_rows hread hfollow o .translate

/-- Every plant that is drawn hangs together along its paths: a record stands at the root or where
the last segment drawn on its path ends, and between two segments no turtle moves. -/
theorem connected_of_draw {plant : Plant α}
    (h : pen.draw symbols root source = (.ok plant, rest)) :
    ∃ commands, pen.read symbols source = (.ok commands, rest) ∧
      pen.Connected symbols root source commands plant := by
  obtain ⟨commands, final, hread, hfollow, -, rfl⟩ := (pen.draw_eq_ok_iff _ _ _ _ _).mp h
  refine ⟨commands, hread, ?_⟩
  exact {
    passed := fun i hi => exists_passes hread hfollow hi
    drawn := fun i r hadds => hadds.draws hread
    segment := by
      intro i r direction hdraws
      obtain ⟨before, after, hpass, -⟩ := hdraws.adds
      obtain ⟨hplace, hrotation, hscale, hend, hparents, -⟩ := hdraws.segment hpass
      exact ⟨hrotation, before, after, hpass, hplace, hscale, hend, hparents⟩
    placed := by
      intro o i r hadds
      obtain ⟨before, after, hpass, hgrown⟩ := hadds
      rw [Adds.position_eq hread hpass ⟨before, after, hpass, hgrown⟩]
      exact endsAt_of_stateAt hread (hpass.le_length hread) (hpass.states hread).1
    entered := fun i before after hc hpass => places_of_enter (hpass.obey hread hc)
    left := fun i before after hc hpass => places_of_leave (hpass.obey hread hc)
    still := by
      intro i s before after hc hpass hnone
      apply places_of_stroke (hpass.obey hread hc)
      rcases hpass.draws_or_kept hread with ⟨r, direction, hdraws⟩ | hkept
      · exact absurd hdraws.adds (hnone r)
      · exact hkept
    stored := by
      intro o
      cases o with
      | segment => exact storesPlaces hread hfollow .segment
      | leaf => exact storesPlaces hread hfollow .leaf }

/-- A leaf at the foot of a segment and one at its tip. -/
theorem connected_twig :
    ∃ (plant : Plant Float) (rest : Generator) (commands : List Command),
      twig.draw ['L', 'F', 'L'] (.seedling ⟨0.5, 0.0, 0.0⟩ 2.0) (⟨0, 1⟩ : Generator) =
        (.ok plant, rest) ∧
      plant.branches.count = 1 ∧ plant.leaves.count = 2 ∧
      commands = [.stroke (.act .leaf), .stroke (.act .branch), .stroke (.act .leaf)] ∧
      twig.Connected ['L', 'F', 'L'] (.seedling ⟨0.5, 0.0, 0.0⟩ 2.0) (⟨0, 1⟩ : Generator)
        commands plant := by
  obtain ⟨plant, rest, hplant⟩ := exists_eq_ok_of_isOk
    (x := twig.draw ['L', 'F', 'L'] (.seedling ⟨0.5, 0.0, 0.0⟩ 2.0) (⟨0, 1⟩ : Generator))
    (by decide +kernel)
  obtain ⟨commands, hread, hconnected⟩ := connected_of_draw hplant
  have hcounts : (twig.draw ['L', 'F', 'L'] (.seedling ⟨0.5, 0.0, 0.0⟩ 2.0)
      (⟨0, 1⟩ : Generator)).1.map (fun p => (p.branches.count, p.leaves.count)) =
        .ok (1, 2) := by decide +kernel
  have hactions : (twig.read ['L', 'F', 'L'] (⟨0, 1⟩ : Generator)).1 =
      .ok [.stroke (.act .leaf), .stroke (.act .branch), .stroke (.act .leaf)] := by
    decide +kernel
  have hcommands := Except.ok.inj ((congrArg Prod.fst hread).symm.trans hactions)
  simp only [hplant, Except.map, Except.ok.injEq, Prod.mk.injEq] at hcounts
  exact ⟨plant, rest, commands, hplant, hcounts.1, hcounts.2, hcommands, hconnected⟩

end Pen
end Meristem
