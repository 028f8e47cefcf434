import Meristem.Proofs.Drawing.Continuity
import Meristem.Proofs.Drawing.Visibility

/-!
How branches become shorter and thinner. A segment makes its turtle smaller in all directions, and a
side branch makes the turtle that bore it thinner from then on; nothing else changes a scale. A copy
starts with the scale that its turtle has before it is made thinner, so a branch is thinner for all
side branches on its way but those it stands in. The scale of a segment is thereby the root's, times
one factor for each of these on the trail, in the order in which they come.
-/

namespace Meristem

open Command

/-- What makes the segments of a turtle smaller. -/
inductive Taper where
  /-- It draws one. -/
  | segment
  /-- It has borne a side branch. -/
  | group
deriving DecidableEq, Repr

section Arith

variable {α : Type} [Arith α]

def Taper.thickness : Taper → α
  | segment => 0.96
  | group => 0.75

def Taper.length? : Taper → Option α
  | segment => some 0.96
  | group => none

/-- Each component of a scale times its factors, one after the other. -/
def Vec3.tapered (v : Vec3 α) (tapers : List Taper) : Vec3 α where
  x := (tapers.map Taper.thickness).foldl (· * ·) v.x
  y := (tapers.filterMap Taper.length?).foldl (· * ·) v.y
  z := (tapers.map Taper.thickness).foldl (· * ·) v.z

theorem Vec3.tapered_segment (v : Vec3 α) (tapers : List Taper) :
    v.tapered (tapers ++ [.segment]) = (v.tapered tapers).scale 0.96 := by
  simp [tapered, scale, Taper.thickness, Taper.length?]

theorem Vec3.tapered_group (v : Vec3 α) (tapers : List Taper) :
    v.tapered (tapers ++ [.group]) =
      { v.tapered tapers with
        x := (v.tapered tapers).x * 0.75, z := (v.tapered tapers).z * 0.75 } := by
  have hshort : [Taper.group].filterMap (Taper.length? (α := α)) = [] := rfl
  simp [tapered, Taper.thickness, hshort]

end Arith

namespace Pen

variable {α σ : Type} [Scalar α] [DrawSource σ α]

/-- What makes the segment at `i` smaller: the segments and the ends of groups on the way to it,
itself included. -/
def Tapers (pen : Pen α) (symbols : Word) (root : Turtle α) (source : σ)
    (commands : List Command) (i m : Nat) : Taper → Prop
  | .segment => OnWay commands m i ∧ ∃ r, pen.Adds .segment symbols root source m r
  | .group => OnWay commands m i ∧ commands[m]? = some .leave

/-- How much of one kind makes the segment at `i` smaller. -/
noncomputable def tally (pen : Pen α) (symbols : Word) (root : Turtle α) (source : σ)
    (commands : List Command) (i : Nat) (x : Taper) : Nat :=
  {m | pen.Tapers symbols root source commands i m x}.ncard

/-- How large the segments of a run are. -/
structure Tapered (pen : Pen α) (symbols : Word) (root : Turtle α) (source : σ)
    (commands : List Command) (plant : Plant α) : Prop where
  passed : ∀ i < symbols.length, ∃ before after, pen.Passes symbols root source i before after
  /-- A segment has the root's scale, made smaller by all on the way to it in their order. -/
  scaled : ∀ i r, pen.Adds .segment symbols root source i r →
    ∃ marks : List (Nat × Taper),
      marks.Pairwise (fun first second => first.1 < second.1) ∧
      (∀ m x, (m, x) ∈ marks ↔ pen.Tapers symbols root source commands i m x) ∧
      r.scale = root.scale.tapered (marks.map (·.2))
  /-- The column of scales holds those of the records, each followed by a one. -/
  stored : ∃ marks : List (Nat × Instance α),
    marks.Pairwise (fun first second => first.1 < second.1) ∧
    (∀ i r, (i, r) ∈ marks ↔ pen.Adds .segment symbols root source i r) ∧
    plant.branches.scale.toList = marks.flatMap fun mark =>
      [mark.2.scale.x, mark.2.scale.y, mark.2.scale.z, 1.0]

open Classical in
/-- What a command on a trail does to its turtle. -/
noncomputable def taper? (pen : Pen α) (symbols : Word) (root : Turtle α) (source : σ) :
    Command × Nat → Option (Nat × Taper)
  | (c, m) =>
    if c = .leave then some (m, .group)
    else if ∃ r, pen.Adds .segment symbols root source m r then some (m, .segment)
    else none

/-- What the commands on a trail do to its turtle, in the order of the word. -/
noncomputable def tapers (pen : Pen α) (symbols : Word) (root : Turtle α) (source : σ)
    (trail : List (Command × Nat)) : List (Nat × Taper) :=
  trail.reverse.filterMap (pen.taper? symbols root source)

variable {pen : Pen α} {symbols : Word} {root : Turtle α} {source rest : σ}
  {commands : List Command}

section Tapers

variable {trail : List (Command × Nat)} {c : Command} {i m : Nat} {x : Taper}

theorem tapers_leave :
    pen.tapers symbols root source ((.leave, i) :: trail) =
      pen.tapers symbols root source trail ++ [(i, .group)] := by
  simp [tapers, taper?]

theorem tapers_segment (hc : c ≠ .leave) {r : Instance α}
    (hr : pen.Adds .segment symbols root source i r) :
    pen.tapers symbols root source ((c, i) :: trail) =
      pen.tapers symbols root source trail ++ [(i, .segment)] := by
  have hsome : ∃ r, pen.Adds .segment symbols root source i r := ⟨r, hr⟩
  simp [tapers, taper?, hc, hsome]

theorem tapers_undrawn (hc : c ≠ .leave)
    (hnone : ∀ r, ¬ pen.Adds .segment symbols root source i r) :
    pen.tapers symbols root source ((c, i) :: trail) = pen.tapers symbols root source trail := by
  simp [tapers, taper?, hc, hnone]

theorem taper?_eq_some_iff {k : Nat} :
    pen.taper? symbols root source (c, k) = some (m, x) ↔
      k = m ∧ ((x = .group ∧ c = .leave) ∨
        (x = .segment ∧ c ≠ .leave ∧ ∃ r, pen.Adds .segment symbols root source m r)) := by
  simp only [taper?]
  split_ifs with hleave hdrawn
  · simp [hleave, eq_comm]
  · constructor
    · intro h
      obtain ⟨rfl, rfl⟩ : k = m ∧ .segment = x := by simpa using h
      exact ⟨rfl, Or.inr ⟨rfl, hleave, hdrawn⟩⟩
    · rintro ⟨rfl, ⟨-, hclosed⟩ | ⟨rfl, -⟩⟩
      · exact absurd hclosed hleave
      · rfl
  · constructor
    · intro h
      simp at h
    · rintro ⟨rfl, ⟨-, hclosed⟩ | ⟨-, -, hsome⟩⟩
      · exact absurd hclosed hleave
      · exact absurd hsome hdrawn

theorem tapers_sorted (h : trail.Pairwise fun later earlier => earlier.2 < later.2) :
    (pen.tapers symbols root source trail).Pairwise fun first second => first.1 < second.1 := by
  rw [tapers, List.pairwise_filterMap, List.pairwise_reverse]
  apply h.imp
  rintro ⟨c, j⟩ ⟨d, k⟩ hlt ⟨m, x⟩ hx ⟨n, y⟩ hy
  obtain ⟨rfl, -⟩ := taper?_eq_some_iff.mp hx
  obtain ⟨rfl, -⟩ := taper?_eq_some_iff.mp hy
  exact hlt

/-- The trail to the end of a segment names all that makes it smaller. -/
theorem mem_tapers_iff (hread : pen.read symbols source = (.ok commands, rest)) :
    (m, x) ∈ pen.tapers symbols root source (Command.trail (commands.take (i + 1))) ↔
      pen.Tapers symbols root source commands i m x := by
  simp only [tapers, List.mem_filterMap, List.mem_reverse, Prod.exists, mem_trail_take_iff,
    taper?_eq_some_iff]
  cases x with
  | group =>
      constructor
      · rintro ⟨c, k, ⟨hc, hway⟩, rfl, ⟨-, rfl⟩ | ⟨hother, -⟩⟩
        · exact ⟨hway, hc⟩
        · simp at hother
      · rintro ⟨hway, hc⟩
        exact ⟨.leave, m, ⟨hc, hway⟩, rfl, Or.inl ⟨rfl, rfl⟩⟩
  | segment =>
      constructor
      · rintro ⟨c, k, ⟨-, hway⟩, rfl, ⟨hother, -⟩ | ⟨-, -, hdrawn⟩⟩
        · simp at hother
        · exact ⟨hway, hdrawn⟩
      · rintro ⟨hway, r, hr⟩
        have hc := hr.command_eq hread
        exact ⟨_, m, ⟨hc, hway⟩, rfl, Or.inr ⟨rfl, by simp [Organ.command], r, hr⟩⟩

end Tapers

theorem Draws.scale {i : Nat} {r : Instance α} {direction : Vec3 α} {before after : Walk α}
    (h : pen.Draws symbols root source i r direction)
    (hpass : pen.Passes symbols root source i before after) :
    after.current.scale = r.scale := by
  obtain ⟨other, next, t, hsame, -, hr, rfl, -⟩ := h
  obtain ⟨rfl, rfl⟩ := hpass.unique hsame
  obtain ⟨-, -, hscale, -⟩ := record_eq_ok hr
  rw [Turtle.move_scale, hscale]

/-- A command that draws no segment and ends no group leaves the turtle at work as large as it was,
also if another one goes to work. -/
theorem scale_of_undrawn {index : Nat} {c : Command} {w next : Walk α} (hc : c ≠ .leave)
    (h : pen.obey index c w = .ok next) (hkept : next.branches = w.branches) :
    next.current.scale = w.current.scale := by
  cases c with
  | leave => exact absurd rfl hc
  | enter =>
      obtain ⟨child, hchild, rfl⟩ := Walk.openGroup_eq_ok h
      obtain ⟨direction, rfl⟩ := jittered_eq_ok hchild
      rfl
  | stroke s =>
      by_cases hs : s = .act .branch
      · subst hs
        rcases obey_branch_eq_ok h with ⟨-, rfl⟩ | ⟨-, t, r, -, -, rfl⟩
        · rfl
        · exact absurd hkept (InstanceBuffer.append_ne_self _ _)
      · obtain ⟨k, hk, rfl⟩ := pen.obey_stroke_eq_ok h
        exact (Sketch.stroke_frame hs hk).2.1

/-- The turtle at work is as large as its trail says. -/
theorem scale_of_stateAt (hread : pen.read symbols source = (.ok commands, rest)) {i : Nat}
    {w : Walk α} (hi : i ≤ commands.length) (h : pen.stateAt root commands i = .ok w) :
    w.current.scale = root.scale.tapered
      ((pen.tapers symbols root source (trail (commands.take i))).map (·.2)) := by
  refine trail_induction
    (P := fun trail t =>
      t.scale = root.scale.tapered ((pen.tapers symbols root source trail).map (·.2)))
    ?_ ?_ ?_ hi h
  · simp [tapers, Vec3.tapered]
  · intro i c w next hc hclose hw hobey hscale
    have hpass := passes_of_obey hread hc hw hobey
    rcases hpass.draws_or_kept hread with ⟨r, direction, hdraws⟩ | hkept
    · obtain ⟨-, -, hshrunk, -⟩ := hdraws.segment hpass
      rw [hdraws.scale hpass, hshrunk, hscale, tapers_segment hclose hdraws.adds,
        List.map_append, List.map_singleton, Vec3.tapered_segment]
    · rw [scale_of_undrawn hclose hobey hkept, hscale,
        tapers_undrawn hclose (hpass.not_adds_of_kept hkept)]
  · intro i trail t hscale
    rw [tapers_leave, List.map_append, List.map_singleton, Vec3.tapered_group, ← hscale]
    rfl

/-- A segment is as large as the trail to its end says. -/
theorem Adds.scale_eq (hread : pen.read symbols source = (.ok commands, rest)) {i : Nat}
    {r : Instance α} (h : pen.Adds .segment symbols root source i r) :
    r.scale = root.scale.tapered
      ((pen.tapers symbols root source (trail (commands.take (i + 1)))).map (·.2)) := by
  obtain ⟨before, after, hpass, -⟩ := id h
  obtain ⟨direction, hdraws⟩ := h.draws hread
  have hend : i + 1 ≤ commands.length := by
    rw [pen.read_length hread]
    exact hpass.inside
  rw [← hdraws.scale hpass]
  exact scale_of_stateAt hread hend (hpass.states hread).2

theorem count_tapers {marks : List (Nat × Taper)} {i : Nat}
    (hsorted : marks.Pairwise fun first second => first.1 < second.1)
    (hmem : ∀ m x, (m, x) ∈ marks ↔ pen.Tapers symbols root source commands i m x)
    (x : Taper) :
    (marks.map (·.2)).count x = pen.tally symbols root source commands i x := by
  have hset : {m | pen.Tapers symbols root source commands i m x} =
      (((marks.filter (·.2 = x)).map (·.1)).toFinset : Set Nat) := by
    ext m
    simp [← hmem]
  have hnodup : ((marks.filter (·.2 = x)).map (·.1)).Nodup := by
    rw [List.Nodup, List.pairwise_map]
    apply (hsorted.sublist List.filter_sublist).imp
    exact fun hlt => Nat.ne_of_lt hlt
  rw [tally, hset, Set.ncard_coe_finset, List.toFinset_card_of_nodup hnodup, List.length_map,
    ← List.countP_eq_length_filter, List.count, List.countP_map]
  apply List.countP_congr
  simp

theorem exists_tapered {plant : Plant α}
    (h : pen.draw symbols root source = (.ok plant, rest)) :
    ∃ commands, pen.read symbols source = (.ok commands, rest) ∧
      pen.Tapered symbols root source commands plant := by
  obtain ⟨commands, final, hread, hfollow, -, rfl⟩ := (pen.draw_eq_ok_iff _ _ _ _ _).mp h
  refine ⟨commands, hread, ?_⟩
  exact {
    passed := fun i hi => exists_passes hread hfollow hi
    scaled := by
      intro i r hadds
      refine ⟨_, tapers_sorted (trail_sorted _).1, ?_, hadds.scale_eq hread⟩
      intro m x
      exact mem_tapers_iff hread
    stored := exists_rows hread hfollow .segment .scale }

end Pen
end Meristem
