import Meristem.Document.NumberArray
import Meristem.Proofs.Results

/-!
Arrays that are read from documents have as many numbers as their shape tells. So an array with the
shape of a row of three or four has exactly these components, and taking it apart gives them; an
array with further axes comes apart into as many parts, but no part of it is a number.
-/

namespace Meristem

open NumberArray

namespace Extent

theorem commonStart_self (shape : List Nat) : commonStart shape shape = shape := by
  induction shape with
  | nil => rfl
  | cons size shape ih => simp [commonStart, ih]

/-- Parts that agree all the way down have one shape. -/
theorem shape_of_foldl_meet {rest : List Extent} {first : Extent}
    (h : (rest.foldl meet first).uniform = true) :
    first.uniform = true ∧ (∀ e ∈ rest, e.uniform = true ∧ e.shape = first.shape) ∧
      (rest.foldl meet first).shape = first.shape := by
  induction rest generalizing first with
  | nil => simpa using h
  | cons e rest ih =>
      obtain ⟨hmeet, hrest, hshape⟩ := ih h
      simp only [meet, Bool.and_eq_true, beq_iff_eq] at hmeet
      obtain ⟨⟨hfirst, he⟩, hsame⟩ := hmeet
      have hstart : (meet first e).shape = first.shape := by
        rw [meet, ← hsame, commonStart_self]
      rw [hstart] at hrest hshape
      refine ⟨hfirst, ?_, hshape⟩
      intro other hother
      rcases List.mem_cons.mp hother with rfl | hlater
      · exact ⟨he, hsame.symm⟩
      · exact hrest other hlater

theorem shape_ofParts {parts : List Extent} (h : (ofParts parts).uniform = true) :
    ∃ inner, (ofParts parts).shape = parts.length :: inner ∧
      ∀ e ∈ parts, e.uniform = true ∧ e.shape = inner := by
  cases parts with
  | nil => exact ⟨[], rfl, by simp⟩
  | cons first rest =>
      obtain ⟨hfirst, hrest, hshape⟩ := shape_of_foldl_meet h
      refine ⟨first.shape, ?_, ?_⟩
      · simp only [ofParts, hshape, List.length_cons]
      · intro e he
        rcases List.mem_cons.mp he with rfl | hlater
        · exact ⟨hfirst, rfl⟩
        · exact hrest e hlater

end Extent

namespace Document

theorem length_ofDocuments (levels : Nat) (items : List Document) :
    (Extent.ofDocuments levels items).length = items.length := by
  induction items with
  | nil => rfl
  | cons item rest ih => simp [Extent.ofDocuments, ih]

/-- What is no list stands for a single number. -/
theorem ofDocument_single {levels : Nat} {d : Document} (h : ∀ items, d ≠ .list items) :
    Extent.ofDocument levels d = ⟨[], true⟩ := by
  cases d with
  | list items => exact absurd rfl (h items)
  | _ => cases levels <;> rfl

mutual

/-- The induction is over the document and its parts; parts of one shape hold equally many. -/
theorem length_leaves (levels : Nat) (d : Document)
    (h : (Extent.ofDocument levels d).uniform = true) :
    (leaves d).length = entryCount (Extent.ofDocument levels d).shape := by
  match levels, d with
  | 0, .list items => simp [Extent.ofDocument] at h
  | levels + 1, .list items =>
      obtain ⟨inner, hshape, hparts⟩ := Extent.shape_ofParts (by simpa [Extent.ofDocument] using h)
      simp only [Extent.ofDocument, leaves, hshape, length_ofDocuments]
      exact length_leavesOf levels items hparts
  | _, .null => rw [ofDocument_single (by simp)]; rfl
  | _, .bool value => rw [ofDocument_single (by simp)]; rfl
  | _, .int value => rw [ofDocument_single (by simp)]; rfl
  | _, .real value => rw [ofDocument_single (by simp)]; rfl
  | _, .text value => rw [ofDocument_single (by simp)]; rfl
  | _, .table entries => rw [ofDocument_single (by simp)]; rfl

theorem length_leavesOf (levels : Nat) (items : List Document) {inner : List Nat}
    (h : ∀ e ∈ Extent.ofDocuments levels items, e.uniform = true ∧ e.shape = inner) :
    (leavesOf items).length = entryCount (items.length :: inner) := by
  match items with
  | [] => simp [leavesOf, entryCount]
  | item :: rest =>
      obtain ⟨huniform, hshape⟩ :=
        h (Extent.ofDocument levels item) (by simp [Extent.ofDocuments])
      have hitem := length_leaves levels item huniform
      have hrest := length_leavesOf levels rest fun e he => h e (by simp [Extent.ofDocuments, he])
      rw [hshape] at hitem
      simp only [leavesOf, List.length_append, hitem, hrest, entryCount, List.foldr_cons,
        List.length_cons]
      rw [Nat.succ_mul, Nat.add_comm]

end

end Document

namespace NumberArray

end NumberArray

namespace Document

/-- Whether a document is an array of `n` parts, be they numbers or rows. -/
def Splits (n : Nat) (d : Document) : Prop :=
  ∃ a, NumberArray.ofDocument d = .ok a ∧ a.shape.head? = some n

/-- Whether a document is an array of `n` numbers. -/
def IsRow (n : Nat) (d : Document) : Prop :=
  ∃ a, NumberArray.ofDocument d = .ok a ∧ a.shape = [n]

theorem IsRow.splits {n : Nat} {d : Document} (h : d.IsRow n) : d.Splits n := by
  obtain ⟨a, hd, hshape⟩ := h
  exact ⟨a, hd, by simp [hshape]⟩

/-- What a document is when it is an array of the right shape. -/
def array? {V : Type} (value? : NumberArray → Option V) (d : Document) : Option V :=
  match NumberArray.ofDocument d with
  | .ok a => value? a
  | .error _ => none

/-- The parts of a document, put together as components. -/
def components {L : Type} (ofList : List NumberArray → Except ArityError L) (d : Document) :
    Except ArrayError L := do
  (ofList (← (← NumberArray.ofDocument d).rows)).mapError .arity

end Document

/-- How `n` components are put together from a list and turned into numbers, and what they are when
all of them are numbers. -/
structure Assembles {V L : Type} (n : Nat) (ofList : List NumberArray → Except ArityError L)
    (numbers : L → Except ArrayError V) (value? : NumberArray → Option V) : Prop where
  other : ∀ rows, rows.length ≠ n → ∃ e, ofList rows = .error e
  shape : ∀ a, a.shape ≠ [n] → value? a = none
  row : ∀ entries : List Float, entries.length = n → ∃ c v,
    ofList ((parts 1 n entries).map (⟨[], ·⟩)) = .ok c ∧ numbers c = .ok v ∧
      value? ⟨[n], entries⟩ = some v
  axes : ∀ size inner entries, ∃ c,
    ofList ((parts (entryCount (size :: inner)) n entries).map (⟨size :: inner, ·⟩)) = .ok c ∧
      numbers c = .error .notNumeric

namespace Assembles

variable {V L : Type} {n : Nat} {ofList : List NumberArray → Except ArityError L}
  {numbers : L → Except ArrayError V} {value? : NumberArray → Option V}
  (h : Assembles n ofList numbers value?) {d : Document}

include h

theorem array?_eq_none (hrow : ¬d.IsRow n) : d.array? value? = none := by
  cases ha : ofDocument d with
  | error e => simp only [Document.array?, ha]
  | ok a =>
      simp only [Document.array?, ha]
      exact h.shape a fun hshape => hrow ⟨a, ha, hshape⟩

end Assembles
end Meristem
