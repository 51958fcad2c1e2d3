import Inventory.Exclusion.CharSet

namespace Inventory

inductive Piece where
  /-- One character of a set. -/
  | one (s : CharSet)
  /-- Any number of characters of a set, the more the better. -/
  | many (s : CharSet)
deriving DecidableEq, Repr

namespace Piece

/-- What is left after any number of characters of a set, the shortest first. -/
def restsMany (s : CharSet) : Text → List Text
  | [] => [[]]
  | c :: t => if s.contains c then restsMany s t ++ [c :: t] else [c :: t]

/-- What a piece can leave of a text. -/
def rests : Piece → Text → List Text
  | one _, [] => []
  | one s, c :: t => if s.contains c then [t] else []
  | many s, t => restsMany s t

/-- What a list of pieces can leave of a text. -/
def restsAll (pieces : List Piece) (t : Text) : List Text :=
  pieces.foldl (fun texts p => (texts.flatMap p.rests).eraseDups) [t]

/-- The pieces that a plain text is. -/
def plain (t : Text) : List Piece := t.map fun c => .one (.only c)

theorem mem_restsMany {s : CharSet} {t u : Text} :
    u ∈ restsMany s t ↔ ∃ taken, t = taken ++ u ∧ ∀ c ∈ taken, s.contains c = true := by
  induction t with
  | nil =>
    simp only [restsMany, List.mem_singleton]
    constructor
    · rintro rfl; exact ⟨[], rfl, by simp⟩
    · rintro ⟨taken, split, _⟩; exact (List.append_eq_nil_iff.1 split.symm).2
  | cons c t ih =>
    have first : (∃ taken, c :: t = taken ++ u ∧ ∀ d ∈ taken, s.contains d = true) ↔ u = c :: t ∨
        (s.contains c = true ∧ ∃ taken, t = taken ++ u ∧ ∀ d ∈ taken, s.contains d = true) := by
      constructor
      · rintro ⟨taken, split, good⟩
        cases taken with
        | nil => exact .inl split.symm
        | cons d taken =>
          cases split
          exact .inr ⟨good c (by simp), taken, rfl, fun d inside => good d (List.mem_cons_of_mem _ inside)⟩
      · rintro (rfl | ⟨here, taken, rfl, good⟩)
        · exact ⟨[], rfl, by simp⟩
        · exact ⟨c :: taken, rfl, by simpa [here] using good⟩
    rw [first]
    unfold restsMany
    split
    · rename_i here
      simp [ih, here, or_comm]
    · rename_i here
      simp [here]

theorem mem_restsAll_cons {p : Piece} {pieces : List Piece} {t u : Text} :
    u ∈ restsAll (p :: pieces) t ↔ ∃ between ∈ p.rests t, u ∈ restsAll pieces between := by
  have general : ∀ (pieces : List Piece) (texts : List Text) (u : Text),
      u ∈ pieces.foldl (fun texts p => (texts.flatMap p.rests).eraseDups) texts ↔
        ∃ t ∈ texts, u ∈ restsAll pieces t := by
    intro pieces
    induction pieces with
    | nil => intro texts u; simp [restsAll]
    | cons p pieces ih =>
      intro texts u
      simp only [restsAll, List.foldl_cons]
      rw [ih]
      constructor
      · rintro ⟨between, inside, last⟩
        simp only [List.mem_eraseDups, List.mem_flatMap] at inside
        obtain ⟨t, start, step⟩ := inside
        exact ⟨t, start, (ih _ u).2 ⟨between, by simpa using step, last⟩⟩
      · rintro ⟨t, start, found⟩
        obtain ⟨between, step, last⟩ := (ih _ u).1 found
        refine ⟨between, ?_, last⟩
        simp only [List.mem_eraseDups, List.mem_flatMap]
        exact ⟨t, start, by simpa using step⟩
  simp only [restsAll, List.foldl_cons]
  rw [general]
  simp [restsAll]

end Piece
end Inventory
