import Inventory.Text

namespace Inventory

/-- A part of a set: one character, or all from one to another. -/
inductive Member where
  | single (c : Char)
  | span (first last : Char)
deriving DecidableEq, Repr

namespace Member

def contains (c : Char) : Member → Bool
  | single d => c = d
  | span first last => Text.rank first ≤ Text.rank c && Text.rank c ≤ Text.rank last

/-- A span that runs downwards, and so contains nothing. -/
def isDescending : Member → Bool
  | single _ => false
  | span first last => Text.rank last < Text.rank first

/-- The members that a text between brackets lists. -/
def list : Text → List Member
  | [] => []
  | c :: '-' :: d :: rest => .span c d :: list rest
  | c :: rest => .single c :: list rest

theorem contains_eq_false_of_isDescending {m : Member} (down : m.isDescending = true) (c : Char) :
    m.contains c = false := by
  cases m with
  | single d => cases down
  | span first last =>
    simp only [isDescending, decide_eq_true_eq] at down
    simp only [contains, Bool.and_eq_false_iff, decide_eq_false_iff_not]
    omega

end Member

structure CharSet where
  /-- The set holds all characters but its members. -/
  negated : Bool
  members : List Member
deriving DecidableEq, Repr

namespace CharSet

def contains (s : CharSet) (c : Char) : Bool := s.members.any (Member.contains c) != s.negated

/-- Every character. -/
def all : CharSet := ⟨true, []⟩

def only (c : Char) : CharSet := ⟨false, [.single c]⟩

def allBut (c : Char) : CharSet := ⟨true, [.single c]⟩

@[simp] theorem contains_all (c : Char) : all.contains c = true := rfl

@[simp] theorem contains_only (c d : Char) : (only d).contains c = decide (c = d) := by
  simp [only, contains, Member.contains]

@[simp] theorem contains_allBut (c d : Char) : (allBut d).contains c = decide (c ≠ d) := by
  simp [allBut, contains, Member.contains]

end CharSet

/-- A text between brackets, with what comes after the closing bracket. -/
structure Bracket where
  /-- A mark of negation stood first. -/
  negated : Bool
  body : Text
  rest : Text
deriving DecidableEq, Repr

/-- Reads from behind an opening bracket to its closing bracket. A closing
    bracket that comes first, or right after a mark of negation, is part of the
    body. There is no bracket if it is not closed. -/
def Bracket.ofText? (isMark : Char → Bool) (t : Text) : Option Bracket :=
  let negated := t.head?.any isMark
  let inner := if negated then t.drop 1 else t
  let kept := if inner.head? = some ']' then 1 else 0
  let later := inner.drop kept
  match later.dropWhile (· ≠ ']') with
  | [] => none
  | _ :: rest => some ⟨negated, inner.take kept ++ later.takeWhile (· ≠ ']'), rest⟩

theorem Bracket.length_rest_lt {isMark : Char → Bool} {t : Text} {b : Bracket}
    (read : ofText? isMark t = some b) : b.rest.length < t.length := by
  have step : ∀ (skipped : Nat) (u rest : Text) (c : Char),
      (u.drop skipped).dropWhile (· ≠ ']') = c :: rest → rest.length < u.length := by
    intro skipped u rest c tail
    have shorter := (List.dropWhile_suffix (fun d : Char => decide (d ≠ ']')) (l := u.drop skipped)).length_le
    simp only [tail, List.length_cons, List.length_drop] at shorter
    omega
  unfold ofText? at read
  dsimp only at read
  split at read
  · cases read
  · rename_i c rest tail
    cases read
    have shorter := step _ _ _ _ tail
    show rest.length < t.length
    split at shorter
    · simp only [List.length_drop] at shorter; omega
    · exact shorter

end Inventory
