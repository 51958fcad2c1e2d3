/-!
Names, paths, patterns and lines are lists of characters. A byte of a name that is not
part of well-formed UTF-8 is kept as one of the 128 private-use characters U+F780 to
U+F7FF: it counts as one byte, and it sorts as the code point U+DC80 to U+DCFF, before
all characters from U+E000 on.
-/
namespace Inventory

/-- Text as the list of its characters. -/
abbrev Text := List Char

namespace Text

/-- The character stands for a byte that is not part of well-formed UTF-8. -/
def isLoneByte (c : Char) : Bool := 0xF780 ≤ c.toNat && c.toNat ≤ 0xF7FF

/-- The place of a character in the order of characters. -/
def rank (c : Char) : Nat := if isLoneByte c then c.toNat - 0x1B00 else c.toNat

/-- Texts sort by the ranks of their characters, a beginning before the whole. -/
def le : Text → Text → Bool
  | [], _ => true
  | _ :: _, [] => false
  | c :: s, d :: t => rank c < rank d || (rank c = rank d && le s t)

/-- The number of bytes that the text takes. -/
def byteSize : Text → Nat
  | [] => 0
  | c :: t => (if isLoneByte c then 1 else c.utf8Size) + byteSize t

/-- An integer in decimal notation. -/
def ofInt (i : Int) : Text :=
  if i < 0 then '-' :: Nat.toDigits 10 i.natAbs else Nat.toDigits 10 i.natAbs

/-- The number that decimal digits stand for. -/
def toNat? (t : Text) : Option Nat :=
  if t = [] ∨ t.all Char.isDigit = false then none
  else some (t.foldl (fun n c => 10 * n + (c.toNat - '0'.toNat)) 0)

/-- The integer that digits stand for, with a minus sign before them or without. -/
def toInt? : Text → Option Int
  | '-' :: t => (toNat? t).map fun n => -n
  | t => (toNat? t).map fun n => n

theorem rank_injective {c d : Char} (same : rank c = rank d) : c = d := by
  have values : c.toNat = d.toNat := by
    have c_valid : c.toNat.isValidChar := c.valid
    have d_valid : d.toNat.isValidChar := d.valid
    unfold rank isLoneByte at same
    simp only [Bool.and_eq_true, decide_eq_true_eq] at same
    unfold Nat.isValidChar at c_valid d_valid
    split at same <;> split at same <;> omega
  exact Char.ext (UInt32.toNat_inj.1 values)

theorem le_refl (t : Text) : le t t = true := by
  induction t with
  | nil => rfl
  | cons c t ih => simp [le, ih]

theorem le_total (s t : Text) : le s t = true ∨ le t s = true := by
  induction s generalizing t with
  | nil => exact .inl rfl
  | cons c s ih =>
    cases t with
    | nil => exact .inr rfl
    | cons d t =>
      simp only [le, Bool.or_eq_true, Bool.and_eq_true, decide_eq_true_eq]
      rcases Nat.lt_trichotomy (rank c) (rank d) with less | same | more
      · exact .inl (.inl less)
      · exact (ih t).imp (fun h => .inr ⟨same, h⟩) (fun h => .inr ⟨same.symm, h⟩)
      · exact .inr (.inl more)

theorem le_trans {s t u : Text} (st : le s t = true) (tu : le t u = true) : le s u = true := by
  induction s generalizing t u with
  | nil => rfl
  | cons c s ih =>
    cases t with
    | nil => cases st
    | cons d t =>
      cases u with
      | nil => cases tu
      | cons e u =>
        simp only [le, Bool.or_eq_true, Bool.and_eq_true, decide_eq_true_eq] at st tu ⊢
        rcases st with less | ⟨same, st⟩ <;> rcases tu with less' | ⟨same', tu⟩
        · exact .inl (by omega)
        · exact .inl (by omega)
        · exact .inl (by omega)
        · exact .inr ⟨by omega, ih st tu⟩

theorem le_antisymm {s t : Text} (st : le s t = true) (ts : le t s = true) : s = t := by
  induction s generalizing t with
  | nil =>
    cases t with
    | nil => rfl
    | cons d t => cases ts
  | cons c s ih =>
    cases t with
    | nil => cases st
    | cons d t =>
      simp only [le, Bool.or_eq_true, Bool.and_eq_true, decide_eq_true_eq] at st ts
      rcases st with less | ⟨same, st⟩ <;> rcases ts with less' | ⟨same', ts⟩
      · omega
      · omega
      · omega
      · rw [rank_injective same, ih st ts]

/-- The pieces between the separators; there is always one more piece than
    there are separators. -/
def cut (sep : Char) : Text → List Text
  | [] => [[]]
  | c :: t =>
    if c = sep then [] :: cut sep t
    else match cut sep t with
      | [] => [[c]]
      | piece :: rest => (c :: piece) :: rest

/-- The pieces with one separator between each two of them. -/
def joined (sep : Char) : List Text → Text
  | [] => []
  | [piece] => piece
  | piece :: rest => piece ++ sep :: joined sep rest

theorem cut_ne_nil (sep : Char) (t : Text) : cut sep t ≠ [] := by
  cases t with
  | nil => simp [cut]
  | cons c t => unfold cut; split <;> (try split) <;> simp

theorem joined_cons {sep : Char} {piece : Text} {rest : List Text} (more : rest ≠ []) :
    joined sep (piece :: rest) = piece ++ sep :: joined sep rest := by
  cases rest with
  | nil => exact absurd rfl more
  | cons _ _ => rfl

theorem joined_cut (sep : Char) (t : Text) : joined sep (cut sep t) = t := by
  induction t with
  | nil => rfl
  | cons c t ih =>
    unfold cut
    split
    · rename_i same
      rw [joined_cons (cut_ne_nil sep t), ih, same]; rfl
    · cases pieces : cut sep t with
      | nil => exact absurd pieces (cut_ne_nil sep t)
      | cons piece rest =>
        rw [pieces] at ih
        cases rest with
        | nil => simpa [joined] using ih
        | cons _ _ => simpa [joined] using ih

theorem cut_of_notMem {sep : Char} {t : Text} (absent : sep ∉ t) : cut sep t = [t] := by
  induction t with
  | nil => rfl
  | cons c t ih =>
    simp only [List.mem_cons, not_or] at absent
    simp [cut, Ne.symm absent.1, ih absent.2]

theorem cut_append {sep : Char} {t : Text} (absent : sep ∉ t) (u : Text) :
    cut sep (t ++ sep :: u) = t :: cut sep u := by
  induction t with
  | nil => simp [cut]
  | cons c t ih =>
    simp only [List.mem_cons, not_or] at absent
    simp [cut, Ne.symm absent.1, ih absent.2]

theorem cut_joined {sep : Char} {pieces : List Text} (some : pieces ≠ [])
    (absent : ∀ piece ∈ pieces, sep ∉ piece) : cut sep (joined sep pieces) = pieces := by
  induction pieces with
  | nil => exact absurd rfl some
  | cons piece rest ih =>
    cases rest with
    | nil => exact cut_of_notMem (absent piece (by simp))
    | cons next rest =>
      rw [joined_cons (by simp), cut_append (absent piece (by simp)),
        ih (by simp) (fun p inside => absent p (List.mem_cons_of_mem _ inside))]

end Text
end Inventory
