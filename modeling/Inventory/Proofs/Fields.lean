import Inventory.Proofs.CanonicalForm
import Inventory.Report
import Mathlib.Algebra.GroupWithZero.Nat
import Mathlib.Data.List.DropRight

namespace Inventory

namespace Text

/-- The text holds neither what ends a field nor what ends a line. -/
def FitsField (t : Text) : Prop := Row.fieldSeparator ∉ t ∧ '\n' ∉ t

instance (t : Text) : Decidable t.FitsField := inferInstanceAs (Decidable (_ ∧ _))

theorem FitsField.append {s t : Text} (front : s.FitsField) (back : t.FitsField) : FitsField (s ++ t) :=
  ⟨fun inside => (List.mem_append.1 inside).elim front.1 back.1,
    fun inside => (List.mem_append.1 inside).elim front.2 back.2⟩

theorem length_cut (sep : Char) (t : Text) : (cut sep t).length = t.count sep + 1 := by
  induction t with
  | nil => rfl
  | cons c t ih =>
    by_cases here : c = sep
    · simp [cut, here, ih]
    · rw [List.count_cons_of_ne here]
      cases pieces : cut sep t with
      | nil => exact absurd pieces (cut_ne_nil sep t)
      | cons piece rest =>
        rw [pieces] at ih
        simpa [cut, here, pieces] using ih

theorem count_joined (sep : Char) {pieces : List Text} (some : pieces ≠ []) :
    (joined sep pieces).count sep = (pieces.map (List.count sep)).sum + (pieces.length - 1) := by
  induction pieces with
  | nil => exact absurd rfl some
  | cons piece rest ih =>
    cases rest with
    | nil => simp [joined]
    | cons next rest =>
      rw [joined_cons (by simp), List.count_append, List.count_cons_self, ih (by simp)]
      simp only [List.map_cons, List.sum_cons, List.length_cons]
      omega

theorem count_joined_of_ne {sep c : Char} (other : c ≠ sep) (pieces : List Text) :
    (joined sep pieces).count c = (pieces.map (List.count c)).sum := by
  induction pieces with
  | nil => rfl
  | cons piece rest ih =>
    cases rest with
    | nil => simp [joined]
    | cons next rest =>
      rw [joined_cons (by simp), List.count_append, List.count_cons_of_ne other.symm, ih]
      simp

theorem notMem_joined {sep c : Char} (other : c ≠ sep) {pieces : List Text} (absent : ∀ piece ∈ pieces, c ∉ piece) :
    c ∉ joined sep pieces := by
  rw [← List.count_eq_zero, count_joined_of_ne other, List.sum_eq_zero_iff_forall_eq_nat]
  simp only [List.forall_mem_map]
  exact fun piece inside => List.count_eq_zero.2 (absent piece inside)

/-- Lines that are written each with its end are cut apart again. -/
theorem cut_lines {lines : List Text} (whole : ∀ line ∈ lines, '\n' ∉ line) :
    cut '\n' (lines.flatMap (· ++ ['\n'])) = lines ++ [[]] := by
  induction lines with
  | nil => rfl
  | cons line rest ih =>
    rw [List.flatMap_cons, List.append_assoc, List.singleton_append, cut_append (whole line List.mem_cons_self),
      ih fun l inside => whole l (List.mem_cons_of_mem _ inside), List.cons_append]

theorem isDigit_toDigits {n : Nat} {c : Char} (inside : c ∈ Nat.toDigits 10 n) : c.isDigit = true :=
  Nat.isDigit_of_mem_toDigits (by decide) (by decide) inside

theorem toNat?_toDigits (n : Nat) : toNat? (Nat.toDigits 10 n) = some n := by
  have digits : (Nat.toDigits 10 n).all Char.isDigit = true := List.all_eq_true.2 fun c => isDigit_toDigits
  rw [toNat?, if_neg (by simp [Nat.toDigits_ne_nil, digits]), ← Nat.ofDigitChars_eq_foldl,
    Nat.ofDigitChars_ten_toDigits]

theorem ofInt_of_nonneg {i : Int} (nonneg : 0 ≤ i) : ofInt i = Nat.toDigits 10 i.natAbs := by
  rw [ofInt, if_neg (by omega)]

theorem toInt?_minus (n : Nat) : toInt? ('-' :: Nat.toDigits 10 n) = some (-n : Int) := by
  simp [toInt?, toNat?_toDigits]

theorem toInt?_toDigits (n : Nat) : toInt? (Nat.toDigits 10 n) = some (n : Int) := by
  unfold toInt?
  split
  · rename_i rest digits
    exact absurd (isDigit_toDigits (digits ▸ List.mem_cons_self)) (by decide)
  · simp [toNat?_toDigits]

theorem toInt?_ofInt (i : Int) : toInt? (ofInt i) = some i := by
  by_cases negative : i < 0
  · rw [ofInt, if_pos negative, toInt?_minus]
    congr 1
    omega
  · rw [ofInt_of_nonneg (by omega), toInt?_toDigits]
    congr 1
    omega

theorem fitsField_toDigits (n : Nat) : FitsField (Nat.toDigits 10 n) :=
  ⟨fun inside => absurd (isDigit_toDigits inside) (by decide),
    fun inside => absurd (isDigit_toDigits inside) (by decide)⟩

theorem fitsField_ofInt (i : Int) : FitsField (ofInt i) := by
  unfold ofInt
  split
  · exact FitsField.append (s := ['-']) (by decide) (fitsField_toDigits _)
  · exact fitsField_toDigits _

end Text

theorem EntryKind.fitsField_label (kind : EntryKind) : kind.label.FitsField := by
  cases kind <;> decide

theorem rtakeWhile_append_of_forall {α : Type} {p : α → Bool} (xs : List α) {ys : List α} (all : ∀ y ∈ ys, p y = true) :
    (xs ++ ys).rtakeWhile p = xs.rtakeWhile p ++ ys := by
  rw [List.rtakeWhile, List.reverse_append, List.takeWhile_append_of_pos (by simpa using all), List.reverse_append,
    List.reverse_reverse, List.rtakeWhile]

theorem rtakeWhile_append_of_exists {α : Type} {p : α → Bool} (xs : List α) {ys : List α}
    (stops : ∃ y ∈ ys, p y = false) : (xs ++ ys).rtakeWhile p = ys.rtakeWhile p := by
  have short : (ys.reverse.takeWhile p).length ≠ ys.reverse.length := by
    intro whole
    obtain ⟨y, inside, fails⟩ := stops
    have all := List.takeWhile_eq_self_iff.1 ((List.takeWhile_prefix p).eq_of_length whole)
    exact absurd (all y (List.mem_reverse.2 inside)) (by simp [fails])
  rw [List.rtakeWhile, List.reverse_append, List.takeWhile_append, if_neg short, List.rtakeWhile]

namespace TimePair

theorem fitsField_text {separator : Text} (fits : separator.FitsField) (t : TimePair) : (t.text separator).FitsField :=
  ((Text.fitsField_ofInt _).append fits).append (Text.fitsField_ofInt _)

/-- The time that a text with a separator in it says. The digits at the end of the
    separator stand before the nanoseconds. -/
def ofText? (separator t : Text) : Option TimePair := do
  let nanos := (t.rtakeWhile Char.isDigit).drop (separator.rtakeWhile Char.isDigit).length
  let seconds ← Text.toInt? (t.take (t.length - nanos.length - separator.length))
  let nanos ← Text.toInt? nanos
  some ⟨seconds, nanos⟩

theorem ofText?_text {separator : Text} (divides : ∃ c ∈ separator, c.isDigit = false) {t : TimePair}
    (nonneg : 0 ≤ t.nanos) : ofText? separator (t.text separator) = some t := by
  have digits : ∀ c ∈ Text.ofInt t.nanos, c.isDigit = true := by
    rw [Text.ofInt_of_nonneg nonneg]
    exact fun c => Text.isDigit_toDigits
  have tail : (t.text separator).rtakeWhile Char.isDigit =
      separator.rtakeWhile Char.isDigit ++ Text.ofInt t.nanos := by
    rw [TimePair.text, rtakeWhile_append_of_forall _ digits, rtakeWhile_append_of_exists _ divides]
  have front : (t.text separator).take
      ((t.text separator).length - (Text.ofInt t.nanos).length - separator.length) = Text.ofInt t.seconds := by
    have length : (t.text separator).length - (Text.ofInt t.nanos).length - separator.length =
        (Text.ofInt t.seconds).length := by
      simp only [TimePair.text, List.length_append]
      omega
    rw [length, TimePair.text, List.append_assoc, List.take_left]
  simp only [ofText?, tail, List.drop_left, front, Text.toInt?_ofInt, Option.bind_eq_bind, Option.bind_some]

theorem nanos_ofNanos_nonneg (t : Int) : 0 ≤ (ofNanos t).nanos := Int.fmod_nonneg_of_pos t (by decide)

end TimePair

end Inventory
