import Inventory.Proofs.CanonicalForm
import Inventory.Redirection

/-!
A path under another one is the other with further components (`Path.extend`), and a
redirection puts these behind its destination instead of its source. The two play the
same part in this, so the reverse redirection takes a path back. Components are compared,
and not texts; but a path with a component is above another one just if its text is the
other text, or starts it with a slash right behind (`Path.under_iff_text`).
-/
namespace Inventory

namespace Text

/-- At each separator a text can be cut into two texts, whose pieces come one after the other. -/
theorem cut_append_sep (sep : Char) (s t : Text) : cut sep (s ++ sep :: t) = cut sep s ++ cut sep t := by
  induction s with
  | nil => simp [cut]
  | cons c s ih =>
    by_cases here : c = sep
    · simp [cut, here, ih]
    · obtain ⟨piece, rest, pieces⟩ := List.exists_cons_of_ne_nil (cut_ne_nil sep s)
      rw [pieces, List.cons_append] at ih
      simp only [List.cons_append, cut, if_neg here, ih, pieces]

theorem joined_append {sep : Char} {front back : List Text} (first : front ≠ []) (more : back ≠ []) :
    joined sep (front ++ back) = joined sep front ++ sep :: joined sep back := by
  induction front with
  | nil => exact absurd rfl first
  | cons piece front ih =>
    cases front with
    | nil => exact joined_cons more
    | cons next front =>
      have rest : next :: front ≠ [] := List.cons_ne_nil next front
      rw [List.cons_append, joined_cons (List.append_ne_nil_of_left_ne_nil rest back), ih rest, joined_cons rest]
      simp

end Text

namespace Path

variable {p q : Path} {more more' : List Component}

/-- The path with further components behind its own. -/
def extend (p : Path) (more : List Component) : Path := ⟨p.root, p.parts ++ more⟩

@[simp] theorem extend_nil (p : Path) : p.extend [] = p := by simp [extend]

theorem under_iff_exists_extend : p.Under q ↔ ∃ more, p = q.extend more := by
  constructor
  · rintro ⟨same, more, parts⟩
    exact ⟨more, by rw [extend, parts, ← same]⟩
  · rintro ⟨more, rfl⟩
    exact ⟨rfl, List.prefix_append q.parts more⟩

theorem extend_under (p : Path) (more : List Component) : (p.extend more).Under p :=
  under_iff_exists_extend.2 ⟨more, rfl⟩

theorem extend_under_extend_iff : (p.extend more).Under (p.extend more') ↔ more' <+: more := by
  constructor
  · intro under
    exact (List.prefix_append_right_inj p.parts).1 under.2
  · intro part
    exact ⟨rfl, (List.prefix_append_right_inj p.parts).2 part⟩

theorem relativeTo?_extend : (p.extend more).relativeTo? p = some ⟨.relative, more⟩ := by
  rw [relativeTo?, if_pos (extend_under p more)]
  simp [extend]

/-- A path with a component is written as its root and its components. -/
theorem text_of_parts (named : p.parts ≠ []) :
    p.text = p.root.text ++ Text.joined '/' (p.parts.map Component.text) := by
  rw [text, if_neg]
  rintro ⟨_, empty⟩
  exact named empty

theorem text_extend (named : q.parts ≠ []) (further : more ≠ []) :
    (q.extend more).text = q.text ++ '/' :: Text.joined '/' (more.map Component.text) := by
  have whole : (q.extend more).parts ≠ [] := List.append_ne_nil_of_left_ne_nil named more
  rw [text_of_parts whole, text_of_parts named, extend, List.map_append,
    Text.joined_append (by simpa using named) (by simpa using further), List.append_assoc]

/-- What is written behind a path and a slash is read as further components. -/
theorem ofText_append_slash (named : q.parts ≠ []) (t : Text) :
    ofText (q.text ++ '/' :: t) = q.extend ((Text.cut '/' t).filterMap Component.ofText?) := by
  have parts : (Text.cut '/' q.text).filterMap Component.ofText? = q.parts := congrArg Path.parts (ofText_text q)
  have root : Root.ofText (q.text ++ '/' :: t) = q.root := by
    obtain ⟨first, rest, names⟩ := List.exists_cons_of_ne_nil named
    have shown : Text.joined '/' (q.parts.map Component.text) ≠ [] := by
      intro empty
      have read := components_joined q.parts
      rw [empty] at read
      exact named read.symm
    have plain : (Text.joined '/' (q.parts.map Component.text) ++ '/' :: t).head? ≠ some '/' := by
      rw [List.head?_append_of_ne_nil _ shown]
      exact head?_joined_ne_slash q.parts
    rw [text_of_parts named, List.append_assoc]
    exact root_ofText q.root plain
  rw [ofText, Text.cut_append_sep, List.filterMap_append, parts, root, extend]

/-- Where a path has a component, the paths under it are those whose text is its own or goes
    on behind it with a slash. -/
theorem under_iff_text (named : q.parts ≠ []) : p.Under q ↔ p.text = q.text ∨ q.text ++ ['/'] <+: p.text := by
  constructor
  · intro under
    obtain ⟨more, rfl⟩ := under_iff_exists_extend.1 under
    by_cases further : more = []
    · left
      rw [further, extend_nil]
    · right
      refine ⟨Text.joined '/' (more.map Component.text), ?_⟩
      rw [text_extend named further]
      simp
  · rintro (same | ⟨t, starts⟩)
    · rw [text_injective same]
      exact under_refl q
    · have read : p = q.extend ((Text.cut '/' t).filterMap Component.ofText?) := by
        rw [← ofText_append_slash named t, ← ofText_text p, ← starts]
        simp
      rw [read]
      exact extend_under q _

end Path

namespace Redirection

variable {r : Redirection} {p q p' q' : Path}

theorem relocate?_extend (r : Redirection) (more : List Component) :
    r.relocate? (r.source.extend more) = some (r.destination.extend more) := by
  have under := Path.extend_under r.source more
  rw [relocate?, Path.relativeTo?, if_pos under]
  simp [Path.extend, Path.join]

/-- The components behind the source come behind the destination. -/
theorem relocate_eq_ok_iff_extend :
    r.relocate p = .ok q ↔ ∃ more, p = r.source.extend more ∧ q = r.destination.extend more := by
  rw [relocate_eq_ok_iff]
  constructor
  · intro moved
    have applies : r.AppliesTo p := (relocate?_isSome r p).1 (Option.isSome_of_eq_some moved)
    obtain ⟨more, rfl⟩ := Path.under_iff_exists_extend.1 applies
    rw [relocate?_extend] at moved
    exact ⟨more, rfl, (Option.some.inj moved).symm⟩
  · rintro ⟨more, rfl, rfl⟩
    exact relocate?_extend r more

theorem relocate_eq_error_iff (r : Redirection) (p : Path) :
    r.relocate p = .error (.notBelow p r.source) ↔ ¬ r.AppliesTo p := by
  rw [← relocate?_isSome, relocate]
  cases r.relocate? p <;> simp

theorem exists_relocate (applies : r.AppliesTo p) : ∃ q, r.relocate p = .ok q := by
  obtain ⟨more, whole⟩ := Path.under_iff_exists_extend.1 applies
  exact ⟨_, relocate_eq_ok_iff_extend.2 ⟨more, whole, rfl⟩⟩

/-- The redirection the other way round. -/
def reverse (r : Redirection) : Redirection := ⟨r.destination, r.source⟩

theorem relocate_reverse_iff : r.reverse.relocate q = .ok p ↔ r.relocate p = .ok q := by
  rw [relocate_eq_ok_iff_extend, relocate_eq_ok_iff_extend]
  constructor
  · rintro ⟨more, there, here⟩
    exact ⟨more, here, there⟩
  · rintro ⟨more, here, there⟩
    exact ⟨more, there, here⟩

theorem under_of_relocate (moved : r.relocate p = .ok q) : q.Under r.destination := by
  obtain ⟨more, _, rfl⟩ := relocate_eq_ok_iff_extend.1 moved
  exact Path.extend_under r.destination more

theorem under_iff_of_relocate (moved : r.relocate p = .ok q) (moved' : r.relocate p' = .ok q') :
    p.Under p' ↔ q.Under q' := by
  obtain ⟨more, rfl, rfl⟩ := relocate_eq_ok_iff_extend.1 moved
  obtain ⟨more', rfl, rfl⟩ := relocate_eq_ok_iff_extend.1 moved'
  rw [Path.extend_under_extend_iff, Path.extend_under_extend_iff]

theorem existsUnique_relocate (under : q.Under r.destination) : ∃! p, r.relocate p = .ok q := by
  have back : r.reverse.AppliesTo q := under
  obtain ⟨p, returned⟩ := exists_relocate back
  refine ⟨p, relocate_reverse_iff.1 returned, ?_⟩
  intro p' moved
  have returned' : r.reverse.relocate q = .ok p' := relocate_reverse_iff.2 moved
  exact Except.ok.inj (returned'.symm.trans returned)

/-- Where one redirection goes on from the destination of another, the two are one. -/
theorem relocate_relocate (r : Redirection) (further p : Path) :
    (r.relocate p).bind (Redirection.mk r.destination further).relocate =
      (Redirection.mk r.source further).relocate p := by
  by_cases applies : r.AppliesTo p
  · obtain ⟨more, rfl⟩ := Path.under_iff_exists_extend.1 applies
    have first : r.relocate (r.source.extend more) = .ok (r.destination.extend more) :=
      relocate_eq_ok_iff_extend.2 ⟨more, rfl, rfl⟩
    have second : (Redirection.mk r.destination further).relocate (r.destination.extend more) =
        .ok (further.extend more) := relocate_eq_ok_iff_extend.2 ⟨more, rfl, rfl⟩
    have both : (Redirection.mk r.source further).relocate (r.source.extend more) = .ok (further.extend more) :=
      relocate_eq_ok_iff_extend.2 ⟨more, rfl, rfl⟩
    rw [first, both]
    exact second
  · have fails : r.relocate p = .error (.notBelow p r.source) := (relocate_eq_error_iff r p).2 applies
    have fails' : (Redirection.mk r.source further).relocate p = .error (.notBelow p r.source) :=
      (relocate_eq_error_iff _ p).2 applies
    rw [fails, fails']
    rfl

/-- A redirection fails just for the paths that it does not apply to. The others it carries
    one to one onto the paths under its destination, keeps what lies under what, and is
    undone by its reverse; and two redirections of which one goes on where the other ends
    are one. To which paths it applies can be told from their texts, unless its source is a
    root or the empty path. -/
theorem relocate_bijective (r : Redirection) :
    (∀ p, r.relocate p = .error (.notBelow p r.source) ↔ ¬ r.AppliesTo p) ∧
      (∀ p, r.AppliesTo p →
        ∃ q, r.relocate p = .ok q ∧ q.Under r.destination ∧ r.reverse.relocate q = .ok p) ∧
      (∀ p p' q q', r.relocate p = .ok q → r.relocate p' = .ok q' → (p.Under p' ↔ q.Under q')) ∧
      (∀ q, q.Under r.destination → ∃! p, r.relocate p = .ok q) ∧
      (∀ further p, (r.relocate p).bind (Redirection.mk r.destination further).relocate =
        (Redirection.mk r.source further).relocate p) ∧
      (r.source.parts ≠ [] →
        ∀ p, r.AppliesTo p ↔ p.text = r.source.text ∨ r.source.text ++ ['/'] <+: p.text) := by
  refine ⟨relocate_eq_error_iff r, ?_, ?_, ?_, relocate_relocate r, ?_⟩
  · intro p applies
    obtain ⟨q, moved⟩ := exists_relocate applies
    exact ⟨q, moved, under_of_relocate moved, relocate_reverse_iff.2 moved⟩
  · intro p p' q q' moved moved'
    exact under_iff_of_relocate moved moved'
  · intro q under
    exact existsUnique_relocate under
  · intro named p
    exact Path.under_iff_text named

/-- From the root of its own kind to a path that goes upwards. -/
example : (Redirection.mk (.ofText "//".toList) (.ofText "../x".toList)).relocate (.ofText "//a/..".toList) =
    .ok (.ofText "../x/a/..".toList) := by decide

end Redirection
end Inventory
