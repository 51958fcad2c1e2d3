import Inventory.Text

namespace Inventory

/-- What a directory can call its child. -/
structure Name where
  text : Text
  proper : text ≠ [] ∧ text ≠ ['.'] ∧ text ≠ ['.', '.'] ∧ '/' ∉ text
deriving DecidableEq

def Name.ofText? (t : Text) : Option Name :=
  if proper : t ≠ [] ∧ t ≠ ['.'] ∧ t ≠ ['.', '.'] ∧ '/' ∉ t then some ⟨t, proper⟩ else none

inductive Component where
  | up
  | name (n : Name)
deriving DecidableEq

namespace Component

def text : Component → Text
  | up => ['.', '.']
  | name n => n.text

/-- The component that a piece between slashes stands for; none for an empty
    piece and for `.`. -/
def ofText? (t : Text) : Option Component :=
  if t = ['.', '.'] then some up else (Name.ofText? t).map name

end Component

/-- Where a path starts. Exactly two slashes are a root of their own. -/
inductive Root where
  | relative
  | slash
  | doubleSlash
deriving DecidableEq

namespace Root

def text : Root → Text
  | relative => []
  | slash => ['/']
  | doubleSlash => ['/', '/']

def ofText : Text → Root
  | '/' :: '/' :: '/' :: _ => slash
  | '/' :: '/' :: _ => doubleSlash
  | '/' :: _ => slash
  | _ => relative

end Root

structure Path where
  root : Root
  parts : List Component
deriving DecidableEq

namespace Path

def ofText (t : Text) : Path := ⟨Root.ofText t, (Text.cut '/' t).filterMap Component.ofText?⟩

/-- The text of a path; the path without root and components is `.`. -/
def text (p : Path) : Text :=
  if p.root = .relative ∧ p.parts = [] then ['.']
  else p.root.text ++ Text.joined '/' (p.parts.map Component.text)

def isAbsolute (p : Path) : Bool := p.root ≠ .relative

/-- `q` seen from `p`: an absolute `q` is itself. -/
def join (p q : Path) : Path := if q.root = .relative then ⟨p.root, p.parts ++ q.parts⟩ else q

def child (p : Path) (n : Name) : Path := ⟨p.root, p.parts ++ [.name n]⟩

/-- The path without its last component; a path without components is its own
    parent. -/
def parent (p : Path) : Path := ⟨p.root, p.parts.dropLast⟩

/-- The text of the last component, empty if there is none. -/
def lastName (p : Path) : Text := (p.parts.getLast?.map Component.text).getD []

/-- The path starts with all of `q`: the same root, and the components of `q`
    before its own. -/
def Under (p q : Path) : Prop := p.root = q.root ∧ q.parts <+: p.parts

instance (p q : Path) : Decidable (p.Under q) := inferInstanceAs (Decidable (_ ∧ _))

/-- What is left of a path below one that it is under. -/
def relativeTo? (p q : Path) : Option Path :=
  if p.Under q then some ⟨.relative, p.parts.drop q.parts.length⟩ else none

/-- The path one step up, read as text: it loses its last name, a root stays,
    and a relative path that is used up goes on upwards. -/
def above (p : Path) : Path :=
  match p.root, p.parts.getLast? with
  | .relative, none => ⟨.relative, [.up]⟩
  | .relative, some .up => ⟨.relative, p.parts ++ [.up]⟩
  | _, _ => p.parent

/-- The path with every `..` taken back textually. -/
def normal (p : Path) : Path :=
  p.parts.foldl (fun done c => match c with
    | .up => done.above
    | .name n => done.child n) ⟨p.root, []⟩

/-- The absolute path without `..` that a path stands for in a directory. -/
def absolute (p directory : Path) : Path := (directory.join p).normal

theorem under_refl (p : Path) : p.Under p := ⟨rfl, List.prefix_refl _⟩

theorem Under.trans {p q r : Path} (pq : p.Under q) (qr : q.Under r) : p.Under r :=
  ⟨pq.1.trans qr.1, qr.2.trans pq.2⟩

theorem child_under (p : Path) (n : Name) : (p.child n).Under p := ⟨rfl, List.prefix_append _ _⟩

theorem under_antisymm {p q : Path} (pq : p.Under q) (qp : q.Under p) : p = q := by
  obtain ⟨root, parts⟩ := p
  obtain ⟨_, below⟩ := pq
  obtain ⟨rfl, above⟩ := qp
  exact congrArg _ (above.eq_of_length_le below.length_le)

/-- Of two paths above one, one is above the other. -/
theorem Under.comparable {p q r : Path} (pq : p.Under q) (pr : p.Under r) : q.Under r ∨ r.Under q := by
  rcases List.prefix_or_prefix_of_prefix pq.2 pr.2 with shorter | shorter
  · exact .inr ⟨pr.1.symm.trans pq.1, shorter⟩
  · exact .inl ⟨pq.1.symm.trans pr.1, shorter⟩

@[simp] theorem parent_child (p : Path) (n : Name) : (p.child n).parent = p := by simp [parent, child]

/-- A child has one parent. -/
theorem child_left_cancel {p q : Path} {m n : Name} (same : p.child m = q.child n) : p = q := by
  rw [← parent_child p m, same, parent_child]

theorem not_under_child (p : Path) (n : Name) : ¬ p.Under (p.child n) := by
  intro under
  have longer := under.2.length_le
  simp only [child, List.length_append, List.length_singleton] at longer
  omega

theorem under_child_cases {p q : Path} {n : Name} (under : (p.child n).Under q) : q = p.child n ∨ p.Under q := by
  obtain ⟨root, parts⟩ := q
  obtain ⟨rfl, above⟩ := under
  rcases List.prefix_concat_iff.1 above with whole | above
  · exact .inl (congrArg _ whole)
  · exact .inr ⟨rfl, above⟩

/-- Of two children of one directory neither is below the other. -/
theorem eq_of_child_under {p q : Path} {m n : Name} (left : q.Under (p.child m)) (right : q.Under (p.child n)) :
    m = n := by
  have lengths : (p.child m).parts.length = (p.child n).parts.length := by simp [child]
  have nested := List.prefix_of_prefix_length_le left.2 right.2 (Nat.le_of_eq lengths)
  simpa [child] using nested.eq_of_length lengths

theorem relativeTo?_isSome (p q : Path) : (p.relativeTo? q).isSome ↔ p.Under q := by
  unfold relativeTo?; split <;> simp [*]

theorem join_relativeTo? {p q r : Path} (rest : p.relativeTo? q = some r) : q.join r = p := by
  unfold relativeTo? at rest
  split at rest
  · rename_i under
    obtain ⟨same, more, parts⟩ := under
    cases rest
    cases p
    simp only at same parts
    simp [join, same, ← parts]
  · cases rest

end Path
end Inventory
