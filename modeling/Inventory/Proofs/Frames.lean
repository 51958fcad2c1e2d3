import Inventory.Proofs.Account

namespace Inventory

/-- The redirections are those of the entered links above a place, innermost first. -/
structure Place.Bears (place : Place) (active : List Redirection) : Prop where
  above : ∀ r ∈ active, place.path.Under r.source
  destinations : place.destinations = active.map Redirection.destination
  location : place.location = active.head?.bind fun r => r.relocate? place.path

theorem Redirection.relocate?_child {r : Redirection} {p : Path} (above : p.Under r.source) (n : Name) :
    r.relocate? (p.child n) = (r.relocate? p).map (·.child n) := by
  obtain ⟨same, below⟩ := above
  have further : (p.child n).Under r.source := (Path.child_under p n).trans ⟨same, below⟩
  have shorter := below.length_le
  rw [relocate?, relocate?, Path.relativeTo?, Path.relativeTo?, if_pos further, if_pos ⟨same, below⟩]
  simp [Path.join, Path.child, List.drop_append_of_le_length shorter]

theorem Redirection.relocate?_source (source destination : Path) :
    (Redirection.mk source destination).relocate? source = some destination := by
  simp [relocate?, Path.relativeTo?, Path.under_refl, Path.join]

namespace Place.Bears

variable {place : Place} {active : List Redirection}

theorem child (bears : place.Bears active) (n : Name) : (place.child n).Bears active where
  above r holds := (Path.child_under _ n).trans (bears.above r holds)
  destinations := bears.destinations
  location := by
    have known := bears.location
    cases active with
    | nil => simp [Place.child, known]
    | cons r rest =>
      have further := Redirection.relocate?_child (bears.above r List.mem_cons_self) n
      simp only [List.head?_cons, Option.bind_some] at known ⊢
      simp [Place.child, known, further]

theorem through (bears : place.Bears active) (target : Path) :
    (place.through target).Bears (⟨place.path, target⟩ :: active) where
  above r holds := by
    rcases List.mem_cons.1 holds with rfl | holds
    · exact Path.under_refl _
    · exact bears.above r holds
  destinations := by simp [Place.through, bears.destinations]
  location := by simp [Place.through, Redirection.relocate?_source]

end Place.Bears

/-- An open directory of a walk with the redirections that hold in it, innermost first. -/
structure Frame where
  base : Place
  depth : Nat
  pending : List Name
  active : List Redirection

namespace Frame

def stream (f : Frame) : Stream := ⟨f.base.path, f.depth, f.pending⟩

/-- The path is at or below a child whose turn is over. -/
def Past (f : Frame) (p : Path) : Prop := ∃ m, m ∉ f.pending ∧ p.Under (f.base.path.child m)

structure Sound (root : Path) (f : Frame) : Prop where
  below : f.base.path.Under root
  distinct : f.pending.Nodup
  bears : f.base.Bears f.active

/-- The frame with fewer names to visit. -/
def withPending (f : Frame) (pending : List Name) : Frame := { f with pending }

variable {root : Path} {f : Frame} {n : Name} {rest : List Name}

theorem Past.under {p q : Path} (past : f.Past p) (under : q.Under p) : f.Past q := by
  obtain ⟨m, finished, above⟩ := past
  exact ⟨m, finished, under.trans above⟩

theorem Past.advance {p : Path} (past : f.Past p) (turn : f.pending = n :: rest) : (f.withPending rest).Past p := by
  obtain ⟨m, finished, above⟩ := past
  rw [turn] at finished
  exact ⟨m, fun later => finished (List.mem_cons_of_mem _ later), above⟩

theorem Sound.advance (sound : f.Sound root) (turn : f.pending = n :: rest) : (f.withPending rest).Sound root :=
  ⟨sound.below, (List.nodup_cons.1 (turn ▸ sound.distinct)).2, sound.bears⟩

end Frame

/-- The frames of a walk, innermost first, with a stack of redirections. Those
    on top that do not hold in the innermost frame belong to children of it
    whose turn is over. -/
inductive Aligned (root : Path) : List Frame → List Redirection → Prop where
  | bottom (items : List Redirection) : Aligned root [] items
  | inside {f : Frame} {outer : List Frame} {spent : List Redirection} (sound : f.Sound root)
      (finished : ∀ r ∈ spent, f.Past r.source) (nested : ∀ g ∈ outer.head?, g.Past f.base.path)
      (outside : Aligned root outer f.active) : Aligned root (f :: outer) (spent ++ f.active)

namespace Aligned

variable {root : Path} {f : Frame} {outer : List Frame} {items : List Redirection} {n : Name} {rest : List Name}

theorem sound (aligned : Aligned root (f :: outer) items) : f.Sound root := by
  cases aligned with
  | inside sound => exact sound

theorem top (sound : f.Sound root) (nested : ∀ g ∈ outer.head?, g.Past f.base.path)
    (outside : Aligned root outer f.active) : Aligned root (f :: outer) f.active :=
  @inside root f outer [] sound (by simp) nested outside

/-- What is left on the stack of a directory is over in the directory around it. -/
theorem pop (aligned : Aligned root (f :: outer) items) : Aligned root outer items := by
  obtain _ | ⟨_, finished, nested, outside⟩ := aligned
  rename_i spent
  generalize kept : f.active = active at outside
  cases outside with
  | bottom => exact .bottom _
  | @inside g outer spent' sound finished' nested' outside' =>
    rw [← List.append_assoc]
    refine .inside sound (fun r left => ?_) nested' outside'
    rcases List.mem_append.1 left with left | left
    · obtain ⟨m, _, below⟩ := finished r left
      exact (nested g rfl).under (below.trans (Path.child_under _ m))
    · exact finished' r left

/-- The turn of a child is over. -/
theorem advance (aligned : Aligned root (f :: outer) items) (turn : f.pending = n :: rest) :
    Aligned root (f.withPending rest :: outer) items := by
  obtain _ | ⟨sound, finished, nested, outside⟩ := aligned
  exact .inside (f := f.withPending rest) (sound.advance turn) (fun r left => (finished r left).advance turn)
    nested outside

/-- When the turn of a child has come, the stack is brought down to the
    redirections that hold in the directory. -/
theorem reconcile (aligned : Aligned root (f :: outer) items) (turn : f.pending = n :: rest) :
    (RedirectionStack.mk items).reconcile (f.base.path.child n) = ⟨f.active⟩ ∧
      Aligned root (f.withPending rest :: outer) f.active := by
  obtain _ | ⟨sound, finished, nested, outside⟩ := aligned
  rename_i spent
  refine ⟨?_, top (f := f.withPending rest) (sound.advance turn) nested outside⟩
  have gone : ∀ r ∈ spent, decide (¬ r.AppliesTo (f.base.path.child n)) = true := by
    intro r left
    obtain ⟨m, visited, below⟩ := finished r left
    refine decide_eq_true fun applies => visited ?_
    have same : n = m := Path.eq_of_child_under (Path.under_refl _) (Path.Under.trans applies below)
    rw [turn, ← same]
    exact List.mem_cons_self
  have kept : f.active.dropWhile (fun r => decide (¬ r.AppliesTo (f.base.path.child n))) = f.active := by
    cases held : f.active with
    | nil => rfl
    | cons r more =>
      have applies : r.AppliesTo (f.base.path.child n) :=
        (Path.child_under _ n).trans (sound.bears.above r (held ▸ List.mem_cons_self))
      simp [applies]
  rw [RedirectionStack.reconcile, List.dropWhile_append_of_pos gone, kept]

/-- The subtree of a child whose turn is over may leave redirections behind. -/
theorem leave (aligned : Aligned root (f :: outer) f.active) (finished : n ∉ f.pending) {spent : List Redirection}
    (sources : ∀ r ∈ spent, r.source = f.base.path.child n) : Aligned root (f :: outer) (spent ++ f.active) := by
  generalize held : f.active = items at aligned
  obtain _ | ⟨sound, before, nested, outside⟩ := aligned
  rename_i spent'
  have none : spent' = [] := List.append_left_eq_self.1 held.symm
  subst none
  exact .inside sound (fun r left => ⟨n, finished, sources r left ▸ Path.under_refl _⟩) nested outside

/-- A directory is opened at a child whose turn has come. -/
theorem push (aligned : Aligned root (f :: outer) items) (finished : n ∉ f.pending) (inner : Frame)
    (path : inner.base.path = f.base.path.child n) (distinct : inner.pending.Nodup) (held : inner.active = items)
    (bears : inner.base.Bears inner.active) : Aligned root (inner :: f :: outer) items := by
  subst held
  refine top ⟨?_, distinct, bears⟩ ?_ aligned
  · exact path ▸ (Path.child_under _ n).trans aligned.sound.below
  · rintro g ⟨⟩
    exact ⟨n, finished, path ▸ Path.under_refl _⟩

end Aligned
end Inventory
