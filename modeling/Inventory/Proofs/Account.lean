import Inventory.Scan
import Inventory.Proofs.Relocation
import Mathlib.Data.List.Sort

/-!
A place is a walked path with what counts about the links above it: where the node
physically lies, and the directories that the entered links lead to. `Scan.sight` says
what is reported at a place and whether the walk goes on below it, and `Scan.account`
puts together what is said there and at all places below. Nothing is kept from one
sibling to the next. Below a directory the location gets longer, and no directory is
entered twice on a path, so the recursion ends (`Scan.height_lt_of_sight`).
-/
namespace Inventory

/-- What a scan makes known: a record, or that a link is entered. -/
inductive Event where
  | record (r : Record)
  | entered (link target : Path)
deriving DecidableEq

/-- The events of a part of a scan in order, and the failure that it ends with. -/
structure Account where
  events : List Event
  failure : Option Failure
deriving DecidableEq

namespace Event

def record? : Event → Option Record
  | record r => some r
  | entered .. => none

end Event

namespace Account

def silent : Account := ⟨[], none⟩

def telling (events : List Event) : Account := ⟨events, none⟩

def failing (f : Failure) : Account := ⟨[], some f⟩

/-- One part after another; after a failure nothing comes. -/
def followedBy (a b : Account) : Account :=
  match a.failure with
  | none => ⟨a.events ++ b.events, b.failure⟩
  | some _ => a

def records (a : Account) : List Record := a.events.filterMap Event.record?

/-- How a scan with this account ends. -/
def ending (a : Account) : Ending :=
  match a.failure with
  | none => .complete
  | some f => .failed f

@[simp] theorem silent_followedBy (a : Account) : silent.followedBy a = a := rfl

@[simp] theorem followedBy_silent (a : Account) : a.followedBy silent = a := by
  obtain ⟨events, _ | f⟩ := a <;> simp [followedBy, silent]

theorem followedBy_assoc (a b c : Account) : (a.followedBy b).followedBy c = a.followedBy (b.followedBy c) := by
  obtain ⟨events, _ | f⟩ := a <;> obtain ⟨events', _ | f'⟩ := b <;> simp [followedBy]

theorem mem_followedBy_iff {a b : Account} {e : Event} :
    e ∈ (a.followedBy b).events ↔ e ∈ a.events ∨ a.failure = none ∧ e ∈ b.events := by
  obtain ⟨events, _ | f⟩ := a <;> simp [followedBy]

theorem failure_followedBy_iff {a b : Account} :
    (a.followedBy b).failure = none ↔ a.failure = none ∧ b.failure = none := by
  obtain ⟨events, _ | f⟩ := a <;> simp [followedBy]

end Account

/-- A walked path with what the links above it say. -/
structure Place where
  path : Path
  absolute : path.isAbsolute = true
  /-- Where the node physically lies, if a link above was entered. -/
  location : Option Path
  /-- The directories that the entered links above lead to, innermost first. -/
  destinations : List Path

namespace Place

def child (base : Place) (n : Name) : Place :=
  ⟨base.path.child n, base.absolute, base.location.map (·.child n), base.destinations⟩

/-- A link that is entered, as the directory it leads to. -/
def through (link : Place) (target : Path) : Place :=
  ⟨link.path, link.absolute, some target, target :: link.destinations⟩

end Place

/-- Where a walk goes on from a place: not below it, not at all, or with the
    names of an open directory. -/
inductive Onward where
  | stays
  | fails (f : Failure)
  | descends (base : Place) (names : List Name)

namespace Name

/-- Names are ordered as their texts are. -/
def Le (a b : Name) : Prop := Text.le a.text b.text = true

instance : DecidableRel Le := fun a b => inferInstanceAs (Decidable (Text.le a.text b.text = true))

instance : Std.Total Le where
  total a b := Text.le_total a.text b.text

instance : IsTrans Name Le where
  trans _ _ _ := Text.le_trans

instance : Std.Antisymm Le where
  antisymm a b less more := by
    obtain ⟨text, _⟩ := a
    obtain ⟨text', _⟩ := b
    cases Text.le_antisymm less more
    rfl

/-- The names of a directory as they have their turn: sorted, or as they were read. -/
def inTurn (sorted : Bool) (names : List Name) : List Name := if sorted then names.insertionSort Le else names

theorem inTurn_perm (sorted : Bool) (names : List Name) : (inTurn sorted names).Perm names := by
  unfold inTurn
  split
  · exact List.perm_insertionSort Le names
  · exact List.Perm.refl names

end Name

theorem Walk.ordered_eq (w : Walk) (names : List Name) : w.ordered names = Name.inTurn w.sorted names := by
  have order : (fun a b : Name => Text.le a.text b.text) = fun a b => decide (Name.Le a b) := by
    funext a b
    exact Bool.decide_eq_true.symm
  rw [ordered, Name.inTurn, order, List.mergeSort_eq_insertionSort]

namespace Walk

variable {w : Walk} {p : Path} {kind : EntryKind}

/-- A path goes on behind the root, and for how it goes on the walk leaves it out. -/
def Omits (w : Walk) (p : Path) (kind : EntryKind) : Prop :=
  ∃ names, names ≠ [] ∧ p = w.root.extend names ∧ w.excludes ⟨.relative, names⟩ (kind = .directory) = true

theorem omits_iff : w.Omits p kind ↔
    p ≠ w.root ∧ (p.relativeTo? w.root).any (fun below => w.excludes below (kind = .directory)) = true := by
  constructor
  · rintro ⟨names, named, rfl, excluded⟩
    refine ⟨fun same => named ?_, by rwa [Path.relativeTo?_extend]⟩
    exact List.append_right_eq_self.1 (congrArg Path.parts same)
  · rintro ⟨other, excluded⟩
    have under : p.Under w.root := by
      by_contra outside
      simp [Path.relativeTo?, outside] at excluded
    obtain ⟨names, rfl⟩ := Path.under_iff_exists_extend.1 under
    rw [Path.relativeTo?_extend, Option.any_some] at excluded
    refine ⟨names, fun none => other ?_, rfl, excluded⟩
    rw [none, Path.extend_nil]

instance : Decidable (w.Omits p kind) := decidable_of_iff' _ omits_iff

theorem not_omits_root : ¬ w.Omits w.root kind := fun omits => (omits_iff.1 omits).1 rfl

/-- A child is left out for its path behind the root. -/
theorem omits_child_iff {directory below : Path} {n : Name} (inside : directory.Under w.root)
    (relative : (directory.child n).relativeTo? w.root = some below) :
    w.Omits (directory.child n) kind ↔ w.excludes below (kind = .directory) = true := by
  have other : directory.child n ≠ w.root := fun same => Path.not_under_child directory n (same ▸ inside)
  simp only [omits_iff, relative, Option.any_some, and_iff_right other]

end Walk

namespace Scan

variable (s : Scan)

/-- The root of the scan as a place. -/
def rootPlace (absolute : s.walk.root.isAbsolute = true) : Place := ⟨s.walk.root, absolute, none, []⟩

/-- An entered link is above the place, and the node lies inside the search root. -/
def Revisited (place : Place) : Prop :=
  place.location.any (fun p => p.Under (s.walk.system.canonical s.walk.root)) = true

instance (place : Place) : Decidable (s.Revisited place) := inferInstanceAs (Decidable (_ = _))

/-- The node that is reported at a place, with its kind: it can be asked about,
    is of a kind that is reported, is not cut and is not visited elsewhere. -/
def reported? (place : Place) : Option (Node × EntryKind) :=
  match s.walk.system.lstat place.path with
  | .error _ => none
  | .ok node =>
    match node.content.kind? with
    | none => none
    | some kind => if s.walk.Omits place.path kind ∨ s.Revisited place then none else some (node, kind)

/-- The target of the link on a path, if it resolves and exists. -/
def target? (p : Path) : Option Path :=
  match s.walk.system.strictForm p with
  | .error _ => none
  | .ok target => if s.walk.system.canAccess target then some target else none

/-- The record of a node at a place. -/
def recordAt (place : Place) (node : Node) (kind : EntryKind) : Record :=
  let told (existence : Nat) (target : Text) : Record :=
    ⟨place.path, existence, target, node.size, kind, node.times.stamps⟩
  if kind = .symbolicLink then
    match s.target? place.path with
    | some target => told 1 target.text
    | none => told 2 []
  else told 1 ((place.location.map Path.text).getD [])

/-- A link may be entered for its target: the target is inside the local root and
    not inside the search root, it is not above a directory that an entered link
    leads to, and not above the directory of a link outside the search root. -/
def MayEnter (link : Place) (target : Path) : Prop :=
  let fs := s.walk.system
  let directory := fs.canonical link.path.parent
  target.Under (fs.canonical s.localRoot) ∧ ¬ target.Under (fs.canonical s.walk.root) ∧
    (∀ destination ∈ link.destinations, ¬ destination.Under target) ∧
    (¬ directory.Under (fs.canonical s.walk.root) → ¬ directory.Under target)

instance (link : Place) (target : Path) : Decidable (s.MayEnter link target) :=
  inferInstanceAs (Decidable (_ ∧ _ ∧ _ ∧ _))

/-- The directory for which the link at a place is entered, or the failure to
    ask about its target. -/
def entrance (link : Place) : Except Failure (Option Path) :=
  match s.target? link.path with
  | none => .ok none
  | some target =>
    if s.MayEnter link target then
      match s.walk.system.stat target with
      | .error why => .error (.reported (.targetNotRead target why))
      | .ok node => .ok (if node.isDirectory then some target else none)
    else .ok none

/-- Goes below a place if the directory there can be opened. -/
def opened (base : Place) : Onward :=
  match s.walk.system.list base.path with
  | .error _ => .stays
  | .ok names => .descends base (Name.inTurn s.walk.sorted names)

/-- What is said at a place, and where the walk goes on from there. -/
def sight (place : Place) : List Event × Onward :=
  match s.reported? place with
  | none => ([], .stays)
  | some (node, kind) =>
    let record := .record (s.recordAt place node kind)
    match kind with
    | .regularFile => ([record], .stays)
    | .directory => ([record], s.opened place)
    | .symbolicLink =>
      match s.entrance place with
      | .error f => ([record], .fails f)
      | .ok none => ([record], .stays)
      | .ok (some target) => ([record, .entered place.path target], s.opened (place.through target))

end Scan

namespace FileSystem

/-- The locations that are not among the destinations of links. -/
def unentered (fs : FileSystem) (destinations : List Path) : List Location :=
  fs.table.locations.filter fun l => Path.ofLocation l ∉ destinations

/-- How deep the node lies that a path leads to. -/
def depthOf (fs : FileSystem) (p : Path) : Nat :=
  match fs.locate true p with
  | .ok l => l.length
  | .error _ => 0

theorem depthOf_eq {fs : FileSystem} {p : Path} {l : Location} (followed : fs.locate true p = .ok l) :
    fs.depthOf p = l.length := by
  simp [depthOf, followed]

theorem length_unentered_lt {fs : FileSystem} {destinations : List Path} {l : Location} {node : Node}
    (found : fs.node? l = some node) (fresh : Path.ofLocation l ∉ destinations) :
    (fs.unentered (.ofLocation l :: destinations)).length < (fs.unentered destinations).length := by
  have inside : l ∈ fs.table.locations := List.mem_map.2 ⟨_, node?_eq_some_iff.1 found, rfl⟩
  have twice : fs.unentered (.ofLocation l :: destinations) =
      (fs.unentered destinations).filter fun m => Path.ofLocation m ≠ Path.ofLocation l := by
    rw [unentered, unentered, List.filter_filter]
    exact List.filter_congr fun m _ => by simp
  rw [twice]
  exact List.length_filter_lt_length_iff_exists.2 ⟨l, List.mem_filter.2 ⟨inside, by simpa using fresh⟩, by simp⟩

/-- A directory that is entered leaves less room, however deep it lies. -/
theorem room_lt_of_fresh {fs : FileSystem} {destinations : List Path} {l : Location} {node : Node}
    (found : fs.node? l = some node) (fresh : Path.ofLocation l ∉ destinations) (depth depth' : Nat) :
    (fs.unentered (.ofLocation l :: destinations)).length * (fs.table.length + 1) + (fs.table.length - depth') <
      (fs.unentered destinations).length * (fs.table.length + 1) + (fs.table.length - depth) := by
  have fewer := Nat.mul_le_mul_right (fs.table.length + 1) (Nat.succ_le_of_lt (length_unentered_lt found fresh))
  rw [Nat.succ_mul] at fewer
  omega

theorem room_le (fs : FileSystem) (destinations : List Path) (depth : Nat) :
    (fs.unentered destinations).length * (fs.table.length + 1) + (fs.table.length - depth) ≤
      fs.table.length * (fs.table.length + 1) + fs.table.length := by
  have fewer : (fs.unentered destinations).length ≤ fs.table.length := by
    refine Nat.le_trans (List.length_filter_le ..) ?_
    simp [Table.locations]
  exact Nat.add_le_add (Nat.mul_le_mul_right _ fewer) (Nat.sub_le _ _)

theorem resolveLink_target {fs : FileSystem} {p q : Path} (resolved : (fs.resolveLink p).target = some q) :
    fs.strictForm p = .ok q ∧ fs.canAccess q = true ∧ fs.resolveLink p = ⟨some q, true⟩ := by
  unfold resolveLink at resolved ⊢
  split at resolved
  · cases resolved
  · rename_i target form
    split at resolved
    · rename_i accessible
      cases resolved
      exact ⟨form, accessible, if_pos accessible⟩
    · cases resolved

end FileSystem

namespace Scan

/-- How far it can still go below an open directory: so many locations were not
    entered yet, and below each the location gets no longer than there are nodes. -/
def height (s : Scan) (base : Place) : Nat :=
  let fs := s.walk.system
  (fs.unentered base.destinations).length * (fs.table.length + 1) + (fs.table.length - fs.depthOf base.path)

variable {s : Scan}

/-! ## What the program says -/

theorem target?_eq (s : Scan) (p : Path) : s.target? p = (s.walk.system.resolveLink p).target := by
  unfold target? FileSystem.resolveLink
  cases s.walk.system.strictForm p with
  | error _ => rfl
  | ok target => by_cases exists' : s.walk.system.canAccess target = true <;> simp [exists', LinkResolution.absent]

theorem recordAt_eq (s : Scan) (place : Place) (node : Node) (kind : EntryKind) :
    s.recordAt place node kind =
      if kind = .symbolicLink then
        let r := s.walk.system.resolveLink place.path
        ⟨place.path, r.existenceCode, r.targetText, node.size, kind, node.times.stamps⟩
      else ⟨place.path, 1, (place.location.map Path.text).getD [], node.size, kind, node.times.stamps⟩ := by
  unfold recordAt target? FileSystem.resolveLink
  cases s.walk.system.strictForm place.path with
  | error _ => rfl
  | ok target =>
    by_cases exists' : s.walk.system.canAccess target = true <;>
      simp [exists', LinkResolution.absent, LinkResolution.existenceCode, LinkResolution.targetText]

theorem opened_eq (s : Scan) (base : Place) :
    s.opened base = match s.walk.system.list base.path with
      | .error _ => .stays
      | .ok names => .descends base (s.walk.ordered names) := by
  simp only [opened, Walk.ordered_eq]

theorem reported?_eq (s : Scan) (place : Place) :
    s.reported? place = match s.walk.system.lstat place.path with
      | .error _ => none
      | .ok node =>
        match node.kind? with
        | none => none
        | some kind => if s.walk.Omits place.path kind ∨ s.Revisited place then none else some (node, kind) := by
  simp only [reported?, Node.kind?_eq]

theorem reported?_eq_some {place : Place} {node : Node} {kind : EntryKind}
    (seen : s.reported? place = some (node, kind)) :
    s.walk.system.lstat place.path = .ok node ∧ node.kind? = some kind ∧ ¬ s.walk.Omits place.path kind ∧
      ¬ s.Revisited place := by
  rw [reported?_eq] at seen
  split at seen
  · cases seen
  · rename_i node' asked
    split at seen
    · cases seen
    · rename_i kind' known
      split at seen
      · cases seen
      · rename_i kept
        cases seen
        exact ⟨asked, known, not_or.1 kept⟩

theorem opened_eq_descends {base inner : Place} {names : List Name} (opened : s.opened base = .descends inner names) :
    inner = base ∧ ∃ listed, s.walk.system.list base.path = .ok listed ∧ names = s.walk.ordered listed := by
  rw [opened_eq] at opened
  split at opened
  · cases opened
  · rename_i listed reads
    cases opened
    exact ⟨rfl, listed, reads, rfl⟩

theorem entrance_eq_some {link : Place} {target : Path} (entered : s.entrance link = .ok (some target)) :
    (s.walk.system.resolveLink link.path).target = some target ∧ s.MayEnter link target ∧
      ∃ node, s.walk.system.stat target = .ok node ∧ node.isDirectory = true := by
  rw [entrance, target?_eq] at entered
  split at entered
  · cases entered
  · rename_i target' resolved
    split at entered
    · rename_i may
      split at entered
      · cases entered
      · rename_i node asked
        split at entered
        · rename_i directory
          cases entered
          exact ⟨resolved, may, node, asked, directory⟩
        · cases entered
    · cases entered

/-- The two ways to go below a place, with the names that are read there: it is
    a directory, or a link that is entered. -/
theorem sight_eq_descends {place inner : Place} {names : List Name}
    (descends : (s.sight place).2 = .descends inner names) :
    (∃ listed, s.walk.system.list place.path = .ok listed ∧ names = s.walk.ordered listed) ∧
      ((∃ node, s.reported? place = some (node, .directory) ∧ inner = place) ∨
        ∃ node target, s.reported? place = some (node, .symbolicLink) ∧ s.entrance place = .ok (some target) ∧
          inner = place.through target) := by
  unfold sight at descends
  split at descends
  · cases descends
  · rename_i node kind seen
    cases kind with
    | regularFile => cases descends
    | directory =>
      obtain ⟨same, reads⟩ := opened_eq_descends descends
      exact ⟨reads, .inl ⟨node, seen, same⟩⟩
    | symbolicLink =>
      simp only at descends
      split at descends
      · cases descends
      · cases descends
      · rename_i target entered
        obtain ⟨same, reads⟩ := opened_eq_descends descends
        exact ⟨reads, .inr ⟨node, target, seen, entered, same⟩⟩

theorem path_of_sight {place inner : Place} {names : List Name} (descends : (s.sight place).2 = .descends inner names) :
    inner.path = place.path := by
  rcases (sight_eq_descends descends).2 with ⟨_, _, rfl⟩ | ⟨_, _, _, _, rfl⟩ <;> rfl

/-- Below a directory the location gets longer. -/
theorem height_directory_lt {base : Place} {n : Name} {node : Node}
    (seen : s.reported? (base.child n) = some (node, .directory)) : s.height (base.child n) < s.height base := by
  obtain ⟨asked, known, _⟩ := reported?_eq_some seen
  obtain ⟨l, named, there⟩ := FileSystem.lstat_eq_ok_iff.1 asked
  obtain ⟨found, _⟩ := FileSystem.nodeFor_eq_ok_iff.1 there
  have plain := Node.linkTarget?_of_isDirectory ((Node.kind?_eq_directory node).1 known)
  have followed := FileSystem.locate_followed_of_plain (base.child n).absolute named found plain
  obtain ⟨d, above, _, _, rfl⟩ := (FileSystem.locate_child_iff base.absolute).1 named
  have short := FileSystem.length_lt_of_node? found
  have deeper : s.walk.system.depthOf (base.child n).path = s.walk.system.depthOf base.path + 1 := by
    rw [FileSystem.depthOf_eq followed, FileSystem.depthOf_eq above, List.length_append, List.length_singleton]
  rw [FileSystem.depthOf_eq followed] at deeper
  have same : (base.child n).destinations = base.destinations := rfl
  simp only [height, same, FileSystem.depthOf_eq followed]
  omega

/-- A link is entered only for a directory that no link above was entered for. -/
theorem height_link_lt {base : Place} {n : Name} {target : Path}
    (entered : s.entrance (base.child n) = .ok (some target)) :
    s.height ((base.child n).through target) < s.height base := by
  obtain ⟨resolved, ⟨_, _, apart, _⟩, _⟩ := entrance_eq_some entered
  obtain ⟨form, _⟩ := FileSystem.resolveLink_target resolved
  obtain ⟨t, rfl, ⟨_, node, found, _⟩, _⟩ := FileSystem.strictForm_firm (base.child n).absolute form
  have fresh : Path.ofLocation t ∉ base.destinations := fun again => apart _ again (Path.under_refl _)
  exact FileSystem.room_lt_of_fresh found fresh _ _

theorem height_lt_of_sight {base inner : Place} {n : Name} {names : List Name}
    (descends : (s.sight (base.child n)).2 = .descends inner names) : s.height inner < s.height base := by
  rcases (sight_eq_descends descends).2 with ⟨node, seen, rfl⟩ | ⟨node, target, _, entered, rfl⟩
  · exact height_directory_lt seen
  · exact height_link_lt entered

/-- What holds of a place if it holds of all children that the walk goes on with
    holds of every place. -/
theorem descent_induction (s : Scan) {motive : Place → Prop}
    (step : ∀ place, (∀ base names n, (s.sight place).2 = .descends base names → n ∈ names → motive (base.child n)) →
      motive place) (place : Place) : motive place := by
  -- The height is that of the open directory and not of its child, which need not be seen at all.
  have children (h : Nat) : ∀ base n, s.height base = h → motive (base.child n) := by
    induction h using Nat.strongRecOn with
    | ind h deeper =>
      intro base n higher
      refine step _ fun inner names m descends _ => ?_
      exact deeper _ (higher ▸ height_lt_of_sight descends) inner m rfl
  exact step place fun base _ n _ _ => children _ base n rfl

/-! ## The account -/

/-- What is said at the children of an open directory, each with all below it. -/
def accountBelow (s : Scan) (base : Place) : List Name → Account
  | [] => .silent
  | n :: rest =>
    let here := Account.telling (s.sight (base.child n)).1
    let below := match _descends : (s.sight (base.child n)).2 with
      | .stays => .silent
      | .fails f => .failing f
      | .descends inner names => s.accountBelow inner names
    (here.followedBy below).followedBy (s.accountBelow base rest)
termination_by names => (s.height base, names.length)
decreasing_by
  · exact Prod.Lex.left _ _ (height_lt_of_sight _descends)
  · exact Prod.Lex.right _ (by simp)

@[simp] theorem accountBelow_nil (s : Scan) (base : Place) : s.accountBelow base [] = .silent := by
  rw [accountBelow]

/-- What is said where a walk goes on. -/
def accountOnward (s : Scan) : Onward → Account
  | .stays => .silent
  | .fails f => .failing f
  | .descends base names => s.accountBelow base names

/-- What is said at a place and at all places below it: first what stands there,
    then child by child in the order in which they are visited. -/
def account (s : Scan) (place : Place) : Account :=
  (Account.telling (s.sight place).1).followedBy (s.accountOnward (s.sight place).2)

theorem accountBelow_cons (s : Scan) (base : Place) (n : Name) (rest : List Name) :
    s.accountBelow base (n :: rest) = (s.account (base.child n)).followedBy (s.accountBelow base rest) := by
  rw [accountBelow, account]
  congr 2
  generalize s.sight (base.child n) = seen
  cases seen.2 <;> rfl

theorem accountBelow_eq_foldr (s : Scan) (base : Place) (names : List Name) :
    s.accountBelow base names = names.foldr (fun n later => (s.account (base.child n)).followedBy later) .silent := by
  induction names with
  | nil => exact accountBelow_nil s base
  | cons n rest ih => rw [accountBelow_cons, ih, List.foldr_cons]

/-- The account of a place from the accounts of its children. -/
theorem account_eq (s : Scan) (place : Place) :
    s.account place = (Account.telling (s.sight place).1).followedBy (match (s.sight place).2 with
      | .stays => .silent
      | .fails f => .failing f
      | .descends base names =>
        names.foldr (fun n later => (s.account (base.child n)).followedBy later) .silent) := by
  rw [account]
  cases (s.sight place).2 with
  | stays | fails f => rfl
  | descends base names => rw [accountOnward, accountBelow_eq_foldr]

/-- What a scan cannot start with: a root that cannot be asked about, is of no
    kind that is reported, or is a directory that cannot be opened. -/
def rootFailure? (s : Scan) : Option Failure :=
  match s.walk.system.lstat s.walk.root with
  | .error why => some (.reported (.rootNotOpened s.walk.root (some why)))
  | .ok node =>
    match node.content.kind? with
    | none => some (.reported (.rootNotOpened s.walk.root none))
    | some .directory =>
      match s.walk.system.list s.walk.root with
      | .error why => some (.reported (.rootNotOpened s.walk.root (some why)))
      | .ok _ => none
    | some _ => none

/-- The account of a whole scan. -/
def inventory (s : Scan) (absolute : s.walk.root.isAbsolute = true) : Account :=
  match s.rootFailure? with
  | some f => .failing f
  | none => s.account (s.rootPlace absolute)

end Scan
end Inventory
