import Inventory.Proofs.Simulation

namespace Inventory

namespace FileSystem

/-- A location is that of a child in the directory that the path above leads to,
    and the path above reads as that directory. -/
def Sited (fs : FileSystem) (p location : Path) : Prop :=
  ∃ parent d n, p = parent.child n ∧ fs.locate true parent = .ok d ∧ fs.Settles parent d ∧
    location = .ofLocation (d ++ [n])

variable {fs : FileSystem} {p location : Path}

/-- The system names the node of a path at its location. -/
theorem Sited.eq_of_locate (sited : fs.Sited p location) (absolute : p.isAbsolute = true) {l : Location}
    (named : fs.locate false p = .ok l) : location = .ofLocation l := by
  obtain ⟨parent, d, n, rfl, followed, _, rfl⟩ := sited
  obtain ⟨d', followed', _, _, rfl⟩ := (locate_child_iff (p := parent) absolute).1 named
  rw [followed] at followed'
  cases followed'
  rfl

/-- A directory on a path with its location leads and reads there. -/
theorem Sited.settles (sited : fs.Sited p location) (absolute : p.isAbsolute = true) {node : Node}
    (asked : fs.lstat p = .ok node) (plain : node.linkTarget? = none) :
    ∃ d, fs.locate true p = .ok d ∧ fs.Settles p d ∧ location = .ofLocation d := by
  obtain ⟨parent, d, n, rfl, followed, settles, rfl⟩ := sited
  obtain ⟨l, named, there⟩ := lstat_eq_ok_iff.1 asked
  obtain ⟨d', followed', searched, _, rfl⟩ := (locate_child_iff (p := parent) absolute).1 named
  rw [followed] at followed'
  cases followed'
  refine ⟨d ++ [n], locate_followed_of_plain absolute named (nodeFor_eq_ok_iff.1 there).1 plain, ?_, rfl⟩
  exact settles.child absolute (firm_of_locate_followed (p := parent) absolute followed) there searched plain

/-- A link with a strict form leads and reads there if it leads anywhere. -/
theorem settles_of_strictForm (absolute : p.isAbsolute = true) {target : Path} {d : Location}
    (form : fs.strictForm p = .ok target) (followed : fs.locate true p = .ok d) :
    target = .ofLocation d ∧ fs.Settles p d := by
  obtain ⟨t, rfl, _, settles, only⟩ := strictForm_firm absolute form
  obtain rfl := only d followed
  exact ⟨rfl, settles⟩

end FileSystem

namespace Scan

variable {s : Scan} {absolute : s.walk.root.isAbsolute = true} {place : Place}

/-- A scan visits its root, and a child of each directory that it goes below,
    unless it failed at a child before. -/
inductive Visits (s : Scan) (absolute : s.walk.root.isAbsolute = true) : Place → Prop where
  | root (opens : s.rootFailure? = none) : Visits s absolute (s.rootPlace absolute)
  | child {place base : Place} {before after : List Name} {n : Name} (visited : Visits s absolute place)
      (descends : (s.sight place).2 = .descends base (before ++ n :: after))
      (goesOn : (s.accountBelow base before).failure = none) : Visits s absolute (base.child n)

theorem accountBelow_append (base : Place) (names more : List Name) :
    s.accountBelow base (names ++ more) = (s.accountBelow base names).followedBy (s.accountBelow base more) := by
  induction names with
  | nil => simp
  | cons n rest ih => rw [List.cons_append, accountBelow_cons, accountBelow_cons, ih, Account.followedBy_assoc]

/-- What is said at a visited place and below it is said in the scan. -/
theorem Visits.events_subset (visited : s.Visits absolute place) :
    (s.account place).events ⊆ (s.inventory absolute).events := by
  induction visited with
  | root opens =>
    rw [inventory, opens]
    exact List.Subset.refl _
  | @child place base before after n _ descends goesOn ih =>
    refine fun e inside => ih ?_
    rw [account, descends, accountOnward, accountBelow_append, accountBelow_cons]
    simp only [Account.mem_followedBy_iff]
    exact .inr ⟨rfl, .inr ⟨goesOn, .inl inside⟩⟩

theorem Visits.sight_subset (visited : s.Visits absolute place) :
    (s.sight place).1 ⊆ (s.inventory absolute).events := fun _ inside =>
  visited.events_subset (Account.mem_followedBy_iff.2 (.inl inside))

theorem exists_of_mem_accountBelow {base : Place} {names : List Name} {e : Event}
    (inside : e ∈ (s.accountBelow base names).events) :
    ∃ before n after, names = before ++ n :: after ∧ (s.accountBelow base before).failure = none ∧
      e ∈ (s.account (base.child n)).events := by
  induction names with
  | nil => simp [Account.silent] at inside
  | cons n rest ih =>
    rw [accountBelow_cons, Account.mem_followedBy_iff] at inside
    rcases inside with here | ⟨complete, later⟩
    · exact ⟨[], n, rest, rfl, by simp [Account.silent], here⟩
    · obtain ⟨before, m, after, rfl, goesOn, there⟩ := ih later
      refine ⟨n :: before, m, after, rfl, ?_, there⟩
      rw [accountBelow_cons]
      exact Account.failure_followedBy_iff.2 ⟨complete, goesOn⟩

/-- What is said at a visited place and below it is said at some visited place. -/
theorem Visits.exists_of_mem_account {e : Event} (visited : s.Visits absolute place)
    (inside : e ∈ (s.account place).events) : ∃ p, s.Visits absolute p ∧ e ∈ (s.sight p).1 := by
  induction place using descent_induction s with
  | step place ih =>
    rw [account, Account.mem_followedBy_iff] at inside
    rcases inside with said | ⟨_, below⟩
    · exact ⟨_, visited, said⟩
    · cases onward : (s.sight place).2 with
      | stays | fails f => simp [onward, accountOnward, Account.silent, Account.failing] at below
      | descends base names =>
        rw [onward] at below
        obtain ⟨before, n, after, rfl, goesOn, there⟩ := exists_of_mem_accountBelow below
        exact ih base _ n onward (by simp) (.child visited onward goesOn) there

/-- All that a scan makes known it makes known at a place that it visits. -/
theorem exists_visit {e : Event} (inside : e ∈ (s.inventory absolute).events) :
    ∃ p, s.Visits absolute p ∧ e ∈ (s.sight p).1 := by
  unfold inventory at inside
  split at inside
  · simp [Account.failing] at inside
  · rename_i opens
    exact (Visits.root opens).exists_of_mem_account inside

theorem path_recordAt {node : Node} {kind : EntryKind} : (s.recordAt place node kind).path = place.path := by
  rw [recordAt_eq]
  split <;> rfl

theorem kind_recordAt {node : Node} {kind : EntryKind} : (s.recordAt place node kind).kind = kind := by
  rw [recordAt_eq]
  split <;> simp_all

theorem mem_sight_record {r : Record} (said : .record r ∈ (s.sight place).1) :
    ∃ node kind, s.reported? place = some (node, kind) ∧ r = s.recordAt place node kind := by
  cases seen : s.reported? place with
  | none => simp [sight, seen] at said
  | some found =>
    obtain ⟨node, kind⟩ := found
    refine ⟨node, kind, rfl, ?_⟩
    cases kind with
    | regularFile | directory => simpa [sight, seen] using said
    | symbolicLink =>
      cases gate : s.entrance place with
      | error f => simpa [sight, seen, gate] using said
      | ok entered => cases entered <;> simpa [sight, seen, gate] using said

theorem mem_sight_entered {link target : Path} (said : .entered link target ∈ (s.sight place).1) :
    link = place.path ∧ s.entrance place = .ok (some target) ∧
      ∃ node, s.reported? place = some (node, .symbolicLink) := by
  cases seen : s.reported? place with
  | none => simp [sight, seen] at said
  | some found =>
    obtain ⟨node, kind⟩ := found
    cases kind with
    | regularFile | directory => simp [sight, seen] at said
    | symbolicLink =>
      cases gate : s.entrance place with
      | error f => simp [sight, seen, gate] at said
      | ok entered =>
        cases entered with
        | none => simp [sight, seen, gate] at said
        | some inside =>
          obtain ⟨same, here⟩ : link = place.path ∧ target = inside := by simpa [sight, seen, gate] using said
          exact ⟨same, by rw [here], node, rfl⟩

/-- Each record of a scan is the record of a visited place. -/
theorem exists_visit_of_record {r : Record} (inside : r ∈ (s.inventory absolute).records) :
    ∃ p node kind, s.Visits absolute p ∧ s.reported? p = some (node, kind) ∧ r = s.recordAt p node kind := by
  obtain ⟨e, among, same⟩ := List.mem_filterMap.1 inside
  cases e with
  | entered link target => cases same
  | record r' =>
    cases same
    obtain ⟨p, visited, said⟩ := exists_visit among
    obtain ⟨node, kind, seen, record⟩ := mem_sight_record said
    exact ⟨p, node, kind, visited, seen, record⟩

namespace Visits

theorem under_root (visited : s.Visits absolute place) : place.path.Under s.walk.root := by
  induction visited with
  | root _ => exact Path.under_refl _
  | @child place base before after n _ descends _ ih =>
    have path : base.path = place.path := path_of_sight descends
    exact (Path.child_under base.path n).trans (path ▸ ih)

/-- Outside of entered links, all that is above a place is a directory. -/
theorem directory_above (visited : s.Visits absolute place) (outside : place.location = none) {q : Path}
    (above : place.path.Under q) (proper : q ≠ place.path) (inside : q.Under s.walk.root) :
    ∃ node, s.walk.system.lstat q = .ok node ∧ node.isDirectory = true := by
  induction visited with
  | root _ => exact absurd (Path.under_antisymm inside above) proper
  | @child place base before after n _ descends _ ih =>
    rcases (sight_eq_descends descends).2 with ⟨node, seen, rfl⟩ | ⟨node, target, _, _, rfl⟩
    · have upper : base.location = none := by simpa [Place.child] using outside
      have further : base.path.Under q := (Path.under_child_cases above).resolve_left proper
      by_cases here : q = base.path
      · obtain ⟨asked, known, _⟩ := reported?_eq_some seen
        exact ⟨node, here ▸ asked, (Node.kind?_eq_directory node).1 known⟩
      · exact ih upper further here
    · cases outside

/-- Inside of an entered link, it was made known that the link is entered. -/
theorem entered_above (visited : s.Visits absolute place) {p : Path} (inside : place.location = some p) :
    ∃ link target, .entered link target ∈ (s.inventory absolute).events ∧ place.path.Under link ∧
      link ≠ place.path := by
  induction visited generalizing p with
  | root _ => cases inside
  | @child place base before after n visited descends _ ih =>
    have proper {link : Path} (above : base.path.Under link) : link ≠ (base.child n).path := by
      rintro rfl
      exact Path.not_under_child base.path n above
    rcases (sight_eq_descends descends).2 with ⟨node, seen, rfl⟩ | ⟨node, target, seen, entered, rfl⟩
    · obtain ⟨q, upper, _⟩ := Option.map_eq_some_iff.1 inside
      obtain ⟨link, target, said, above, _⟩ := ih upper
      exact ⟨link, target, said, (Path.child_under _ n).trans above, proper above⟩
    · have said : .entered place.path target ∈ (s.sight place).1 := by simp [sight, seen, entered]
      exact ⟨place.path, target, visited.sight_subset said, Path.child_under _ n, proper (Path.under_refl _)⟩

/-- The location of a place is where the system finds the node. -/
theorem sited (visited : s.Visits absolute place) {p : Path} (inside : place.location = some p) :
    s.walk.system.Sited place.path p := by
  induction visited generalizing p with
  | root _ => cases inside
  | @child place base before after n visited descends _ ih =>
    obtain ⟨⟨listed, reads, _⟩, ways⟩ := sight_eq_descends descends
    obtain ⟨upper, located, rfl⟩ := Option.map_eq_some_iff.1 inside
    suffices ∃ d, s.walk.system.locate true base.path = .ok d ∧ s.walk.system.Settles base.path d ∧
        upper = .ofLocation d by
      obtain ⟨d, followed, settles, rfl⟩ := this
      exact ⟨base.path, d, n, rfl, followed, settles, (Path.ofLocation_append d n).symm⟩
    rcases ways with ⟨node, seen, rfl⟩ | ⟨node, target, seen, entered, rfl⟩
    · obtain ⟨asked, known, _⟩ := reported?_eq_some seen
      have plain := Node.linkTarget?_of_isDirectory ((Node.kind?_eq_directory node).1 known)
      exact (ih located).settles base.absolute asked plain
    · obtain ⟨d, _, followed, _⟩ := FileSystem.list_eq_ok_iff.1 reads
      obtain ⟨form, _⟩ := FileSystem.resolveLink_target (entrance_eq_some entered).1
      obtain ⟨same, settles⟩ := FileSystem.settles_of_strictForm place.absolute form followed
      exact ⟨d, followed, settles, Option.some.inj (located.symm.trans (congrArg some same))⟩

/-- What is visited inside of an entered link lies inside the local root. -/
theorem under_localRoot (visited : s.Visits absolute place) {p : Path} (inside : place.location = some p) :
    p.Under (s.walk.system.canonical s.localRoot) := by
  induction visited generalizing p with
  | root _ => cases inside
  | @child place base before after n visited descends _ ih =>
    obtain ⟨upper, located, rfl⟩ := Option.map_eq_some_iff.1 inside
    refine (Path.child_under upper n).trans ?_
    rcases (sight_eq_descends descends).2 with ⟨node, seen, rfl⟩ | ⟨node, target, seen, entered, rfl⟩
    · exact ih located
    · obtain ⟨_, ⟨under, _⟩, _⟩ := entrance_eq_some entered
      cases located
      exact under

end Visits
end Scan
end Inventory
