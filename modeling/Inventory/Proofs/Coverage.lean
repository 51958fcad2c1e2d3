import Inventory.Proofs.Visits

namespace Inventory

namespace Path

/-- The path along names below another. -/
def descend (p : Path) (names : List Name) : Path := ⟨p.root, p.parts ++ names.map .name⟩

@[simp] theorem descend_nil (p : Path) : p.descend [] = p := by simp [descend]

theorem descend_append (p : Path) (names : List Name) (n : Name) :
    p.descend (names ++ [n]) = (p.descend names).child n := by
  simp [descend, child]

theorem ofLocation_eq_descend (l m : Location) : ofLocation (l ++ m) = (ofLocation l).descend m := by
  simp [ofLocation, descend]

theorem join_relative_descend {p q rest : Path} {names : List Name}
    (relative : (q.descend names).relativeTo? q = some rest) : p.join rest = p.descend names := by
  unfold relativeTo? at relative
  split at relative
  · cases relative
    simp [descend, join]
  · cases relative

end Path

namespace Scan

variable {s : Scan} {absolute : s.walk.root.isAbsolute = true} {place : Place}

theorem failure_accountBelow {base : Place} {names : List Name}
    (children : ∀ n ∈ names, (s.account (base.child n)).failure = none) :
    (s.accountBelow base names).failure = none := by
  induction names with
  | nil => simp [Account.silent]
  | cons n rest ih =>
    rw [accountBelow_cons]
    exact Account.failure_followedBy_iff.2
      ⟨children n List.mem_cons_self, ih fun m later => children m (List.mem_cons_of_mem _ later)⟩

/-- The target of a link can be asked about, since the link was found to lead there. -/
theorem entrance_ne_error (spares : s.walk.system.Spares .stat) (f : Failure) :
    s.entrance place ≠ .error f := by
  rw [entrance, target?_eq]
  split
  · simp
  · rename_i target resolved
    obtain ⟨form, _⟩ := FileSystem.resolveLink_target resolved
    obtain ⟨t, rfl, firm, _⟩ := FileSystem.strictForm_firm place.absolute form
    obtain ⟨_, node, found, _⟩ := id firm
    have asked : s.walk.system.stat (.ofLocation t) = .ok node := FileSystem.stat_eq_ok_iff.2
      ⟨t, FileSystem.locate_followed_ofLocation firm, FileSystem.nodeFor_eq_ok_iff.2 ⟨found, spares t node found⟩⟩
    rw [asked]
    split <;> simp

theorem sight_ne_fails (spares : s.walk.system.Spares .stat) (f : Failure) :
    (s.sight place).2 ≠ .fails f := by
  unfold sight
  split
  · simp
  · rename_i node kind seen
    cases kind with
    | regularFile => simp
    | directory => exact opened_ne_fails place f
    | symbolicLink =>
      simp only
      split
      · rename_i failure gate
        exact absurd gate (entrance_ne_error spares failure)
      · simp
      · exact opened_ne_fails _ f

theorem failure_account (spares : s.walk.system.Spares .stat) (place : Place) :
    (s.account place).failure = none := by
  induction place using descent_induction s with
  | step place ih =>
    refine Account.failure_followedBy_iff.2 ⟨rfl, ?_⟩
    cases onward : (s.sight place).2 with
    | stays => rfl
    | fails f => exact absurd onward (sight_ne_fails spares f)
    | descends base names => exact failure_accountBelow fun n among => ih base names n onward among

theorem records_followedBy (a b : Account) :
    (a.followedBy b).records = a.records ∨ (a.followedBy b).records = a.records ++ b.records := by
  obtain ⟨events, _ | f⟩ := a
  · exact .inr (List.filterMap_append ..)
  · exact .inl rfl

theorem mem_records_followedBy {a b : Account} {r : Record} (inside : r ∈ (a.followedBy b).records) :
    r ∈ a.records ∨ r ∈ b.records := by
  rcases records_followedBy a b with same | same <;> rw [same] at inside
  · exact .inl inside
  · exact List.mem_append.1 inside

theorem nodup_followedBy {a b : Account} (front : (a.records.map Record.path).Nodup)
    (back : (b.records.map Record.path).Nodup) (apart : ∀ r ∈ a.records, ∀ r' ∈ b.records, r.path ≠ r'.path) :
    ((a.followedBy b).records.map Record.path).Nodup := by
  rcases records_followedBy a b with same | same <;> rw [same]
  · exact front
  · rw [List.map_append, List.nodup_append]
    refine ⟨front, back, ?_⟩
    simpa using apart

theorem records_sight (place : Place) :
    (∀ r ∈ (Account.telling (s.sight place).1).records, r.path = place.path) ∧
      ((Account.telling (s.sight place).1).records.map Record.path).Nodup := by
  cases seen : s.reported? place with
  | none => simp [Account.records, Account.telling, sight_of_unreported seen]
  | some found =>
    obtain ⟨node, kind⟩ := found
    cases kind with
    | regularFile | directory => simp [Account.records, Account.telling, sight, seen, Event.record?, path_recordAt]
    | symbolicLink =>
      cases gate : s.entrance place with
      | error f => simp [Account.records, Account.telling, sight, seen, gate, Event.record?, path_recordAt]
      | ok entered =>
        cases entered <;>
          simp [Account.records, Account.telling, sight, seen, gate, List.filterMap_cons, Event.record?, path_recordAt]

/-- What is reported at a place and below it has a path under that of the place,
    and no path is reported twice. -/
def Tidy (s : Scan) (place : Place) : Prop :=
  (∀ r ∈ (s.account place).records, r.path.Under place.path) ∧ ((s.account place).records.map Record.path).Nodup

theorem tidy_below {base : Place} {names : List Name} (distinct : names.Nodup)
    (children : ∀ n ∈ names, s.Tidy (base.child n)) :
    (∀ r ∈ (s.accountBelow base names).records, ∃ n ∈ names, r.path.Under (base.path.child n)) ∧
      ((s.accountBelow base names).records.map Record.path).Nodup := by
  induction names with
  | nil => simp [Account.silent, Account.records]
  | cons n rest ih =>
    obtain ⟨fresh, distinct⟩ := List.nodup_cons.1 distinct
    obtain ⟨under, once⟩ := children n List.mem_cons_self
    obtain ⟨later, apart⟩ := ih distinct fun m among => children m (List.mem_cons_of_mem _ among)
    rw [accountBelow_cons]
    refine ⟨fun r inside => ?_, nodup_followedBy once apart fun r here r' there same => ?_⟩
    · rcases mem_records_followedBy inside with here | there
      · exact ⟨n, List.mem_cons_self, under r here⟩
      · obtain ⟨m, among, below⟩ := later r there
        exact ⟨m, List.mem_cons_of_mem _ among, below⟩
    · obtain ⟨m, among, below⟩ := later r' there
      have : n = m := Path.eq_of_child_under (under r here) (same ▸ below)
      exact fresh (this ▸ among)

theorem tidy (s : Scan) (place : Place) : s.Tidy place := by
  induction place using descent_induction s with
  | step place ih =>
    have below : (∀ r ∈ (s.accountOnward (s.sight place).2).records, ∃ n, r.path.Under (place.path.child n)) ∧
        ((s.accountOnward (s.sight place).2).records.map Record.path).Nodup := by
      cases onward : (s.sight place).2 with
      | stays | fails f => simp [accountOnward, Account.silent, Account.failing, Account.records]
      | descends base names =>
        obtain ⟨under, once⟩ := tidy_below (names_of_sight onward).1 fun n among => ih base names n onward among
        refine ⟨fun r inside => ?_, once⟩
        obtain ⟨n, _, below⟩ := under r inside
        exact ⟨n, path_of_sight onward ▸ below⟩
    obtain ⟨under, once⟩ := below
    obtain ⟨here, single⟩ := records_sight (s := s) place
    refine ⟨fun r inside => ?_, nodup_followedBy single once fun r among r' later same => ?_⟩
    · rcases mem_records_followedBy inside with among | later
      · exact here r among ▸ Path.under_refl _
      · obtain ⟨n, below⟩ := under r later
        exact below.trans (Path.child_under _ n)
    · obtain ⟨n, below⟩ := under r' later
      rw [← same, here r among] at below
      exact Path.not_under_child _ n below

/-- A scan without faults, from a directory, that cuts nothing. -/
structure Plain (s : Scan) (r : Location) : Prop where
  faultless : s.walk.system.Faultless
  searchRoot : s.walk.system.canonical s.walk.root = .ofLocation r
  named : s.walk.system.locate false s.walk.root = .ok r
  directory : ∃ node, s.walk.system.node? r = some node ∧ node.isDirectory = true
  whole : ∀ p directory, s.walk.excludes p directory = false

variable {r : Location}

namespace Plain

theorem asks (plain : s.Plain r) {p : Path} {l : Location} {node : Node}
    (named : s.walk.system.locate false p = .ok l) (found : s.walk.system.node? l = some node) :
    s.walk.system.lstat p = .ok node := by
  rw [FileSystem.lstat_of_locate named]
  exact FileSystem.nodeFor_eq_ok_iff.2 ⟨found, plain.faultless.fault? found _⟩

theorem reported? (plain : s.Plain r) (outside : place.location = none) {l : Location} {node : Node}
    {kind : EntryKind} (named : s.walk.system.locate false place.path = .ok l)
    (found : s.walk.system.node? l = some node) (known : node.kind? = some kind) :
    s.reported? place = some (node, kind) := by
  have kept : ¬ s.walk.Omits place.path kind := by simp [Walk.Omits, plain.whole]
  rw [reported?_of_admits ⟨plain.asks named found, known, kept⟩, if_neg (by simp [Revisited, outside])]

theorem list (plain : s.Plain r) {p : Path} (rooted : p.isAbsolute = true) {l : Location} {node : Node}
    (named : s.walk.system.locate false p = .ok l) (found : s.walk.system.node? l = some node)
    (directory : node.isDirectory = true) : s.walk.system.list p = .ok (s.walk.system.names l) := by
  have followed := FileSystem.locate_followed_of_plain rooted named found (Node.linkTarget?_of_isDirectory directory)
  have opened := FileSystem.nodeFor_eq_ok_iff.2 ⟨found, plain.faultless.fault? found .openNode⟩
  exact FileSystem.list_eq_ok_iff.2 ⟨l, node, followed, opened, directory, rfl⟩

theorem rootFailure? (plain : s.Plain r) (absolute : s.walk.root.isAbsolute = true) : s.rootFailure? = none := by
  obtain ⟨node, found, directory⟩ := plain.directory
  have known := (Node.kind?_eq_directory node).2 directory
  simp only [Scan.rootFailure?, plain.asks plain.named found, ← Node.kind?_eq, known,
    plain.list absolute plain.named found directory]

/-- Each node of the search root is visited along the directories above it. -/
theorem exists_visit (plain : s.Plain r) (absolute : s.walk.root.isAbsolute = true) {names : List Name}
    {node : Node} {kind : EntryKind} (found : s.walk.system.node? (r ++ names) = some node)
    (known : node.kind? = some kind) :
    ∃ place, s.Visits absolute place ∧ place.location = none ∧ place.path = s.walk.root.descend names ∧
      s.walk.system.locate false place.path = .ok (r ++ names) ∧ s.reported? place = some (node, kind) := by
  induction names using List.reverseRecOn generalizing node kind with
  | nil =>
    rw [List.append_nil] at found ⊢
    have seen : s.reported? (s.rootPlace absolute) = some (node, kind) := plain.reported? rfl plain.named found known
    have path : (s.rootPlace absolute).path = s.walk.root.descend [] := by rw [Path.descend_nil]; rfl
    exact ⟨s.rootPlace absolute, .root (plain.rootFailure? absolute), rfl, path, plain.named, seen⟩
  | append_singleton names n ih =>
    rw [← List.append_assoc] at found ⊢
    obtain ⟨d, above, directory⟩ := FileSystem.directory_of_append found (by simp)
    obtain ⟨place, visited, outside, path, named, seen⟩ := ih above ((Node.kind?_eq_directory d).2 directory)
    have reads := plain.list place.absolute named above directory
    have among : n ∈ s.walk.ordered (s.walk.system.names (r ++ names)) :=
      (ordered_perm s.walk _).mem_iff.2 (FileSystem.mem_names_iff.2 ⟨node, found⟩)
    obtain ⟨before, after, split⟩ := List.append_of_mem among
    have descends : (s.sight place).2 = .descends place (before ++ n :: after) := by
      rw [← split]
      simp [sight, seen, opened_eq, reads]
    have goesOn : (s.accountBelow place before).failure = none :=
      failure_accountBelow fun m _ => failure_account (plain.faultless.spares .stat) _
    have followed := FileSystem.locate_followed_of_plain place.absolute named above
      (Node.linkTarget?_of_isDirectory directory)
    have searched := FileSystem.searchable_eq_ok_iff.2 ⟨d, above, directory, plain.faultless.fault? above .search⟩
    have there : s.walk.system.locate false (place.child n).path = .ok (r ++ names ++ [n]) :=
      (FileSystem.locate_child_iff place.absolute).2 ⟨_, followed, searched, ⟨node, found⟩, rfl⟩
    have free : (place.child n).location = none := by simp [Place.child, outside]
    refine ⟨place.child n, .child visited descends goesOn, free, ?_, there, plain.reported? free there found known⟩
    rw [Path.descend_append, ← path]
    rfl

/-- What is visited outside of entered links is where its names lead from the search root. -/
theorem path_of_visit (plain : s.Plain r) (visited : s.Visits absolute place) (outside : place.location = none)
    {l : Location} (named : s.walk.system.locate false place.path = .ok l) :
    ∃ names, l = r ++ names ∧ place.path = s.walk.root.descend names := by
  induction visited generalizing l with
  | root _ =>
    have same : s.walk.system.locate false s.walk.root = .ok l := named
    rw [plain.named] at same
    cases same
    exact ⟨[], by simp, by rw [Path.descend_nil]; rfl⟩
  | @child place base before after n visited descends _ ih =>
    rcases (sight_eq_descends descends).2 with ⟨node, seen, rfl⟩ | ⟨node, target, _, _, rfl⟩
    · obtain ⟨d, followed, _, _, rfl⟩ := (FileSystem.locate_child_iff base.absolute).1 named
      obtain ⟨asked, known, _⟩ := reported?_eq_some seen
      obtain ⟨l, named', there⟩ := FileSystem.lstat_eq_ok_iff.1 asked
      have found := (FileSystem.nodeFor_eq_ok_iff.1 there).1
      have isPlain := Node.linkTarget?_of_isDirectory ((Node.kind?_eq_directory node).1 known)
      rw [FileSystem.locate_followed_of_plain base.absolute named' found isPlain] at followed
      cases followed
      obtain ⟨names, rfl, path⟩ := ih (by simpa [Place.child] using outside) named'
      refine ⟨names ++ [n], by rw [List.append_assoc], ?_⟩
      rw [Path.descend_append, ← path]
      rfl
    · cases outside

end Plain

theorem plain_ofOptions {fs : FileSystem} {root : Path} {options : ScanOptions} (absolute : root.isAbsolute = true)
    (faultless : fs.Faultless) (whole : options.excludes = fun _ _ => false) {node : Node}
    (asked : fs.lstat root = .ok node) (directory : node.isDirectory = true) :
    ∃ r, fs.canonical root = .ofLocation r ∧ (ofOptions fs root options).Plain r := by
  obtain ⟨r, named, there⟩ := FileSystem.lstat_eq_ok_iff.1 asked
  have found := (FileSystem.nodeFor_eq_ok_iff.1 there).1
  have followed := FileSystem.locate_followed_of_plain absolute named found (Node.linkTarget?_of_isDirectory directory)
  have canonical := FileSystem.canonical_of_locate faultless absolute followed
  exact ⟨r, canonical, faultless, canonical, named, ⟨node, found, directory⟩, by simp [ofOptions, whole]⟩

theorem filter_eq_singleton {α β : Type} {f : α → β} {p : α → Bool} {x : α} {xs : List α} (distinct : (xs.map f).Nodup)
    (among : x ∈ xs) (holds : p x = true) (only : ∀ y ∈ xs, p y = true → f y = f x) : xs.filter p = [x] := by
  induction xs with
  | nil => cases among
  | cons y rest ih =>
    obtain ⟨fresh, distinct⟩ := List.nodup_cons.1 distinct
    by_cases here : p y = true
    · have same : f y = f x := only y List.mem_cons_self here
      have first : x = y := by
        rcases List.mem_cons.1 among with same | later
        · exact same
        · exact absurd (same ▸ List.mem_map_of_mem later) fresh
      have none : rest.filter p = [] := by
        refine List.filter_eq_nil_iff.2 fun z later holds => fresh ?_
        rw [same, ← only z (List.mem_cons_of_mem _ later) holds]
        exact List.mem_map_of_mem later
      rw [List.filter_cons_of_pos here, none, first]
    · have later : x ∈ rest := (List.mem_cons.1 among).resolve_left fun same => here (same ▸ holds)
      rw [List.filter_cons_of_neg here]
      exact ih distinct later fun z inside => only z (List.mem_cons_of_mem _ inside)

/-- Each record that names a node of the search root has the path of that node. -/
theorem Plain.path_of_record (plain : s.Plain r) {names : List Name} {x : Record}
    (inside : x ∈ (s.inventory absolute).records) (named : s.walk.system.locate false x.path = .ok (r ++ names)) :
    x.path = s.walk.root.descend names := by
  obtain ⟨place, node, kind, visited, seen, rfl⟩ := exists_visit_of_record inside
  rw [path_recordAt] at named ⊢
  cases located : place.location with
  | none =>
    obtain ⟨names', same, path⟩ := plain.path_of_visit visited located named
    rw [path, List.append_cancel_left same]
  | some p =>
    -- Inside of an entered link the node would have been passed over.
    obtain rfl := (visited.sited located).eq_of_locate place.absolute named
    obtain ⟨_, _, _, elsewhere⟩ := reported?_eq_some seen
    refine absurd ?_ elsewhere
    simp [Revisited, located, plain.searchRoot, Path.ofLocation_under_iff]

/-- Exactly one record names a given node of the search root. -/
theorem Plain.exists_record (plain : s.Plain r) (absolute : s.walk.root.isAbsolute = true) {names : List Name}
    {node : Node} {kind : EntryKind} (found : s.walk.system.node? (r ++ names) = some node)
    (known : node.kind? = some kind) :
    ∃ x, (s.trace.records.filter fun x => s.walk.system.locate false x.path = .ok (r ++ names)) = [x] ∧
      x.path = s.walk.root.descend names ∧ x.kind = kind ∧ (kind ≠ .symbolicLink → x.target = []) := by
  obtain ⟨place, visited, outside, path, named, seen⟩ := plain.exists_visit absolute found known
  have said : .record (s.recordAt place node kind) ∈ (s.sight place).1 :=
    List.mem_of_mem_take (sight_head seen ▸ List.mem_singleton_self _)
  have among : s.recordAt place node kind ∈ (s.inventory absolute).records :=
    List.mem_filterMap.2 ⟨_, visited.sight_subset said, rfl⟩
  have once : ((s.inventory absolute).records.map Record.path).Nodup := by
    rw [inventory, plain.rootFailure? absolute]
    exact (tidy s _).2
  refine ⟨s.recordAt place node kind, ?_, path_recordAt.trans path, kind_recordAt, fun isPlain => ?_⟩
  · rw [(tells_inventory absolute).records]
    refine filter_eq_singleton once among (by rw [path_recordAt]; exact decide_eq_true named) fun x inside holds => ?_
    rw [path_recordAt, path]
    exact plain.path_of_record inside (of_decide_eq_true holds)
  · simp [recordAt_eq, isPlain, outside]

/-- In a file system without faults, a scan from a directory that cuts nothing
    has exactly one record whose path names a given node of the search root. Its
    path is that of the node below the search root, and it has no target if the
    node is no link. -/
theorem covered_once (fs : FileSystem) (root : Path) (options : ScanOptions) (absolute : root.isAbsolute = true)
    (faultless : fs.Faultless) (whole : options.excludes = fun _ _ => false) {top : Node}
    (asked : fs.lstat root = .ok top) (directory : top.isDirectory = true) {l : Location} {node : Node}
    {kind : EntryKind} (found : fs.node? l = some node) (known : node.kind? = some kind)
    (below : (Path.ofLocation l).Under (fs.canonical root)) :
    ∃ r rest, ((ofOptions fs root options).trace.records.filter fun r => fs.locate false r.path = .ok l) = [r] ∧
      (Path.ofLocation l).relativeTo? (fs.canonical root) = some rest ∧ r.path = root.join rest ∧
      r.kind = kind ∧ (r.kind ≠ .symbolicLink → r.target = []) := by
  obtain ⟨r, canonical, plain⟩ := plain_ofOptions absolute faultless whole asked directory
  obtain ⟨rest, relative⟩ := Option.isSome_iff_exists.1 ((Path.relativeTo?_isSome _ _).2 below)
  rw [canonical] at below relative ⊢
  obtain ⟨names, rfl⟩ := Path.ofLocation_under_iff.1 below
  obtain ⟨x, one, path, same, target⟩ := plain.exists_record absolute found known
  rw [Path.ofLocation_eq_descend] at relative
  refine ⟨x, rest, one, Path.ofLocation_eq_descend r names ▸ relative, ?_, same, same ▸ target⟩
  rw [Path.join_relative_descend relative]
  exact path

theorem covered_once_ofLinkedTree :
    ∃ l : Location, (Path.ofLocation l).text = "/s/f".toList ∧
      ∃ r rest, (ofLinkedTree.trace.records.filter fun r => FileSystem.linkedTree.locate false r.path = .ok l) = [r] ∧
        (Path.ofLocation l).relativeTo? (FileSystem.linkedTree.canonical (.ofText "/s".toList)) = some rest ∧
        r.path = (Path.ofText "/s".toList).join rest ∧ r.kind = .regularFile ∧
        (r.kind ≠ .symbolicLink → r.target = []) := by
  have faultless : FileSystem.linkedTree.Faultless := fun l node found =>
    (by decide +kernel : ∀ e ∈ FileSystem.linkedTree.table, e.2.faults = []) _ (FileSystem.node?_eq_some_iff.1 found)
  have asked : FileSystem.linkedTree.lstat (.ofText "/s".toList) = .ok .plainDirectory := by decide +kernel
  have found : FileSystem.linkedTree.node? [⟨"s".toList, by decide⟩, ⟨"f".toList, by decide⟩] = some .emptyFile := by
    decide +kernel
  refine ⟨[⟨"s".toList, by decide⟩, ⟨"f".toList, by decide⟩], by decide, ?_⟩
  exact covered_once .linkedTree _ _ (by decide) faultless rfl asked rfl found (by decide) (by decide +kernel)

end Scan
end Inventory
