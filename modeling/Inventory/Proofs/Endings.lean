import Inventory.Proofs.Coverage
import Inventory.Proofs.Sparing

namespace Inventory

namespace Account

variable {a b : Account} {f : Failure}

theorem followedBy_of_failure (fails : a.failure = some f) : a.followedBy b = a := by
  simp [followedBy, fails]

theorem followedBy_of_goesOn (goesOn : a.failure = none) :
    a.followedBy b = ⟨a.events ++ b.events, b.failure⟩ := by
  simp [followedBy, goesOn]

/-- The first account is the second, or it fails early and says the first part of it. -/
def CutsShort (a b : Account) : Prop := a = b ∨ a.failure ≠ none ∧ a.events <+: b.events

theorem CutsShort.events (short : a.CutsShort b) : a.events <+: b.events := by
  rcases short with rfl | ⟨_, first⟩
  · exact List.prefix_refl _
  · exact first

theorem events_prefix_followedBy (a b : Account) : a.events <+: (a.followedBy b).events := by
  cases goesOn : a.failure with
  | none =>
    rw [followedBy_of_goesOn goesOn]
    exact List.prefix_append ..
  | some f => simp only [followedBy_of_failure goesOn, List.prefix_refl]

theorem CutsShort.followedBy {a' b' : Account} (front : a.CutsShort a') (back : b.CutsShort b') :
    (a.followedBy b).CutsShort (a'.followedBy b') := by
  rcases front with rfl | ⟨fails, first⟩
  · cases goesOn : a.failure with
    | some f =>
      rw [followedBy_of_failure goesOn, followedBy_of_failure goesOn]
      exact .inl rfl
    | none =>
      rcases back with rfl | ⟨fails, first⟩
      · exact .inl rfl
      · rw [followedBy_of_goesOn goesOn, followedBy_of_goesOn goesOn]
        exact .inr ⟨fails, (List.prefix_append_right_inj _).2 first⟩
  · obtain ⟨f, failed⟩ := Option.ne_none_iff_exists'.1 fails
    rw [followedBy_of_failure failed]
    exact .inr ⟨fails, first.trans (events_prefix_followedBy a' b')⟩

end Account

/-- Why a scan cannot start at its root; without an error of the system the root is of
    a kind that is not reported. -/
inductive FileSystem.Unopenable (fs : FileSystem) (root : Path) : Option Errno → Prop where
  | unasked {why : Errno} (asked : fs.lstat root = .error why) : Unopenable fs root (some why)
  | unsupported {node : Node} (asked : fs.lstat root = .ok node) (unknown : node.content.kind? = none) :
      Unopenable fs root none
  | unlisted {node : Node} {why : Errno} (asked : fs.lstat root = .ok node) (directory : node.isDirectory = true)
      (fails : fs.list root = .error why) : Unopenable fs root (some why)

namespace Scan

variable {s : Scan} {absolute : s.walk.root.isAbsolute = true} {place : Place}

theorem rootFailure?_eq_some_iff {f : Failure} : s.rootFailure? = some f ↔
    ∃ why, s.walk.system.Unopenable s.walk.root why ∧ f = .reported (.rootNotOpened s.walk.root why) := by
  unfold rootFailure?
  constructor
  · intro fails
    split at fails
    · rename_i why asked
      cases fails
      exact ⟨_, .unasked asked, rfl⟩
    · rename_i node asked
      split at fails
      · rename_i unknown
        cases fails
        exact ⟨_, .unsupported asked unknown, rfl⟩
      · rename_i known
        split at fails
        · rename_i why unlisted
          cases fails
          exact ⟨_, .unlisted asked ((Node.kind?_eq_directory node).1 (node.kind?_eq.trans known)) unlisted, rfl⟩
        · cases fails
      · cases fails
  · rintro ⟨_, asked | ⟨asked, unknown⟩ | ⟨asked, directory, unlisted⟩, rfl⟩
    · simp only [asked]
    · simp only [asked, unknown]
    · simp only [asked, ← Node.kind?_eq, (Node.kind?_eq_directory _).2 directory, unlisted]

theorem rootFailure?_eq_none_iff :
    s.rootFailure? = none ↔ ∀ why, ¬ s.walk.system.Unopenable s.walk.root why := by
  rw [Option.eq_none_iff_forall_ne_some]
  constructor
  · intro opens why refused
    exact opens _ (rootFailure?_eq_some_iff.2 ⟨why, refused, rfl⟩)
  · intro openable f fails
    obtain ⟨why, refused, _⟩ := rootFailure?_eq_some_iff.1 fails
    exact openable why refused

/-! ## Where an account fails -/

/-- At a visited place all went well before. So if it fails there or below, the scan fails so. -/
theorem Visits.failure (visited : s.Visits absolute place) {f : Failure}
    (fails : (s.account place).failure = some f) : (s.inventory absolute).failure = some f := by
  induction visited with
  | root opens =>
    rw [inventory, opens]
    exact fails
  | @child place base before after n _ descends goesOn ih =>
    refine ih ?_
    rw [account, descends, accountOnward, accountBelow_append, accountBelow_cons,
      Account.followedBy_of_failure fails, Account.followedBy_of_goesOn goesOn, Account.followedBy_of_goesOn rfl]
    exact fails

/-- Where children fail, one of them does, and what is said there comes last. -/
theorem exists_of_failing_below {base : Place} {names : List Name} {f : Failure}
    (fails : (s.accountBelow base names).failure = some f) :
    ∃ before n after, names = before ++ n :: after ∧ (s.accountBelow base before).failure = none ∧
      (s.account (base.child n)).failure = some f ∧
      (s.account (base.child n)).events <:+ (s.accountBelow base names).events := by
  induction names with
  | nil => simp [Account.silent] at fails
  | cons n rest ih =>
    rw [accountBelow_cons] at fails ⊢
    cases first : (s.account (base.child n)).failure with
    | some f' =>
      rw [Account.followedBy_of_failure first] at fails ⊢
      exact ⟨[], n, rest, rfl, by simp [Account.silent], first.symm.trans fails ▸ first, List.suffix_refl _⟩
    | none =>
      rw [Account.followedBy_of_goesOn first] at fails ⊢
      obtain ⟨before, m, after, rfl, goesOn, here, last⟩ := ih fails
      refine ⟨n :: before, m, after, rfl, ?_, here, last.trans (List.suffix_append ..)⟩
      rw [accountBelow_cons]
      exact Account.failure_followedBy_iff.2 ⟨first, goesOn⟩

/-- What fails, fails at a visited place, and what is said there comes last. -/
theorem Visits.exists_failing (visited : s.Visits absolute place) {f : Failure}
    (fails : (s.account place).failure = some f) :
    ∃ p, s.Visits absolute p ∧ (s.sight p).2 = .fails f ∧ (s.sight p).1 <:+ (s.account place).events := by
  induction place using descent_induction s with
  | step place ih =>
    have whole : s.account place = ⟨(s.sight place).1 ++ (s.accountOnward (s.sight place).2).events,
        (s.accountOnward (s.sight place).2).failure⟩ := Account.followedBy_of_goesOn rfl
    rw [whole] at fails ⊢
    cases onward : (s.sight place).2 with
    | stays => simp [onward, accountOnward, Account.silent] at fails
    | fails f' =>
      obtain rfl : f' = f := by simpa [onward, accountOnward, Account.failing] using fails
      exact ⟨place, visited, onward, by simp [accountOnward, Account.failing]⟩
    | descends base names =>
      rw [onward] at fails
      obtain ⟨before, n, after, rfl, goesOn, here, last⟩ := exists_of_failing_below fails
      obtain ⟨p, there, failing, said⟩ := ih base _ n onward (by simp) (.child visited onward goesOn) here
      exact ⟨p, there, failing, (said.trans last).trans (List.suffix_append ..)⟩

theorem sight_eq_fails {f : Failure} (fails : (s.sight place).2 = .fails f) :
    ∃ node, s.reported? place = some (node, .symbolicLink) ∧ s.entrance place = .error f ∧
      (s.sight place).1 = [.record (s.recordAt place node .symbolicLink)] := by
  cases seen : s.reported? place with
  | none => simp [sight, seen] at fails
  | some found =>
    obtain ⟨node, kind⟩ := found
    cases kind with
    | regularFile => simp [sight, seen] at fails
    | directory => exact absurd (by simpa [sight, seen] using fails) (opened_ne_fails place f)
    | symbolicLink =>
      cases gate : s.entrance place with
      | error f' =>
        obtain rfl : f' = f := by simpa [sight, seen, gate] using fails
        exact ⟨node, rfl, rfl, by simp [sight, seen, gate]⟩
      | ok entered =>
        cases entered with
        | none => simp [sight, seen, gate] at fails
        | some target => exact absurd (by simpa [sight, seen, gate] using fails) (opened_ne_fails _ f)

theorem entrance_eq_error_iff {f : Failure} : s.entrance place = .error f ↔
    ∃ target why, (s.walk.system.resolveLink place.path).target = some target ∧ s.MayEnter place target ∧
      s.walk.system.stat target = .error why ∧ f = .reported (.targetNotRead target why) := by
  rw [entrance, target?_eq]
  constructor
  · intro fails
    split at fails
    · cases fails
    · rename_i target leads
      split at fails
      · rename_i may
        split at fails
        · rename_i why asked
          cases fails
          exact ⟨target, why, leads, may, asked, rfl⟩
        · cases fails
      · cases fails
  · rintro ⟨target, why, leads, may, asked, rfl⟩
    simp only [leads, if_pos may, asked]

/-- Each destination at a visited place is that of a link that is entered above it. -/
theorem Visits.entered_of_mem_destinations (visited : s.Visits absolute place) {destination : Path}
    (among : destination ∈ place.destinations) : ∃ link, .entered link destination ∈ (s.inventory absolute).events ∧
      place.path.Under link ∧ link ≠ place.path := by
  induction visited with
  | root _ => cases among
  | @child place base before after n visited descends _ ih =>
    have proper {link : Path} (above : base.path.Under link) : link ≠ (base.child n).path := by
      rintro rfl
      exact Path.not_under_child base.path n above
    have upper : place.path = base.path := (path_of_sight descends).symm
    have known : destination ∈ place.destinations → ∃ link,
        .entered link destination ∈ (s.inventory absolute).events ∧ (base.child n).path.Under link ∧
          link ≠ (base.child n).path := fun among => by
      obtain ⟨link, said, above, _⟩ := ih among
      exact ⟨link, said, (Path.child_under _ n).trans (upper ▸ above), proper (upper ▸ above)⟩
    rcases (sight_eq_descends descends).2 with ⟨node, _, rfl⟩ | ⟨node, target, seen, entered, rfl⟩
    · exact known among
    · rcases List.mem_cons.1 among with rfl | among
      · have said : .entered place.path destination ∈ (s.sight place).1 := by simp [sight, seen, entered]
        exact ⟨place.path, visited.sight_subset said, Path.child_under _ n, proper (Path.under_refl _)⟩
      · exact known among

/-- The destination of a link that is entered is among those at each visited place below it. -/
theorem Visits.mem_destinations_of_entered (visited : s.Visits absolute place) {link destination : Path}
    (said : .entered link destination ∈ (s.inventory absolute).events) (above : place.path.Under link)
    (proper : link ≠ place.path) : destination ∈ place.destinations := by
  obtain ⟨p, there, told⟩ := exists_visit said
  obtain ⟨rfl, entered, node, seen⟩ := mem_sight_entered told
  obtain ⟨asked, known, _⟩ := reported?_eq_some seen
  obtain ⟨leads, _⟩ := entrance_eq_some entered
  induction visited with
  | root _ => exact absurd (Path.under_antisymm there.under_root above) proper
  | @child place base before after n _ descends _ ih =>
    have upper : base.path = place.path := path_of_sight descends
    have around : place.path.Under p.path := upper ▸ (Path.under_child_cases above).resolve_left proper
    have below (further : p.path ≠ place.path) : destination ∈ place.destinations := ih around further
    rcases (sight_eq_descends descends).2 with ⟨node', seen', rfl⟩ | ⟨node', target, _, entered', rfl⟩
    · refine below fun here => ?_
      -- Where the walk went below a directory no link was entered.
      obtain ⟨asked', known', _⟩ := reported?_eq_some seen'
      rw [← here, asked] at asked'
      cases asked'
      rw [known] at known'
      cases known'
    · by_cases here : p.path = place.path
      · obtain ⟨leads', _⟩ := entrance_eq_some entered'
        rw [← here, leads] at leads'
        cases leads'
        exact List.mem_cons_self
      · exact List.mem_cons_of_mem _ (below here)

/-- The record is that of a link which may be entered, and its target cannot be asked
    about: it exists, it is inside the local root and not inside the search root, and
    it is not above a directory that a link above leads to, nor above the directory of
    the link if that is outside the search root. -/
structure HaltsAfter (s : Scan) (r : Record) (target : Path) (why : Errno) : Prop where
  reported : r ∈ s.trace.records
  link : r.kind = .symbolicLink
  leads : s.walk.system.resolveLink r.path = ⟨some target, true⟩
  inside : target.Under (s.walk.system.canonical s.localRoot)
  outside : ¬ target.Under (s.walk.system.canonical s.walk.root)
  apart : ∀ link destination, .entered link destination ∈ s.trace.events → r.path.Under link → link ≠ r.path →
    ¬ destination.Under target
  around : ¬ (s.walk.system.canonical r.path.parent).Under (s.walk.system.canonical s.walk.root) →
    ¬ (s.walk.system.canonical r.path.parent).Under target
  fails : s.walk.system.stat target = .error why

theorem ending_eq_failed_iff (absolute : s.walk.root.isAbsolute = true) {f : Failure} :
    s.trace.ending = .failed f ↔ (s.inventory absolute).failure = some f := by
  rw [(tells_inventory absolute).2, Account.ending]
  cases (s.inventory absolute).failure <;> simp

/-- A link may be entered just if its record says so of it. -/
theorem haltsAfter_iff (visited : s.Visits absolute place) {node : Node}
    (seen : s.reported? place = some (node, .symbolicLink)) {target : Path} {why : Errno} :
    s.HaltsAfter (s.recordAt place node .symbolicLink) target why ↔
      s.entrance place = .error (.reported (.targetNotRead target why)) := by
  have events : s.trace.events = (s.inventory absolute).events := (tells_inventory absolute).1
  have path : (s.recordAt place node .symbolicLink).path = place.path := path_recordAt
  rw [entrance_eq_error_iff]
  constructor
  · intro halts
    refine ⟨target, why, ?_, ⟨halts.inside, halts.outside, fun destination among => ?_, ?_⟩, halts.fails, rfl⟩
    · rw [← path, halts.leads]
    · obtain ⟨link, said, above, proper⟩ := visited.entered_of_mem_destinations among
      exact halts.apart link destination (events ▸ said) (path ▸ above) (path ▸ proper)
    · exact path ▸ halts.around
  · rintro ⟨_, _, leads, ⟨inside, outside, apart, around⟩, fails, same⟩
    cases same
    have said : .record (s.recordAt place node .symbolicLink) ∈ (s.sight place).1 :=
      List.mem_of_mem_take (sight_head seen ▸ List.mem_singleton_self _)
    refine ⟨?_, kind_recordAt, ?_, inside, outside, fun link destination told above proper => ?_, ?_, fails⟩
    · rw [Trace.records_eq, events]
      exact List.mem_filterMap.2 ⟨_, visited.sight_subset said, rfl⟩
    · rw [path]
      exact (FileSystem.resolveLink_target leads).2.2
    · rw [path] at above proper
      exact apart _ (visited.mem_destinations_of_entered (events ▸ told) above proper)
    · rw [path]
      exact around

/-- Each record is that of a visited place. -/
theorem exists_visit_of_reported (absolute : s.walk.root.isAbsolute = true) {r : Record}
    (reported : r ∈ s.trace.records) : ∃ place node kind, s.Visits absolute place ∧
      s.reported? place = some (node, kind) ∧ r = s.recordAt place node kind := by
  rw [(tells_inventory absolute).records] at reported
  exact exists_visit_of_record reported

/-- A scan halts just after such a link. -/
theorem ending_of_haltsAfter (absolute : s.walk.root.isAbsolute = true) {r : Record} {target : Path} {why : Errno}
    (halts : s.HaltsAfter r target why) : s.trace.ending = .failed (.reported (.targetNotRead target why)) := by
  obtain ⟨place, node, kind, visited, seen, rfl⟩ := exists_visit_of_reported absolute halts.reported
  obtain rfl : kind = .symbolicLink := kind_recordAt.symm.trans halts.link
  have gate := (haltsAfter_iff visited seen).1 halts
  have fails : (s.account place).failure = some (.reported (.targetNotRead target why)) := by
    simp [account, sight, seen, gate, accountOnward, Account.failing, Account.telling, Account.followedBy]
  exact (ending_eq_failed_iff absolute).2 (visited.failure fails)

/-- A root that cannot be opened leaves no record. -/
theorem ending_of_unopenable (absolute : s.walk.root.isAbsolute = true) {why : Option Errno}
    (refused : s.walk.system.Unopenable s.walk.root why) :
    s.trace.ending = .failed (.reported (.rootNotOpened s.walk.root why)) ∧ s.trace.records = [] := by
  have fails := rootFailure?_eq_some_iff.2 ⟨why, refused, rfl⟩
  rw [(tells_inventory absolute).records, (tells_inventory absolute).2, inventory, fails]
  exact ⟨rfl, rfl⟩

/-- A scan cannot open its root, or completes, or halts after a link whose record is the
    last that is made known. -/
theorem ending_cases (absolute : s.walk.root.isAbsolute = true) :
    (∃ why, s.walk.system.Unopenable s.walk.root why ∧
        s.trace.ending = .failed (.reported (.rootNotOpened s.walk.root why))) ∨
      s.trace.ending = .complete ∨
      ∃ r target why, s.HaltsAfter r target why ∧
        s.trace.ending = .failed (.reported (.targetNotRead target why)) ∧ [.record r] <:+ s.trace.events := by
  cases opens : s.rootFailure? with
  | some f =>
    obtain ⟨why, refused, _⟩ := rootFailure?_eq_some_iff.1 opens
    exact .inl ⟨why, refused, (ending_of_unopenable absolute refused).1⟩
  | none =>
    cases failure : (s.inventory absolute).failure with
    | none =>
      refine .inr (.inl ?_)
      rw [(tells_inventory absolute).2, Account.ending, failure]
    | some f =>
      have fails := failure
      rw [inventory, opens] at fails
      obtain ⟨p, visited, onward, last⟩ := (Visits.root opens).exists_failing fails
      obtain ⟨node, seen, gate, said⟩ := sight_eq_fails onward
      obtain ⟨target, why, _, _, _, rfl⟩ := entrance_eq_error_iff.1 gate
      refine .inr (.inr ⟨_, target, why, (haltsAfter_iff visited seen).2 gate,
        (ending_eq_failed_iff absolute).2 failure, ?_⟩)
      rw [(tells_inventory absolute).1, inventory, opens, ← said]
      exact last

theorem ending_eq_rootNotOpened_iff (absolute : s.walk.root.isAbsolute = true) {why : Option Errno} :
    s.trace.ending = .failed (.reported (.rootNotOpened s.walk.root why)) ↔
      s.walk.system.Unopenable s.walk.root why := by
  refine ⟨fun failed => ?_, fun refused => (ending_of_unopenable absolute refused).1⟩
  rcases ending_cases absolute with ⟨why', refused, ending⟩ | complete | ⟨_, _, _, _, ending, _⟩
  · cases failed.symm.trans ending
    exact refused
  · cases failed.symm.trans complete
  · cases failed.symm.trans ending

theorem ending_eq_targetNotRead_iff (absolute : s.walk.root.isAbsolute = true) {target : Path} {why : Errno} :
    s.trace.ending = .failed (.reported (.targetNotRead target why)) ↔
      ∃ r, s.HaltsAfter r target why ∧ [.record r] <:+ s.trace.events := by
  refine ⟨fun failed => ?_, fun ⟨_, halts, _⟩ => ending_of_haltsAfter absolute halts⟩
  rcases ending_cases absolute with ⟨_, _, ending⟩ | complete | ⟨r, _, _, halts, ending, last⟩
  · cases failed.symm.trans ending
  · cases failed.symm.trans complete
  · cases failed.symm.trans ending
    exact ⟨r, halts, last⟩

/-! ## Without the faults of a call -/

/-- The scan of the file system where no such call is set to fail. -/
def sparing (s : Scan) (call : Call) : Scan :=
  { s with walk := { s.walk with system := s.walk.system.sparing call } }

theorem ofOptions_sparing (fs : FileSystem) (root : Path) (options : ScanOptions) :
    ofOptions (fs.sparing .stat) root options = (ofOptions fs root options).sparing .stat := rfl

theorem reported?_sparing (place : Place) :
    (s.sparing .stat).reported? place = (s.reported? place).map fun seen => (seen.1.sparing .stat, seen.2) := by
  have hidden (kind : EntryKind) : (s.sparing .stat).walk.Omits place.path kind ∨ (s.sparing .stat).Revisited place ↔
      s.walk.Omits place.path kind ∨ s.Revisited place := by
    simp only [Revisited, sparing, FileSystem.canonical_sparing]
    rfl
  have system : (s.sparing .stat).walk.system = s.walk.system.sparing .stat := rfl
  rw [reported?_eq, reported?_eq, system]
  rcases s.walk.system.lstat_sparing_cases place.path with ⟨e, e', asked, asked'⟩ | ⟨node, asked, asked'⟩
  · rw [asked, asked']
    rfl
  · rw [asked, asked']
    simp only [Node.kind?_sparing]
    cases node.kind? with
    | none => rfl
    | some kind =>
      simp only [hidden]
      split <;> rfl

theorem recordAt_sparing (place : Place) (node : Node) (kind : EntryKind) :
    (s.sparing .stat).recordAt place (node.sparing .stat) kind = s.recordAt place node kind := by
  simp only [recordAt_eq, sparing, FileSystem.resolveLink_sparing]
  rfl

theorem opened_sparing (base : Place) : (s.sparing .stat).opened base = s.opened base := by
  unfold opened
  cases reads : s.walk.system.list base.path with
  | ok names =>
    have reads' := FileSystem.list_sparing.2 reads
    simp only [sparing, reads']
  | error why =>
    cases reads' : (s.walk.system.sparing .stat).list base.path with
    | error why' => simp only [sparing, reads']
    | ok names =>
      rw [FileSystem.list_sparing.1 reads'] at reads
      cases reads

theorem mayEnter_sparing (link : Place) (target : Path) :
    (s.sparing .stat).MayEnter link target ↔ s.MayEnter link target := by
  simp only [MayEnter, sparing, FileSystem.canonical_sparing]

theorem entrance_sparing {link : Place} {entered : Option Path} (passes : s.entrance link = .ok entered) :
    (s.sparing .stat).entrance link = .ok entered := by
  have leads : (s.sparing .stat).walk.system.resolveLink link.path = s.walk.system.resolveLink link.path :=
    FileSystem.resolveLink_sparing ..
  rw [entrance, target?_eq] at passes ⊢
  rw [leads]
  split at passes
  · exact passes
  · rename_i target _
    by_cases may : s.MayEnter link target
    · rw [if_pos may] at passes
      rw [if_pos ((mayEnter_sparing link target).2 may)]
      split at passes
      · cases passes
      · rename_i node asked
        have asked' : (s.sparing .stat).walk.system.stat target = .ok (node.sparing .stat) :=
          FileSystem.stat_sparing asked
        rw [asked']
        exact passes
    · rw [if_neg may] at passes
      rw [if_neg (mt (mayEnter_sparing link target).1 may)]
      exact passes

/-- At a place the same is said, or the scan halts there. -/
theorem sight_sparing (place : Place) :
    (s.sparing .stat).sight place = s.sight place ∨
      (∃ f, (s.sight place).2 = .fails f) ∧ (s.sight place).1 <+: ((s.sparing .stat).sight place).1 := by
  unfold sight
  rw [reported?_sparing]
  cases seen : s.reported? place with
  | none => exact .inl rfl
  | some found =>
    obtain ⟨node, kind⟩ := found
    simp only [Option.map_some, recordAt_sparing]
    cases kind with
    | regularFile => exact .inl rfl
    | directory => exact .inl (by simp only [opened_sparing])
    | symbolicLink =>
      cases gate : s.entrance place with
      | ok entered =>
        rw [entrance_sparing gate]
        cases entered with
        | none => exact .inl rfl
        | some target => exact .inl (by simp only [opened_sparing])
      | error f =>
        refine .inr ⟨⟨f, rfl⟩, ?_⟩
        cases (s.sparing .stat).entrance place with
        | error f' => exact List.prefix_refl _
        | ok entered =>
          cases entered with
          | none => exact List.prefix_refl _
          | some target => exact ⟨[.entered place.path target], rfl⟩

theorem accountBelow_sparing {base : Place} {names : List Name}
    (children : ∀ n ∈ names, (s.account (base.child n)).CutsShort ((s.sparing .stat).account (base.child n))) :
    (s.accountBelow base names).CutsShort ((s.sparing .stat).accountBelow base names) := by
  induction names with
  | nil => exact .inl (by simp)
  | cons n rest ih =>
    rw [accountBelow_cons, accountBelow_cons]
    exact (children n List.mem_cons_self).followedBy (ih fun m later => children m (List.mem_cons_of_mem _ later))

/-- An account is the one without the faults of `stat`, or it fails early. -/
theorem account_sparing (s : Scan) (place : Place) : (s.account place).CutsShort ((s.sparing .stat).account place) := by
  induction place using descent_induction s with
  | step place ih =>
    rcases sight_sparing (s := s) place with same | ⟨⟨f, fails⟩, first⟩
    · rw [account, account, same]
      refine .followedBy (.inl rfl) ?_
      cases onward : (s.sight place).2 with
      | stays | fails f => exact .inl rfl
      | descends base names => exact accountBelow_sparing fun n among => ih base names n onward among
    · refine .inr ⟨?_, ?_⟩
      · rw [account, fails, Account.followedBy_of_goesOn rfl]
        simp [accountOnward, Account.failing]
      · rw [account, fails, Account.followedBy_of_goesOn rfl]
        simp only [Account.telling, accountOnward, Account.failing, List.append_nil]
        exact first.trans (Account.events_prefix_followedBy (.telling ((s.sparing .stat).sight place).1) _)

theorem rootFailure?_sparing (opens : s.rootFailure? = none) : (s.sparing .stat).rootFailure? = none := by
  have openable := rootFailure?_eq_none_iff.1 opens
  refine rootFailure?_eq_none_iff.2 fun why unopenable => ?_
  rcases s.walk.system.lstat_sparing_cases s.walk.root with ⟨e, e', asked, asked'⟩ | ⟨node, asked, asked'⟩
  · exact openable _ (.unasked asked)
  · rcases unopenable with refused | ⟨asked'', unknown⟩ | ⟨asked'', directory, unlisted⟩
    · exact nomatch asked'.symm.trans refused
    · cases asked'.symm.trans asked''
      exact openable _ (.unsupported asked unknown)
    · cases asked'.symm.trans asked''
      cases reads : s.walk.system.list s.walk.root with
      | error why => exact openable _ (.unlisted asked directory reads)
      | ok names => exact nomatch (FileSystem.list_sparing.2 reads).symm.trans unlisted

/-- A scan makes known the first part of what it makes known without the faults of `stat`. -/
theorem events_sparing (absolute : s.walk.root.isAbsolute = true) :
    s.trace.events <+: (s.sparing .stat).trace.events := by
  have absolute' : (s.sparing .stat).walk.root.isAbsolute = true := absolute
  rw [(tells_inventory absolute).1, (tells_inventory absolute').1, inventory]
  cases opens : s.rootFailure? with
  | some f => exact List.nil_prefix
  | none =>
    rw [inventory, rootFailure?_sparing opens]
    exact (account_sparing s _).events

/-- Without the faults of `stat` a scan completes once its root is open, whatever
    else fails. -/
theorem complete_sparing (absolute : s.walk.root.isAbsolute = true)
    (opens : s.rootFailure? = none) : (s.sparing .stat).trace.ending = .complete := by
  have absolute' : (s.sparing .stat).walk.root.isAbsolute = true := absolute
  have spares : (s.sparing .stat).walk.system.Spares .stat := FileSystem.spares_sparing s.walk.system .stat
  rw [(tells_inventory absolute').2, inventory, rootFailure?_sparing opens, Account.ending,
    failure_account spares]

/-- The existence code of each record is known, so it never fails for want of a resolution. -/
theorem existenceCode_of_reported (absolute : s.walk.root.isAbsolute = true) {r : Record}
    (reported : r ∈ s.trace.records) :
    existenceCode r.kind (if r.kind = .symbolicLink then some (s.walk.system.resolveLink r.path) else none) =
      .ok r.existence := by
  obtain ⟨place, node, kind, _, _, rfl⟩ := exists_visit_of_reported absolute reported
  rw [kind_recordAt, path_recordAt]
  by_cases link : kind = .symbolicLink
  · simp [existenceCode, recordAt_eq, link]
  · simp [existenceCode, recordAt_eq, link]

/-- A scan ends in one of three ways. Its root cannot be opened, and then there is no
    record; or it completes; or it halts right after the record of a link that may be
    entered, because its target cannot be asked about, and it does so whenever there is
    such a record. No other failure comes out of it. If no `stat` call is set to fail
    it has these records first, and completes whatever else fails. -/
theorem endings (fs : FileSystem) (root : Path) (options : ScanOptions) (absolute : root.isAbsolute = true) :
    let scan := ofOptions fs root options
    let spared := ofOptions (fs.sparing .stat) root options
    (scan.trace.ending = .complete ∨
        (∃ why, scan.trace.ending = .failed (.reported (.rootNotOpened root why))) ∨
        ∃ target why, scan.trace.ending = .failed (.reported (.targetNotRead target why))) ∧
      (∀ why, scan.trace.ending = .failed (.reported (.rootNotOpened root why)) ↔ fs.Unopenable root why) ∧
      (∀ why, fs.Unopenable root why → scan.trace.records = []) ∧
      (∀ target why, scan.trace.ending = .failed (.reported (.targetNotRead target why)) ↔
        ∃ r, scan.HaltsAfter r target why ∧ [.record r] <:+ scan.trace.events) ∧
      (∀ r target why, scan.HaltsAfter r target why →
        scan.trace.ending = .failed (.reported (.targetNotRead target why))) ∧
      scan.trace.records <+: spared.trace.records ∧
      ((∀ why, ¬ fs.Unopenable root why) → spared.trace.ending = .complete) ∧
      (∀ r ∈ scan.trace.records,
        existenceCode r.kind (if r.kind = .symbolicLink then some (fs.resolveLink r.path) else none) =
          .ok r.existence) ∧
      Cursor.fresh.start = .ok begin.cursor := by
  intro scan spared
  have spares : spared = scan.sparing .stat := ofOptions_sparing fs root options
  refine ⟨?_, fun _ => ending_eq_rootNotOpened_iff absolute, fun _ refused => (ending_of_unopenable absolute refused).2,
    fun _ _ => ending_eq_targetNotRead_iff absolute, fun _ _ _ halts => ending_of_haltsAfter absolute halts, ?_,
    fun openable => ?_, fun r reported => existenceCode_of_reported absolute reported, rfl⟩
  · rcases ending_cases (s := scan) absolute with ⟨why, _, ending⟩ | complete | ⟨_, target, why, _, ending, _⟩
    · exact .inr (.inl ⟨why, ending⟩)
    · exact .inl complete
    · exact .inr (.inr ⟨target, why, ending⟩)
  · rw [spares, Trace.records_eq, Trace.records_eq]
    exact (events_sparing absolute).filterMap _
  · rw [spares]
    exact complete_sparing absolute (rootFailure?_eq_none_iff.2 openable)

end Scan

/-- A directory `/s` with a broken link, a directory that cannot be opened, and a link
    to `/l`, which cannot be asked about. -/
def FileSystem.faultyTree : FileSystem :=
  let node (path : String) (content : Content) (faults : List (Call × Errno)) : NodeSpec :=
    ⟨.ofText path.toList, content, none, ⟨0, 0, 0⟩, faults⟩
  .ofSpecs [node "/s/b" (.link "none".toList) [], node "/s/d" .directory [(.openNode, .accessDenied)],
    node "/s/k" (.link "/l".toList) [], node "/s/z" (.regular []) [], node "/l" .directory [(.stat, .inputOutput)],
    node "/l/g" (.regular []) []] ⟨.slash, []⟩

namespace Scan

theorem endings_faultyTree :
    let scan (fs : FileSystem) := ofOptions fs (.ofText "/s".toList) ⟨some ⟨.slash, []⟩, false, fun _ _ => false⟩
    (scan .faultyTree).trace.ending =
        .failed (.reported (.targetNotRead (.ofText "/l".toList) .inputOutput)) ∧
      ((scan .faultyTree).trace.records.map fun r => (r.path.text, r.existence)) =
        [("/s".toList, 1), ("/s/b".toList, 2), ("/s/d".toList, 1), ("/s/k".toList, 1)] ∧
      (∃ r, (scan .faultyTree).HaltsAfter r (.ofText "/l".toList) .inputOutput) ∧
      (scan (FileSystem.faultyTree.sparing .stat)).trace.ending = .complete ∧
      (scan .faultyTree).trace.records <+: (scan (FileSystem.faultyTree.sparing .stat)).trace.records := by
  intro scan
  have failed : (scan .faultyTree).trace.ending =
      .failed (.reported (.targetNotRead (.ofText "/l".toList) .inputOutput)) := by decide +kernel
  obtain ⟨_, unopened, _, halts, _, first, complete, _⟩ := endings .faultyTree (.ofText "/s".toList)
    ⟨some ⟨.slash, []⟩, false, fun _ _ => false⟩ (by decide)
  obtain ⟨r, halts, _⟩ := (halts _ _).1 failed
  refine ⟨failed, by decide +kernel, ⟨r, halts⟩, complete fun why refused => ?_, first⟩
  exact nomatch failed.symm.trans ((unopened why).2 refused)

end Scan
end Inventory
