import Inventory.Proofs.Whereabouts

/-!
The gate compares what a link leads to with the directories that entered links lead to, and
with the directory of the link itself. The open directories in between are left to these
comparisons. From one open directory down to another the scan goes through a number of
entered links (`Scan.Descends`). Through none or one, the lower one is not the upper one
again; through more, it may be (`Scan.Descends.same_location`).
-/
namespace Inventory
namespace Canonical

variable {fs : FileSystem} {policy : Policy} {opened : List Path} {inner : List Path → Path → Text → Outcome}

/-- What was read to its end was read up to each piece before. -/
theorem settle_of_append {front rest : List Text} {here q : Path}
    (settled : settle fs policy opened inner here (front ++ rest) = .settled q) :
    ∃ middle, settle fs policy opened inner here front = .settled middle := by
  induction front generalizing here with
  | nil => exact ⟨here, rfl⟩
  | cons piece front ih =>
    rw [List.cons_append] at settled
    cases read : Component.ofText? piece with
    | none =>
      rw [settle_skip read] at settled ⊢
      exact ih settled
    | some component =>
      cases component with
      | up =>
        rw [settle_up read] at settled ⊢
        exact ih settled
      | name n =>
        cases asked : fs.lstat (here.child n) with
        | error e =>
          cases policy with
          | strict =>
            rw [settle_strict_missing read asked] at settled
            cases settled
          | lenient =>
            rw [settle_lenient_missing read asked] at settled ⊢
            exact ih settled
        | ok node =>
          cases content : node.linkTarget? with
          | none =>
            rw [settle_plain read asked content] at settled ⊢
            exact ih settled
          | some target =>
            by_cases again : here.child n ∈ opened
            · exact absurd settled (settle_loop_ne_settled read asked content again q)
            · rw [settle_link read asked content again] at settled ⊢
              cases expanded : inner (here.child n :: opened) here target with
              | settled p =>
                rw [expanded] at settled
                exact ih settled
              | looping p | failed p e | endless => simp [expanded] at settled

end Canonical

namespace FileSystem

variable {fs : FileSystem} {p q : Path}

/-- With a path all paths above have a strict form. -/
theorem strictForm_above (absolute : q.isAbsolute = true) (under : p.Under q) {form : Path}
    (forms : fs.strictForm p = .ok form) : ∃ form', fs.strictForm q = .ok form' := by
  obtain ⟨root, rest, parts⟩ := under
  have absolute' : p.isAbsolute = true := by simpa [Path.isAbsolute, root] using absolute
  obtain ⟨r, settled, _⟩ := settled_of_strictForm forms
  rw [outcome_absolute absolute', ← parts, List.map_append] at settled
  obtain ⟨middle, settled⟩ := Canonical.settle_of_append settled
  rw [← outcome_absolute absolute] at settled
  exact ⟨middle.absolute fs.workingDirectory, by simp only [strictForm, settled]⟩

/-- Above a path with a strict form the canonical form spells where the path leads. -/
theorem canonical_above (absolute : q.isAbsolute = true) (under : p.Under q) {form : Path}
    (forms : fs.strictForm p = .ok form) {l : Location} (followed : fs.locate true q = .ok l) :
    fs.canonical q = .ofLocation l := by
  obtain ⟨form', forms'⟩ := strictForm_above absolute under forms
  exact canonical_of_settles (settles_of_strictForm absolute forms' followed).2

/-- A directory lies below the one that the path above leads to. -/
theorem locate_child_of_directory (absolute : p.isAbsolute = true) {d : Location} (followed : fs.locate true p = .ok d)
    {n : Name} {node : Node} (asked : fs.lstat (p.child n) = .ok node) (directory : node.isDirectory = true) :
    fs.locate true (p.child n) = .ok (d ++ [n]) := by
  obtain ⟨l, named, there⟩ := lstat_eq_ok_iff.1 asked
  obtain ⟨d', followed', _, _, rfl⟩ := (locate_child_iff absolute).1 named
  obtain rfl := Except.ok.inj (followed.symm.trans followed')
  exact locate_followed_of_plain (p := p.child n) absolute named (nodeFor_eq_ok_iff.1 there).1
    (Node.linkTarget?_of_isDirectory directory)

end FileSystem

namespace Scan

variable {s : Scan} {absolute : s.walk.root.isAbsolute = true} {place top base : Place} {links : Nat} {l : Location}

/-- At a directory that is reported the scan opens it, and at a link that is entered the
    directory that the link leads to. -/
inductive Opens (s : Scan) (place : Place) : Place → Prop where
  | directory {node : Node} (seen : s.reported? place = some (node, .directory)) : Opens s place place
  | link {node : Node} {target : Path} (seen : s.reported? place = some (node, .symbolicLink))
      (entered : s.entrance place = .ok (some target)) : Opens s place (place.through target)

namespace Opens

theorem of_sight {names : List Name} (descends : (s.sight place).2 = .descends base names) : s.Opens place base := by
  rcases (sight_eq_descends descends).2 with ⟨node, seen, rfl⟩ | ⟨node, target, seen, entered, rfl⟩
  · exact .directory seen
  · exact .link seen entered

theorem path_eq (opens : s.Opens place base) : base.path = place.path := by cases opens <;> rfl

/-- Inside of an entered link the open directory is what its path canonically is, and it
    lies outside of the search root. -/
theorem inside (opens : s.Opens place base) (visited : s.Visits absolute place) {p : Path}
    (located : base.location = some p) :
    ∃ l, p = .ofLocation l ∧ s.walk.system.canonical base.path = .ofLocation l ∧
      ¬ p.Under (s.walk.system.canonical s.walk.root) := by
  cases opens with
  | @directory node seen =>
    obtain ⟨asked, known, _, fresh⟩ := reported?_eq_some seen
    have plain := Node.linkTarget?_of_isDirectory ((Node.kind?_eq_directory node).1 known)
    obtain ⟨l, _, settles, rfl⟩ := (visited.sited located).settles place.absolute asked plain
    exact ⟨l, rfl, FileSystem.canonical_of_settles settles, by simpa [Revisited, located] using fresh⟩
  | @link node target seen entered =>
    obtain ⟨leads, mayEnter, _⟩ := entrance_eq_some entered
    obtain ⟨l, rfl, _, settles, _⟩ :=
      FileSystem.strictForm_firm place.absolute (FileSystem.resolveLink_target leads).1
    cases located
    exact ⟨l, rfl, FileSystem.canonical_of_settles settles, mayEnter.2.1⟩

/-- Outside of entered links the open directory lies below the root. -/
theorem outside (opens : s.Opens place base) (visited : s.Visits absolute place) (located : base.location = none) :
    ∃ root names, s.walk.system.locate true s.walk.root = .ok root ∧
      s.walk.system.locate true base.path = .ok (root ++ names) := by
  induction visited generalizing base with
  | root _ =>
    cases opens with
    | link _ _ => cases located
    | @directory node seen =>
      obtain ⟨asked, known, _⟩ := reported?_eq_some seen
      obtain ⟨l, named, there⟩ := FileSystem.lstat_eq_ok_iff.1 asked
      have followed := FileSystem.locate_followed_of_plain absolute named (FileSystem.nodeFor_eq_ok_iff.1 there).1
        (Node.linkTarget?_of_isDirectory ((Node.kind?_eq_directory node).1 known))
      exact ⟨l, [], followed, by rw [List.append_nil]; exact followed⟩
  | @child _ upper _ _ n _ descends _ ih =>
    cases opens with
    | link _ _ => cases located
    | @directory node seen =>
      obtain ⟨asked, known, _⟩ := reported?_eq_some seen
      obtain ⟨root, names, rooted, followed⟩ := ih (.of_sight descends) (by simpa [Place.child] using located)
      refine ⟨root, names ++ [n], rooted, ?_⟩
      rw [← List.append_assoc]
      exact FileSystem.locate_child_of_directory upper.absolute followed asked ((Node.kind?_eq_directory node).1 known)

end Opens

/-- Where an open directory lies: inside of an entered link the place tells it, outside the system. -/
def LiesAt (s : Scan) (base : Place) (l : Location) : Prop :=
  base.location = some (.ofLocation l) ∨ base.location = none ∧ s.walk.system.locate true base.path = .ok l

theorem LiesAt.unique {m : Location} (here : s.LiesAt base l) (there : s.LiesAt base m) : l = m := by
  rcases here with inside | ⟨outside, followed⟩ <;> rcases there with inside' | ⟨outside', followed'⟩
  · exact Path.ofLocation_injective (Option.some.inj (inside.symm.trans inside'))
  · simp [inside] at outside'
  · simp [outside] at inside'
  · exact Except.ok.inj (followed.symm.trans followed')

/-! ## From one open directory to another -/

/-- From an open directory the scan goes down to another through so many entered links. -/
inductive Descends (s : Scan) (absolute : s.walk.root.isAbsolute = true) (top : Place) : Nat → Place → Prop where
  | here {place : Place} (visited : s.Visits absolute place) (opens : s.Opens place top) : Descends s absolute top 0 top
  | directory {base : Place} {links : Nat} {n : Name} {node : Node} (above : Descends s absolute top links base)
      (visited : s.Visits absolute (base.child n)) (seen : s.reported? (base.child n) = some (node, .directory)) :
      Descends s absolute top links (base.child n)
  | link {base : Place} {links : Nat} {n : Name} {node : Node} {target : Path}
      (above : Descends s absolute top links base) (visited : s.Visits absolute (base.child n))
      (seen : s.reported? (base.child n) = some (node, .symbolicLink))
      (entered : s.entrance (base.child n) = .ok (some target)) :
      Descends s absolute top (links + 1) ((base.child n).through target)

/-- Each directory on the path of a visited place is open, and the scan goes down from it. -/
theorem Visits.exists_descends (visited : s.Visits absolute place) {q : Path} (above : place.path.Under q)
    (proper : q ≠ place.path) (inside : q.Under s.walk.root) :
    ∃ upper top links base n, s.Visits absolute upper ∧ s.Opens upper top ∧ top.path = q ∧
      s.Descends absolute top links base ∧ place = base.child n := by
  induction visited with
  | root _ => exact absurd (Path.under_antisymm inside above) proper
  | @child place base _ _ n visited descends _ ih =>
    have opens := Opens.of_sight descends
    have further : base.path.Under q := (Path.under_child_cases above).resolve_left proper
    by_cases here : q = base.path
    · exact ⟨place, base, 0, base, n, visited, opens, here.symm, .here visited opens, rfl⟩
    · rw [opens.path_eq] at further here
      obtain ⟨upper, top, links, middle, m, visited', opens', path, above', rfl⟩ := ih further here
      cases opens with
      | directory seen => exact ⟨upper, top, links, _, n, visited', opens', path, .directory above' visited seen, rfl⟩
      | link seen entered =>
        exact ⟨upper, top, links + 1, _, n, visited', opens', path, .link above' visited seen entered, rfl⟩

namespace Descends

theorem exists_opens (descends : s.Descends absolute top links base) :
    ∃ place, s.Visits absolute place ∧ s.Opens place base := by
  cases descends with
  | here visited opens => exact ⟨_, visited, opens⟩
  | directory _ visited seen => exact ⟨_, visited, .directory seen⟩
  | link _ visited seen entered => exact ⟨_, visited, .link seen entered⟩

theorem exists_top (descends : s.Descends absolute top links base) :
    ∃ place, s.Visits absolute place ∧ s.Opens place top := by
  induction descends with
  | here visited opens => exact ⟨_, visited, opens⟩
  | directory _ _ _ ih | link _ _ _ _ ih => exact ih

theorem under (descends : s.Descends absolute top links base) : base.path.Under top.path := by
  induction descends with
  | here _ _ => exact Path.under_refl _
  | directory _ _ _ ih | link _ _ _ _ ih => exact (Path.child_under _ _).trans ih

theorem destinations_subset (descends : s.Descends absolute top links base) :
    top.destinations ⊆ base.destinations := by
  induction descends with
  | here _ _ => exact List.Subset.refl _
  | directory _ _ _ ih => exact ih
  | link _ _ _ _ ih => exact fun _ inside => List.mem_cons_of_mem _ (ih inside)

/-- Without a link in between, the lower directory lies below the upper one. -/
theorem liesAt (descends : s.Descends absolute top 0 base) (lies : s.LiesAt top l) :
    ∃ names, s.LiesAt base (l ++ names) ∧ (top.location = none ↔ base.location = none) ∧
      (names = [] → base.path = top.path) := by
  generalize none : 0 = links at descends
  induction descends with
  | here _ _ => exact ⟨[], by rwa [List.append_nil], Iff.rfl, fun _ => rfl⟩
  | @directory base _ n node _ _ seen ih =>
    obtain ⟨names, lies, sameSide, _⟩ := ih none
    refine ⟨names ++ [n], ?_, by simp [Place.child, sameSide], by simp⟩
    rw [← List.append_assoc]
    rcases lies with inside | ⟨outside, followed⟩
    · exact .inl (by rw [Place.child, inside, Path.ofLocation_append]; rfl)
    · obtain ⟨asked, known, _⟩ := reported?_eq_some seen
      exact .inr ⟨by simp [Place.child, outside],
        FileSystem.locate_child_of_directory base.absolute followed asked ((Node.kind?_eq_directory node).1 known)⟩
  | link _ _ _ _ _ => cases none

/-- The last link that was entered on the way. -/
theorem exists_last (descends : s.Descends absolute top (links + 1) base) :
    ∃ upper n target node, s.Descends absolute top links upper ∧ s.Visits absolute (upper.child n) ∧
      s.reported? (upper.child n) = some (node, .symbolicLink) ∧ s.entrance (upper.child n) = .ok (some target) ∧
      s.Descends absolute ((upper.child n).through target) 0 base := by
  generalize more : links + 1 = k at descends
  induction descends with
  | here _ _ => cases more
  | directory _ visited seen ih =>
    obtain ⟨upper, n, target, node, above, visited', seen', entered, below⟩ := ih more
    exact ⟨upper, n, target, node, above, visited', seen', entered, .directory below visited seen⟩
  | @link upper _ n node target above visited seen entered _ =>
    cases more
    exact ⟨upper, n, target, node, above, visited, seen, entered, .here visited (.link seen entered)⟩

end Descends

/-! ## The same directory again -/

/-- An open directory lies in the search root, if it is outside of entered links and a link below it is entered. -/
theorem Opens.in_searchRoot (opens : s.Opens place top) (visited : s.Visits absolute place)
    (outside : top.location = none) (lies : s.LiesAt top l) {link target : Path} (below : link.Under s.walk.root)
    (leads : s.walk.system.strictForm link = .ok target) :
    (Path.ofLocation l).Under (s.walk.system.canonical s.walk.root) := by
  obtain ⟨root, names, rooted, followed⟩ := opens.outside visited outside
  obtain rfl := lies.unique (.inr ⟨outside, followed⟩)
  rw [FileSystem.canonical_above absolute below leads rooted, Path.ofLocation_under_iff]
  exact List.prefix_append ..

namespace Descends

/-- A link that is entered does not lead to a directory that is open inside of the innermost
    entered link, nor to one above it. -/
theorem not_under_target (descends : s.Descends absolute top 0 base) (inside : top.location ≠ none)
    (lies : s.LiesAt top l) {n : Name} {target : Path} (entered : s.entrance (base.child n) = .ok (some target)) :
    ¬ (Path.ofLocation l).Under target := by
  intro under
  obtain ⟨_, ⟨_, _, _, around⟩, _⟩ := entrance_eq_some entered
  obtain ⟨names, below, sameSide, _⟩ := descends.liesAt lies
  have located : base.location = some (.ofLocation (l ++ names)) :=
    below.resolve_right fun outside => inside (sameSide.2 outside.1)
  obtain ⟨place, visited, opens⟩ := descends.exists_opens
  obtain ⟨l', same, canonical, free⟩ := opens.inside visited located
  have parent : s.walk.system.canonical (base.child n).path.parent = .ofLocation (l ++ names) := by
    rw [same, ← canonical]
    exact congrArg _ (Path.parent_child base.path n)
  rw [parent] at around
  exact around free ((Path.ofLocation_under_iff.2 (List.prefix_append l names)).trans under)

/-- If a directory is open twice on a path, it is met inside of an entered link the first
    time, no link above led to it, and two more links are entered before the second time. -/
theorem same_location (descends : s.Descends absolute top links base)
    (first : s.LiesAt top l) (again : s.LiesAt base l) (proper : base.path ≠ top.path) :
    top.location ≠ none ∧ 2 ≤ links ∧ Path.ofLocation l ∉ top.destinations := by
  cases links with
  | zero =>
    obtain ⟨names, lies, _, same⟩ := descends.liesAt first
    exact absurd (same (by simpa using again.unique lies)) proper
  | succ links =>
    obtain ⟨upper, n, target, node, above, visited, _, entered, below⟩ := descends.exists_last
    obtain ⟨leads, ⟨_, _, apart, _⟩, _⟩ := entrance_eq_some entered
    have form := (FileSystem.resolveLink_target leads).1
    obtain ⟨t, rfl, _⟩ := FileSystem.strictForm_firm (upper.child n).absolute form
    obtain ⟨names, lies, sameSide, _⟩ := below.liesAt (.inl rfl)
    obtain rfl := again.unique lies
    -- What lies at this location is under what the last link leads to.
    have under : (Path.ofLocation (t ++ names)).Under (.ofLocation t) :=
      Path.ofLocation_under_iff.2 (List.prefix_append ..)
    have inside : top.location ≠ none := by
      intro outside
      obtain ⟨_, visitedTop, opensTop⟩ := descends.exists_top
      obtain ⟨_, visitedBase, opensBase⟩ := descends.exists_opens
      have located := again.resolve_right fun out => Option.some_ne_none _ (sameSide.2 out.1)
      obtain ⟨_, _, _, free⟩ := opensBase.inside visitedBase located
      exact free (opensTop.in_searchRoot visitedTop outside first visited.under_root form)
    refine ⟨inside, ?_, fun among => apart _ (above.destinations_subset among) under⟩
    by_contra few
    obtain rfl : links = 0 := by omega
    exact above.not_under_target inside first entered under

end Descends
end Scan

namespace Trace

/-- A path on which a directory is open: that of the directory, or of a link that was
    entered and leads to it. -/
def Shows (fs : FileSystem) (t : Trace) (q : Path) (l : Location) : Prop :=
  (∃ node, fs.lstat q = .ok node ∧ node.isDirectory = true ∧ fs.locate false q = .ok l) ∨
    t.Enters q ∧ fs.canonical q = .ofLocation l

/-- The upper path is that of a directory below an entered link, and between it and the
    lower path two more links were entered. -/
structure Reencounters (t : Trace) (upper lower : Path) : Prop where
  plain : ¬ t.Enters upper
  inside : t.EntersAbove upper
  between : ∃ first second, t.Enters first ∧ t.Enters second ∧ first.Under upper ∧ second.Under first ∧
    second ≠ first ∧ lower.Under second

end Trace

namespace Scan

variable {s : Scan} {absolute : s.walk.root.isAbsolute = true} {place top base : Place} {links : Nat} {l : Location}
  {q : Path}

theorem enters_of_entrance (visited : s.Visits absolute place) {node : Node} {target : Path}
    (seen : s.reported? place = some (node, .symbolicLink)) (entered : s.entrance place = .ok (some target)) :
    s.trace.Enters place.path := by
  have said : .entered place.path target ∈ (s.sight place).1 := by simp [sight, seen, entered]
  exact ⟨target, (entered_iff absolute).2 (visited.sight_subset said)⟩

theorem exists_visit_of_enters (absolute : s.walk.root.isAbsolute = true) (enters : s.trace.Enters q) :
    ∃ place node target, s.Visits absolute place ∧ place.path = q ∧
      s.reported? place = some (node, .symbolicLink) ∧ s.entrance place = .ok (some target) := by
  obtain ⟨target, entered⟩ := enters
  obtain ⟨place, visited, said⟩ := exists_visit ((entered_iff absolute).1 entered)
  obtain ⟨rfl, entrance, node, seen⟩ := mem_sight_entered said
  exact ⟨place, node, target, visited, rfl, seen, entrance⟩

theorem not_enters_of_directory (absolute : s.walk.root.isAbsolute = true) {node : Node}
    (asked : s.walk.system.lstat q = .ok node) (directory : node.isDirectory = true) : ¬ s.trace.Enters q := by
  intro enters
  obtain ⟨place, node', _, _, rfl, seen, _⟩ := exists_visit_of_enters absolute enters
  obtain ⟨asked', known, _⟩ := reported?_eq_some seen
  obtain rfl := Except.ok.inj (asked.symm.trans asked')
  rw [(Node.kind?_eq_directory node).2 directory] at known
  cases known

namespace Opens

/-- What its path shows is where the open directory lies. -/
theorem liesAt_of_shows (opens : s.Opens place base) (visited : s.Visits absolute place)
    (shows : s.trace.Shows s.walk.system base.path l) : s.LiesAt base l := by
  cases opens with
  | @directory node seen =>
    obtain ⟨asked, known, _⟩ := reported?_eq_some seen
    have directory := (Node.kind?_eq_directory node).1 known
    rcases shows with ⟨_, _, _, named⟩ | ⟨enters, _⟩
    · cases located : place.location with
      | some p => exact .inl ((visited.sited located).eq_of_locate place.absolute named ▸ located)
      | none =>
        obtain ⟨l', named', there⟩ := FileSystem.lstat_eq_ok_iff.1 asked
        obtain rfl := Except.ok.inj (named.symm.trans named')
        exact .inr ⟨located, FileSystem.locate_followed_of_plain place.absolute named
          (FileSystem.nodeFor_eq_ok_iff.1 there).1 (Node.linkTarget?_of_isDirectory directory)⟩
    · exact absurd enters (not_enters_of_directory absolute asked directory)
  | @link node target seen entered =>
    have enters := enters_of_entrance visited seen entered
    rcases shows with ⟨_, asked, directory, _⟩ | ⟨_, canonical⟩
    · exact absurd enters (not_enters_of_directory absolute asked directory)
    · obtain ⟨t, rfl, canonical', _⟩ := (Opens.link seen entered).inside visited rfl
      exact .inl (congrArg some (canonical'.symm.trans canonical))

theorem exists_shows (opens : s.Opens place base) (visited : s.Visits absolute place) :
    ∃ l, s.trace.Shows s.walk.system base.path l := by
  cases opens with
  | @directory node seen =>
    obtain ⟨asked, known, _⟩ := reported?_eq_some seen
    obtain ⟨l, named, _⟩ := FileSystem.lstat_eq_ok_iff.1 asked
    exact ⟨l, .inl ⟨node, asked, (Node.kind?_eq_directory node).1 known, named⟩⟩
  | link seen entered =>
    have enters := enters_of_entrance visited seen entered
    obtain ⟨t, _, canonical, _⟩ := (Opens.link seen entered).inside visited rfl
    exact ⟨t, .inr ⟨enters, canonical⟩⟩

theorem exists_descends (opens : s.Opens place base) (visited : s.Visits absolute place) (above : base.path.Under q)
    (proper : q ≠ base.path) (inside : q.Under s.walk.root) :
    ∃ upper top links, s.Visits absolute upper ∧ s.Opens upper top ∧ top.path = q ∧
      s.Descends absolute top links base := by
  rw [opens.path_eq] at above proper
  obtain ⟨upper, top, links, middle, n, visited', opens', path, descends, rfl⟩ :=
    visited.exists_descends above proper inside
  cases opens with
  | directory seen => exact ⟨upper, top, links, visited', opens', path, .directory descends visited seen⟩
  | link seen entered => exact ⟨upper, top, links + 1, visited', opens', path, .link descends visited seen entered⟩

end Opens

/-- A path above a record, or its own, that shows a directory is that of an open one. -/
theorem exists_opens (absolute : s.walk.root.isAbsolute = true) {r : Record} (reported : r ∈ s.trace.records)
    (above : r.path.Under q) (inside : q.Under s.walk.root) (shows : q = r.path → s.trace.Shows s.walk.system q l) :
    ∃ place base, s.Visits absolute place ∧ s.Opens place base ∧ base.path = q := by
  rw [(tells_inventory absolute).records] at reported
  obtain ⟨place, node, kind, visited, seen, rfl⟩ := exists_visit_of_record reported
  rw [path_recordAt] at above shows
  by_cases own : q = place.path
  · subst own
    rcases shows rfl with ⟨node', asked, directory, _⟩ | ⟨enters, _⟩
    · obtain ⟨asked', known, _⟩ := reported?_eq_some seen
      obtain rfl := Except.ok.inj (asked.symm.trans asked')
      rw [(Node.kind?_eq_directory node').2 directory] at known
      cases known
      exact ⟨place, place, visited, .directory seen, rfl⟩
    · obtain ⟨place', _, target, visited', path, seen', entered⟩ := exists_visit_of_enters absolute enters
      exact ⟨place', place'.through target, visited', .link seen' entered, path⟩
  · obtain ⟨upper, top, _, _, _, visited', opens, path, _⟩ := visited.exists_descends above own inside
    exact ⟨upper, top, visited', opens, path⟩

/-- Two links that were entered between two open directories. -/
theorem Descends.exists_between (descends : s.Descends absolute top (links + 2) base) :
    ∃ first second, s.trace.Enters first ∧ s.trace.Enters second ∧ first.Under top.path ∧ second.Under first ∧
      second ≠ first ∧ base.path.Under second := by
  obtain ⟨lower, m, _, _, upwards, visited, seen, entered, below⟩ := descends.exists_last
  obtain ⟨upper, n, _, _, above, visited', seen', entered', between⟩ := upwards.exists_last
  refine ⟨(upper.child n).path, (lower.child m).path, enters_of_entrance visited' seen' entered',
    enters_of_entrance visited seen entered, (Path.child_under _ n).trans above.under,
    (Path.child_under _ m).trans between.under, fun same => ?_, below.under⟩
  have under : lower.path.Under (lower.child m).path := same ▸ between.under
  exact Path.not_under_child lower.path m under

/-- If one directory is shown twice on the path of a record, then the first time a
    directory below an entered link shows it, and two more links are entered before the second time. -/
theorem reencounters_of_shows (absolute : s.walk.root.isAbsolute = true) {r : Record}
    (reported : r ∈ s.trace.records) {upper lower : Path} (below : r.path.Under lower) (above : lower.Under upper)
    (inside : upper.Under s.walk.root) (proper : lower ≠ upper) (first : s.trace.Shows s.walk.system upper l)
    (again : s.trace.Shows s.walk.system lower l) : s.trace.Reencounters upper lower := by
  obtain ⟨place, base, visited, opens, rfl⟩ := exists_opens absolute reported below (above.trans inside) fun _ => again
  obtain ⟨place', top, links, visited', opens', rfl, descends⟩ :=
    opens.exists_descends visited above (Ne.symm proper) inside
  have lies := opens'.liesAt_of_shows visited' first
  obtain ⟨located, two, fresh⟩ := descends.same_location lies (opens.liesAt_of_shows visited again) proper
  obtain ⟨links, rfl⟩ := Nat.exists_eq_add_of_le' two
  have there := lies.resolve_right fun outside => located outside.1
  cases opens' with
  | @directory node seen =>
    obtain ⟨asked, known, _⟩ := reported?_eq_some seen
    exact ⟨not_enters_of_directory absolute asked ((Node.kind?_eq_directory node).1 known),
      (entersAbove_iff visited').2 located, descends.exists_between⟩
  | @link node target seen entered =>
    cases there
    exact absurd List.mem_cons_self fresh

/-- What a path shows is its canonical form, inside of entered links and where nothing is set to fail. -/
theorem canonical_of_shows (absolute : s.walk.root.isAbsolute = true) {r : Record} (reported : r ∈ s.trace.records)
    (below : r.path.Under q) (inside : q.Under s.walk.root) (shows : s.trace.Shows s.walk.system q l)
    (known : s.trace.Enters q ∨ s.trace.EntersAbove q ∨ s.walk.system.Faultless) :
    s.walk.system.canonical q = .ofLocation l := by
  obtain ⟨place, base, visited, opens, rfl⟩ := exists_opens absolute reported below inside fun _ => shows
  rcases opens.liesAt_of_shows visited shows with located | ⟨outside, followed⟩
  · obtain ⟨l', same, canonical, _⟩ := opens.inside visited located
    rw [canonical, same]
  · cases opens with
    | link _ _ => cases outside
    | @directory node seen =>
      obtain ⟨asked, directory, _⟩ := reported?_eq_some seen
      rcases known with enters | above | faultless
      · exact absurd enters (not_enters_of_directory absolute asked ((Node.kind?_eq_directory node).1 directory))
      · exact absurd outside ((entersAbove_iff visited).1 above)
      · exact FileSystem.canonical_of_locate faultless place.absolute followed

/-- Above a record each path shows a directory. What a path shows is its canonical form,
    outside of entered links at least where nothing is set to fail. No directory is shown
    twice, and no link entered whose target is shown above, but by a reencounter. -/
theorem open_directories_distinct (fs : FileSystem) (root : Path) (options : ScanOptions)
    (absolute : root.isAbsolute = true) {r : Record} (reported : r ∈ (ofOptions fs root options).trace.records) :
    let t := (ofOptions fs root options).trace
    (∀ q, r.path.Under q → q ≠ r.path → q.Under root → ∃ l, t.Shows fs q l) ∧
      (∀ q l, r.path.Under q → q.Under root → t.Shows fs q l →
        t.Enters q ∨ t.EntersAbove q ∨ fs.Faultless → fs.canonical q = .ofLocation l) ∧
      (∀ upper lower l, r.path.Under lower → lower.Under upper → upper.Under root → lower ≠ upper →
        t.Shows fs upper l → t.Shows fs lower l → t.Reencounters upper lower) ∧
      ∀ upper l, r.path.Under upper → r.path ≠ upper → upper.Under root → t.Shows fs upper l →
        (fs.resolveLink r.path).target = some (.ofLocation l) → ¬ t.Reencounters upper r.path → ¬ t.Enters r.path := by
  intro t
  have distinct : ∀ upper lower l, r.path.Under lower → lower.Under upper → upper.Under root → lower ≠ upper →
      t.Shows fs upper l → t.Shows fs lower l → t.Reencounters upper lower :=
    fun _ _ _ below above inside proper => reencounters_of_shows absolute reported below above inside proper
  refine ⟨fun q above proper inside => ?_, fun q l above inside => canonical_of_shows absolute reported above inside,
    distinct, fun upper l above proper inside shows leads new enters => new ?_⟩
  · obtain ⟨place, base, visited, opens, rfl⟩ :=
      exists_opens (l := []) absolute reported above inside fun own => absurd own proper
    exact opens.exists_shows visited
  · obtain ⟨place, _, _, _, path, _⟩ := exists_visit_of_enters absolute enters
    obtain ⟨t', same, _, settles, _⟩ :=
      FileSystem.strictForm_firm (path ▸ place.absolute) (FileSystem.resolveLink_target leads).1
    exact distinct _ _ _ (Path.under_refl _) above inside proper shows
      (.inr ⟨enters, (FileSystem.canonical_of_settles settles).trans same.symm⟩)

end Scan

/-- Inside of a link into `x`, a link leads to `y`, and from there one back to a directory
    between the two. -/
def FileSystem.returnTree : FileSystem :=
  let node (path : String) (content : Content) : NodeSpec := ⟨.ofText path.toList, content, none, ⟨0, 0, 0⟩, []⟩
  .ofSpecs [node "/s/k" (.link "/x".toList), node "/x/a/on" (.link "/y".toList),
    node "/y/back" (.link "/x/a".toList)] ⟨.slash, []⟩

namespace Scan

def ofReturnTree : Scan := ofOptions .returnTree (.ofText "/s".toList) ⟨some ⟨.slash, []⟩, false, fun _ _ => false⟩

/-- The path of `/x/a` as it is met first. -/
def firstPath : Path := .ofText "/s/k/a".toList

/-- The path of the link that leads back to `/x/a`. -/
def secondPath : Path := .ofText "/s/k/a/on/back".toList

/-- A link to a directory that is open above is entered, and what is below is reported again. -/
theorem directory_shown_again :
    let t := ofReturnTree.trace
    let record : Record :=
      ⟨.ofText "/s/k/a/on/back/on".toList, 1, "/y".toList, 2, .symbolicLink, Times.stamps ⟨0, 0, 0⟩⟩
    record ∈ t.records ∧ record.path.Under secondPath ∧ secondPath.Under firstPath ∧
      firstPath.Under ofReturnTree.walk.root ∧ secondPath ≠ firstPath ∧ t.Enters secondPath ∧
      ∃ l, t.Shows .returnTree firstPath l ∧ t.Shows .returnTree secondPath l ∧
        FileSystem.returnTree.canonical firstPath = FileSystem.returnTree.canonical secondPath := by
  have enters : ofReturnTree.trace.Enters secondPath := ⟨.ofText "/x/a".toList, 3, by decide +kernel⟩
  refine ⟨by decide +kernel, by decide, by decide, by decide, by decide, enters,
    [⟨"x".toList, by decide⟩, ⟨"a".toList, by decide⟩], .inl ⟨.plainDirectory, ?_⟩, .inr ⟨enters, ?_⟩, ?_⟩
  all_goals decide +kernel

theorem open_directories_distinct_returnTree :
    ∃ r ∈ ofReturnTree.trace.records, r.path.Under secondPath ∧
      ofReturnTree.trace.Reencounters firstPath secondPath ∧
      FileSystem.returnTree.canonical firstPath = FileSystem.returnTree.canonical secondPath := by
  have inside : ⟨.ofText "/s/k/a/on/back/on".toList, 1, "/y".toList, 2, .symbolicLink, Times.stamps ⟨0, 0, 0⟩⟩ ∈
      ofReturnTree.trace.records := by decide +kernel
  obtain ⟨_, spelled, distinct, _⟩ := open_directories_distinct .returnTree (.ofText "/s".toList) _ (by decide) inside
  have enters : ofReturnTree.trace.Enters secondPath := ⟨.ofText "/x/a".toList, 3, by decide +kernel⟩
  have entersAbove : ofReturnTree.trace.EntersAbove firstPath :=
    ⟨.ofText "/s/k".toList, ⟨.ofText "/x".toList, 1, by decide +kernel⟩, by decide, by decide⟩
  let l : Location := [⟨"x".toList, by decide⟩, ⟨"a".toList, by decide⟩]
  have first : ofReturnTree.trace.Shows .returnTree firstPath l := .inl ⟨.plainDirectory, by decide +kernel⟩
  have again : ofReturnTree.trace.Shows .returnTree secondPath l := .inr ⟨enters, by decide +kernel⟩
  refine ⟨_, inside, by decide, distinct _ _ l (by decide) (by decide) (by decide) (by decide) first again, ?_⟩
  exact (spelled _ l (by decide) (by decide) first (.inr (.inl entersAbove))).trans
    (spelled _ l (by decide) (by decide) again (.inl enters)).symm

end Scan
end Inventory
