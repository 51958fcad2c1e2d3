import Inventory.Exclusion
import Inventory.Proofs.Course
import Inventory.Proofs.RuleVerdict
import Mathlib.Data.List.Infix

/-!
What an exclusion cuts is gone with all that is below it, and nothing else is changed: a
tour of the scan without an exclusion, with the stops left out that are cut or lie below
one that is cut, is a tour of the scan with the exclusion (`Scan.Tour.excluding`). For
patterns and rules this says which records are left (`Scan.filtering`).
-/
namespace Inventory

/-- The path names a directory; a link is none, wherever it leads. -/
def FileSystem.showsDirectory (fs : FileSystem) (p : Path) : Bool :=
  match fs.lstat p with
  | .error _ => false
  | .ok node => node.content = .directory

/-- From the root on to a path, some names on the way lead to an entry that is excluded. -/
def CutBelow (fs : FileSystem) (root : Path) (excludes : Path → Bool → Bool) (p : Path) : Prop :=
  ∃ names more, p = root.extend (names ++ more) ∧ names ≠ [] ∧
    excludes ⟨.relative, names⟩ (fs.showsDirectory (root.extend names)) = true

namespace CutBelow

variable {fs : FileSystem} {root p q : Path} {below : List Component} {excludes : Path → Bool → Bool}

theorem extend_iff : CutBelow fs root excludes (root.extend below) ↔
    ∃ names, names <+: below ∧ names ≠ [] ∧
      excludes ⟨.relative, names⟩ (fs.showsDirectory (root.extend names)) = true := by
  constructor
  · rintro ⟨names, more, same, rest⟩
    have whole : below = names ++ more := List.append_cancel_left (congrArg Path.parts same)
    exact ⟨names, ⟨more, whole.symm⟩, rest⟩
  · rintro ⟨names, ⟨more, rfl⟩, rest⟩
    exact ⟨names, more, rfl, rest⟩

theorem iff_inits : CutBelow fs root excludes p ↔
    p.Under root ∧ ∃ names ∈ (p.parts.drop root.parts.length).inits, names ≠ [] ∧
      excludes ⟨.relative, names⟩ (fs.showsDirectory (root.extend names)) = true := by
  constructor
  · rintro ⟨names, more, rfl, rest⟩
    have inside : names <+: ((root.extend (names ++ more)).parts.drop root.parts.length) := by simp [Path.extend]
    exact ⟨Path.extend_under root _, names, (List.mem_inits ..).2 inside, rest⟩
  · rintro ⟨under, names, inside, rest⟩
    obtain ⟨below, rfl⟩ := Path.under_iff_exists_extend.1 under
    exact extend_iff.2 ⟨names, by simpa [Path.extend] using (List.mem_inits ..).1 inside, rest⟩

instance : Decidable (CutBelow fs root excludes p) := decidable_of_iff' _ iff_inits

theorem mono (cut : CutBelow fs root excludes q) (under : p.Under q) : CutBelow fs root excludes p := by
  obtain ⟨names, more, rfl, rest⟩ := cut
  obtain ⟨further, rfl⟩ := Path.under_iff_exists_extend.1 under
  exact ⟨names, more ++ further, by simp [Path.extend], rest⟩

/-- The root is never cut. -/
theorem not_root : ¬ CutBelow fs root excludes root := by
  rintro ⟨names, more, same, named, _⟩
  have empty : names ++ more = [] := List.append_right_eq_self.1 (congrArg Path.parts same).symm
  exact named (List.append_eq_nil_iff.1 empty).1

/-- A child is cut with its directory, or if it is excluded itself. -/
theorem child_iff {n : Name} {below : Path} (inside : p.Under root)
    (relative : (p.child n).relativeTo? root = some below) :
    CutBelow fs root excludes (p.child n) ↔
      CutBelow fs root excludes p ∨ excludes below (fs.showsDirectory (p.child n)) = true := by
  obtain ⟨names, rfl⟩ := Path.under_iff_exists_extend.1 inside
  have child : (root.extend names).child n = root.extend (names ++ [.name n]) := by simp [Path.child, Path.extend]
  rw [child, Path.relativeTo?_extend, Option.some_inj] at relative
  subst relative
  rw [child, extend_iff, extend_iff]
  simp only [List.prefix_concat_iff]
  constructor
  · rintro ⟨_, rfl | upper, named, excluded⟩
    · exact .inr excluded
    · exact .inl ⟨_, upper, named, excluded⟩
  · rintro (⟨names', upper, rest⟩ | excluded)
    · exact ⟨names', .inr upper, rest⟩
    · exact ⟨_, .inl rfl, by simp, excluded⟩

end CutBelow

/-- An entry is excluded if a pattern covers its name, or the rules ignore it. -/
theorem Exclusion.predicate_ofParts? (patterns : List Text) (rules : Option IgnoreRules) (p : Path) (directory : Bool) :
    predicate (ofParts? patterns rules) p directory = true ↔
      (∃ pattern ∈ patterns, (Wildcard.ofText pattern).covers p.lastName = true) ∨
        ∃ given ∈ rules, given.ignores p directory = true := by
  cases patterns with
  | nil => cases rules <;> simp [ofParts?, predicate, excludes]
  | cons => cases rules <;> simp [ofParts?, predicate, excludes, coversName]

/-- Patterns in another order, or repeated, exclude the same. -/
theorem Exclusion.predicate_congr {patterns patterns' : List Text} (rules : Option IgnoreRules)
    (same : ∀ pattern, pattern ∈ patterns ↔ pattern ∈ patterns') :
    predicate (ofParts? patterns rules) = predicate (ofParts? patterns' rules) := by
  funext p directory
  rw [Bool.eq_iff_iff, predicate_ofParts?, predicate_ofParts?]
  simp only [same]

/-- The names below a root that a path goes through are the last names of the
    paths on the way to it. -/
theorem Path.exists_lastName_iff (below : List Component) (holds : Text → Prop) :
    (∃ names, names <+: below ∧ names ≠ [] ∧ holds (Path.lastName ⟨.relative, names⟩)) ↔
      ∃ c ∈ below, holds c.text := by
  constructor
  · rintro ⟨names, inside, named, here⟩
    obtain ⟨init, c, rfl⟩ := (List.eq_nil_or_concat names).resolve_left named
    rw [List.concat_eq_append] at here inside
    exact ⟨c, inside.subset (by simp), by simpa [lastName] using here⟩
  · rintro ⟨c, among, here⟩
    obtain ⟨init, after, rfl⟩ := List.append_of_mem among
    exact ⟨init ++ [c], ⟨after, by simp⟩, by simp, by simpa [lastName] using here⟩

/-- Patterns and rules cut a path if a pattern covers a name on it, or the rules take
    out the names up to an entry on the way, with a slash behind a directory. -/
theorem CutBelow.predicate_iff (fs : FileSystem) (patterns : List Text) (rules : Option IgnoreRules)
    (root : Path) (below : List Component) :
    CutBelow fs root (Exclusion.predicate (Exclusion.ofParts? patterns rules)) (root.extend below) ↔
      (∃ c ∈ below, ∃ pattern ∈ patterns, (Wildcard.ofText pattern).covers c.text = true) ∨
        ∃ given ∈ rules, ∃ names, names <+: below ∧ names ≠ [] ∧
          given.Takes (Text.joined '/' (names.map Component.text) ++
            if fs.showsDirectory (root.extend names) then ['/'] else []) := by
  rw [extend_iff, ← Path.exists_lastName_iff below fun name =>
    ∃ pattern ∈ patterns, (Wildcard.ofText pattern).covers name = true]
  constructor
  · rintro ⟨names, inside, named, excluded⟩
    rcases (Exclusion.predicate_ofParts? ..).1 excluded with covered | ⟨given, chosen, ignored⟩
    · exact .inl ⟨names, inside, named, covered⟩
    · exact .inr ⟨given, chosen, names, inside, named, (IgnoreRules.ignores_iff named _).1 ignored⟩
  · rintro (⟨names, inside, named, covered⟩ | ⟨given, chosen, names, inside, named, taken⟩)
    · exact ⟨names, inside, named, (Exclusion.predicate_ofParts? ..).2 (.inl covered)⟩
    · exact ⟨names, inside, named,
        (Exclusion.predicate_ofParts? ..).2 (.inr ⟨given, chosen, (IgnoreRules.ignores_iff named _).2 taken⟩)⟩

/-- What more patterns cut. -/
theorem CutBelow.of_subset {fs : FileSystem} {root p : Path} {patterns patterns' : List Text}
    {rules : Option IgnoreRules} (more : patterns ⊆ patterns')
    (cut : CutBelow fs root (Exclusion.predicate (Exclusion.ofParts? patterns rules)) p) :
    CutBelow fs root (Exclusion.predicate (Exclusion.ofParts? patterns' rules)) p := by
  obtain ⟨names, below, whole, named, excluded⟩ := cut
  refine ⟨names, below, whole, named, ?_⟩
  rcases (Exclusion.predicate_ofParts? ..).1 excluded with ⟨pattern, among, covered⟩ | ignored
  · exact (Exclusion.predicate_ofParts? ..).2 (.inl ⟨pattern, more among, covered⟩)
  · exact (Exclusion.predicate_ofParts? ..).2 (.inr ignored)

/-- The walked path that an event is about. -/
def Event.path : Event → Path
  | record r => r.path
  | entered link _ => link

namespace Scan

variable {s : Scan}

/-- The same scan with an exclusion. -/
def excluding (s : Scan) (excludes : Path → Bool → Bool) : Scan := { s with walk := { s.walk with excludes } }

/-- What the exclusion of a scan cuts. -/
def Cut (s : Scan) (excludes : Path → Bool → Bool) (p : Path) : Prop :=
  CutBelow s.walk.system s.walk.root excludes p

instance (excludes : Path → Bool → Bool) (p : Path) : Decidable (s.Cut excludes p) :=
  inferInstanceAs (Decidable (CutBelow ..))

/-- Nothing is excluded. -/
def Unfiltered (s : Scan) : Prop := ∀ below directory, s.walk.excludes below directory = false

/-! ## Tours with and without an exclusion -/

theorem shown_ofNode {fs : FileSystem} {p : Path} {node : Node} {kind : EntryKind} {depth : Nat}
    (asked : fs.lstat p = .ok node) (known : node.kind? = some kind) :
    decide ((Entry.ofNode p kind node depth).kind = .directory) = fs.showsDirectory p := by
  have shown : fs.showsDirectory p = node.isDirectory := by
    simp only [FileSystem.showsDirectory, asked, Node.isDirectory]
  have same : kind = .directory ↔ node.isDirectory = true := by
    rw [← Node.kind?_eq_directory, known, Option.some_inj]
  rw [shown, Bool.eq_iff_iff, decide_eq_true_iff]
  exact same

/-- What a walk hands out is a child of the directory, with the kind that the system shows. -/
theorem visit_entry {p : Path} {depth : Nat} {n : Name} {e : Entry} (handed : s.walk.visit p depth n = .entry e) :
    e.path = p.child n ∧ decide (e.kind = .directory) = s.walk.system.showsDirectory (p.child n) := by
  obtain ⟨node, kind, _, asked, known, _, _, rfl⟩ := Walk.visit_eq_entry handed
  exact ⟨rfl, shown_ofNode asked known⟩

theorem visit_excluding_passed (plain : s.Unfiltered) (excludes : Path → Bool → Bool) {p : Path} {depth : Nat}
    {n : Name} {why : Notice} (passed : s.walk.visit p depth n = .passedOver why) :
    (s.excluding excludes).walk.visit p depth n = .passedOver why := by
  unfold Walk.visit at passed ⊢
  simp only [excluding] at passed ⊢
  split at passed
  · cases passed
    rfl
  · split at passed
    · cases passed
      rfl
    · split at passed
      · cases passed
      · simp [plain _ _] at passed

theorem visit_excluding_entry (excludes : Path → Bool → Bool) {p : Path} {depth : Nat} {n : Name} {e : Entry}
    (handed : s.walk.visit p depth n = .entry e) :
    ∃ below, (p.child n).relativeTo? s.walk.root = some below ∧
      (s.excluding excludes).walk.visit p depth n =
        if excludes below (s.walk.system.showsDirectory (p.child n)) = true then .passedOver (.excluded (p.child n))
        else .entry e := by
  obtain ⟨_, shown⟩ := visit_entry handed
  obtain ⟨node, kind, below, asked, known, relative, _, rfl⟩ := Walk.visit_eq_entry handed
  refine ⟨below, relative, ?_⟩
  rw [← shown]
  simp only [Walk.visit, excluding, asked, known, relative, Entry.ofNode]
  rfl

theorem Tour.handed {opened : List Opened} {stops : List Stop} (tour : s.Tour opened stops) :
    ∀ stop ∈ stops, ∃ p depth n, s.walk.visit p depth n = .entry stop.entry := by
  induction tour with
  | done => simp
  | up _ ih | past _ _ ih => exact ih
  | stop handed _ _ _ ihInside ih =>
    intro stop inside
    rcases List.mem_cons.1 inside with rfl | inside
    · exact ⟨_, _, _, handed⟩
    · exact (List.mem_append.1 inside).elim (ihInside stop) (ih stop)

/-- All stops of a tour lie at or below children of its directories whose turn is still to come. -/
theorem Tour.under_child {opened : List Opened} {stops : List Stop} (tour : s.Tour opened stops) :
    ∀ stop ∈ stops, ∃ d ∈ opened, ∃ n ∈ d.stream.pending, stop.entry.path.Under (d.stream.path.child n) := by
  induction tour with
  | done => simp
  | up _ ih =>
    intro stop inside
    obtain ⟨d, among, later⟩ := ih stop inside
    exact ⟨d, List.mem_cons_of_mem _ among, later⟩
  | past _ _ ih =>
    intro stop inside
    obtain ⟨d, among, m, turn, under⟩ := ih stop inside
    rcases List.mem_cons.1 among with rfl | among
    · exact ⟨_, List.mem_cons_self, m, List.mem_cons_of_mem _ turn, under⟩
    · exact ⟨d, List.mem_cons_of_mem _ among, m, turn, under⟩
  | @stop p depth n names active outer opened below stops e handed goes _ _ ihInside ih =>
    have here : e.path.Under (p.child n) := (visit_entry handed).1 ▸ Path.under_refl _
    intro stop inside
    rcases List.mem_cons.1 inside with rfl | inside
    · exact ⟨_, List.mem_cons_self, n, List.mem_cons_self, here⟩
    · rcases List.mem_append.1 inside with inside | inside
      · obtain ⟨d, among, m, _, under⟩ := ihInside stop inside
        have upper : stop.entry.path.Under e.path :=
          under.trans (path_of_onward goes d among ▸ Path.child_under d.stream.path m)
        exact ⟨_, List.mem_cons_self, n, List.mem_cons_self, upper.trans here⟩
      · obtain ⟨d, among, m, turn, under⟩ := ih stop inside
        rcases List.mem_cons.1 among with rfl | among
        · exact ⟨_, List.mem_cons_self, m, List.mem_cons_of_mem _ turn, under⟩
        · exact ⟨d, List.mem_cons_of_mem _ among, m, turn, under⟩

/-- All stops of a tour lie below its directories. -/
theorem Tour.under {opened : List Opened} {stops : List Stop} (tour : s.Tour opened stops) :
    ∀ stop ∈ stops, ∃ d ∈ opened, stop.entry.path.Under d.stream.path := by
  intro stop inside
  obtain ⟨d, among, n, _, under⟩ := tour.under_child stop inside
  exact ⟨d, among, under.trans (Path.child_under d.stream.path n)⟩

/-- A tour without an exclusion is, but for what is cut, a tour with it. -/
theorem Tour.excluding (plain : s.Unfiltered) (excludes : Path → Bool → Bool) {opened : List Opened}
    {stops : List Stop} (tour : s.Tour opened stops)
    (kept : ∀ d ∈ opened, d.stream.path.Under s.walk.root ∧ ¬ s.Cut excludes d.stream.path) :
    (s.excluding excludes).Tour opened (stops.filter fun stop => ¬ s.Cut excludes stop.entry.path) := by
  induction tour with
  | done => exact .done
  | up _ ih => exact .up (ih fun d among => kept d (List.mem_cons_of_mem _ among))
  | @past p depth n names active outer stops why passed rest ih =>
    have first := kept ⟨⟨p, depth, n :: names⟩, active⟩ List.mem_cons_self
    refine .past (visit_excluding_passed plain excludes passed) (ih fun d among => ?_)
    rcases List.mem_cons.1 among with rfl | among
    · exact first
    · exact kept d (List.mem_cons_of_mem _ among)
  | @stop p depth n names active outer opened below stops e handed goes inside rest ihInside ih =>
    obtain ⟨under, whole⟩ := kept _ List.mem_cons_self
    have path := (visit_entry handed).1
    have around : ∀ d ∈ (⟨⟨p, depth, names⟩, active⟩ :: outer : List Opened),
        d.stream.path.Under s.walk.root ∧ ¬ s.Cut excludes d.stream.path := by
      intro d among
      rcases List.mem_cons.1 among with rfl | among
      · exact ⟨under, whole⟩
      · exact kept d (List.mem_cons_of_mem _ among)
    obtain ⟨relative, known, visited⟩ := visit_excluding_entry excludes handed
    have cut : s.Cut excludes e.path ↔ excludes relative (s.walk.system.showsDirectory (p.child n)) = true := by
      rw [path, Cut, CutBelow.child_iff under known]
      exact or_iff_right whole
    by_cases excluded : s.Cut excludes e.path
    · -- The entry is passed over, and all that is below it is cut.
      have gone : below.filter (fun stop => ¬ s.Cut excludes stop.entry.path) = [] := by
        refine List.filter_eq_nil_iff.2 fun stop among => ?_
        obtain ⟨d, open', further⟩ := inside.under stop among
        rw [path_of_onward goes d open'] at further
        have cut : s.Cut excludes stop.entry.path := CutBelow.mono excluded further
        simpa using cut
      rw [if_pos (cut.1 excluded)] at visited
      rw [List.filter_cons_of_neg (by simpa using excluded), List.filter_append, gone, List.nil_append]
      exact .past visited (ih around)
    · rw [if_neg (mt cut.2 excluded)] at visited
      rw [List.filter_cons_of_pos (by simpa using excluded), List.filter_append]
      refine .stop visited goes (ihInside fun d open' => ?_) (ih around)
      rw [path_of_onward goes d open']
      exact ⟨path ▸ (Path.child_under p n).trans under, excluded⟩

theorem mem_records_iff {events : List Event} {r : Record} :
    r ∈ events.filterMap Event.record? ↔ .record r ∈ events := by
  simp only [List.mem_filterMap]
  constructor
  · rintro ⟨ev, inside, same⟩
    cases ev with
    | record r' =>
      cases same
      exact inside
    | entered => cases same
  · exact fun inside => ⟨_, inside, rfl⟩

theorem records_filter (keep : Path → Bool) (events : List Event) :
    (events.filter fun ev => keep ev.path).filterMap Event.record? =
      (events.filterMap Event.record?).filter fun r => keep r.path := by
  rw [List.filterMap_filter, List.filter_filterMap]
  refine List.filterMap_congr fun ev _ => ?_
  cases ev with
  | record r => rfl
  | entered link target => exact ite_self _

theorem path_report (fs : FileSystem) (stack : RedirectionStack) (e : Entry) :
    (Scanner.report fs stack e).1.path = e.path := by
  unfold Scanner.report
  split <;> rfl

/-- What is made known at a stop has its path. -/
theorem path_of_told {stop : Stop} {ev : Event} (told : ev ∈ s.told stop) : ev.path = stop.entry.path := by
  unfold Scan.told at told
  split at told
  · rcases List.mem_cons.1 told with rfl | told
    · exact path_report ..
    · split at told
      · obtain rfl := List.mem_singleton.1 told
        rfl
      · cases told
  · cases told

/-- A link that is entered at a stop is the entry there. -/
theorem kind_of_told {stop : Stop} {link target : Path} (told : .entered link target ∈ s.told stop) :
    stop.entry.kind = .symbolicLink := by
  by_contra plain
  unfold Scan.told at told
  rw [verdict_of_plain plain] at told
  split at told <;> simp at told

theorem flatMap_told_filter (keep : Path → Bool) (stops : List Stop) :
    (stops.filter fun stop => keep stop.entry.path).flatMap s.told =
      (stops.flatMap s.told).filter fun ev => keep ev.path := by
  induction stops with
  | nil => rfl
  | cons stop stops ih =>
    have same : ∀ ev ∈ s.told stop, keep ev.path = keep stop.entry.path := fun ev told => by rw [path_of_told told]
    rw [List.flatMap_cons, List.filter_append]
    cases keeps : keep stop.entry.path with
    | false =>
      have none : (s.told stop).filter (fun ev => keep ev.path) = [] :=
        List.filter_eq_nil_iff.2 fun ev told => by simp [same ev told, keeps]
      rw [List.filter_cons_of_neg (by simp [keeps]), ih, none, List.nil_append]
    | true =>
      have all : (s.told stop).filter (fun ev => keep ev.path) = s.told stop :=
        List.filter_eq_self.2 fun ev told => (same ev told).trans keeps
      rw [List.filter_cons_of_pos (by exact keeps), List.flatMap_cons, ih, all]

/-- The root is where a course starts. -/
theorem path_of_enterRoot {e : Entry} {streams : List Stream} (enters : s.walk.enterRoot = .ok (e, streams)) :
    e.path = s.walk.root := by
  obtain ⟨node, kind, _, _, rfl, _⟩ := Walk.enterRoot_eq_ok enters
  rfl

theorem Course.under {stops : List Stop} (course : s.Course stops) :
    ∀ stop ∈ stops, stop.entry.path.Under s.walk.root := by
  obtain ⟨e, streams, opened, more, enters, goes, tour, rfl⟩ := course
  have path := path_of_enterRoot enters
  intro stop inside
  rcases List.mem_cons.1 inside with rfl | inside
  · exact path ▸ Path.under_refl _
  · obtain ⟨d, open', under⟩ := tour.under stop inside
    rw [path_of_onward goes d open'] at under
    exact path ▸ under

/-- The kind of an entry says whether its path shows a directory. -/
theorem Course.shown {stops : List Stop} (course : s.Course stops) :
    ∀ stop ∈ stops, decide (stop.entry.kind = .directory) = s.walk.system.showsDirectory stop.entry.path := by
  obtain ⟨e, streams, opened, more, enters, goes, tour, rfl⟩ := course
  intro stop inside
  rcases List.mem_cons.1 inside with rfl | inside
  · obtain ⟨node, kind, asked, known, rfl, _⟩ := Walk.enterRoot_eq_ok enters
    exact shown_ofNode asked known
  · obtain ⟨p, depth, n, handed⟩ := tour.handed stop inside
    rw [(visit_entry handed).1]
    exact (visit_entry handed).2

/-- A course without an exclusion is, but for what is cut, one with it. -/
theorem Course.excluding (plain : s.Unfiltered) (excludes : Path → Bool → Bool) {stops : List Stop}
    (course : s.Course stops) :
    (s.excluding excludes).Course (stops.filter fun stop => ¬ s.Cut excludes stop.entry.path) := by
  obtain ⟨e, streams, opened, more, enters, goes, tour, rfl⟩ := course
  have path := path_of_enterRoot enters
  have whole : ¬ s.Cut excludes e.path := path ▸ CutBelow.not_root
  refine ⟨e, streams, opened, _, enters, goes, tour.excluding plain excludes fun d open' => ?_, ?_⟩
  · rw [path_of_onward goes d open']
    exact ⟨path ▸ Path.under_refl _, whole⟩
  · exact List.filter_cons_of_pos (by simpa using whole)

/-! ## Whole scans -/

section Complete

variable (completes : s.trace.ending = .complete)

include completes

/-- Where a scan without an exclusion completes, the scan with it does, and makes
    known the same but for what is cut. -/
theorem trace_excluding (plain : s.Unfiltered) (excludes : Path → Bool → Bool) :
    (s.excluding excludes).trace.ending = .complete ∧
      (s.excluding excludes).trace.events = s.trace.events.filter fun ev => ¬ s.Cut excludes ev.path := by
  obtain ⟨stops, course, short, events⟩ := exists_course completes
  have shorter := Nat.lt_of_le_of_lt (List.length_filter_le (fun stop => ¬ s.Cut excludes stop.entry.path) stops) short
  obtain ⟨completes', events'⟩ := trace_of_course (course.excluding plain excludes) shorter
  refine ⟨completes', ?_⟩
  rw [events, events']
  exact flatMap_told_filter (fun p => ¬ s.Cut excludes p) stops

theorem records_excluding (plain : s.Unfiltered) (excludes : Path → Bool → Bool) :
    (s.excluding excludes).trace.records = s.trace.records.filter fun r => ¬ s.Cut excludes r.path := by
  rw [Trace.records_eq, Trace.records_eq, (trace_excluding completes plain excludes).2]
  exact records_filter (fun p => ¬ s.Cut excludes p) _

/-- What is made known lies at or below the root. -/
theorem under_of_event {ev : Event} (inside : ev ∈ s.trace.events) : ev.path.Under s.walk.root := by
  obtain ⟨stops, course, _, events⟩ := exists_course completes
  rw [events] at inside
  obtain ⟨stop, among, told⟩ := List.mem_flatMap.1 inside
  rw [path_of_told told]
  exact course.under stop among

/-- A link that is entered is asked about as a link. -/
theorem shown_of_entered {link target : Path} (inside : .entered link target ∈ s.trace.events) :
    s.walk.system.showsDirectory link = false := by
  obtain ⟨stops, course, _, events⟩ := exists_course completes
  rw [events] at inside
  obtain ⟨stop, among, told⟩ := List.mem_flatMap.1 inside
  rw [show link = stop.entry.path from path_of_told told]
  refine (course.shown stop among).symm.trans (decide_eq_false ?_)
  rw [kind_of_told told]
  decide

/-- The record of the root comes first. -/
theorem exists_first_record : ∃ first rest, s.trace.records = first :: rest ∧ first.path = s.walk.root := by
  obtain ⟨stops, ⟨e, streams, opened, more, enters, _, _, rfl⟩, _, events⟩ := exists_course completes
  rw [Trace.records_eq, events, List.flatMap_cons, told_of_reports (reports_root s e)]
  exact ⟨_, _, rfl, (path_report ..).trans (path_of_enterRoot enters)⟩

end Complete

/-- Where the scan without a filter completes, a filter takes out the records of
    what is excluded and of what is below, and changes nothing else: the root stays,
    and a link is asked about as one even where it is entered. With patterns and
    rules, a record stays if no pattern covers a name on its path below the root and
    from the root on to it the rules take out no start of that path, written with a
    slash behind a directory. So the order of patterns and their repetition make no
    difference, and more of them take out more. -/
theorem filtering {fs : FileSystem} {root : Path} {localRoot : Option Path} {sorted : Bool}
    (completes : (ofOptions fs root ⟨localRoot, sorted, fun _ _ => false⟩).trace.ending = .complete) :
    let scan (excludes : Path → Bool → Bool) := (ofOptions fs root ⟨localRoot, sorted, excludes⟩).trace
    let plain := scan fun _ _ => false
    let built (patterns : List Text) (rules : Option IgnoreRules) :=
      scan (Exclusion.predicate (Exclusion.ofParts? patterns rules))
    (∀ excludes, (scan excludes).ending = .complete ∧
        (scan excludes).records = plain.records.filter (fun r => ¬ CutBelow fs root excludes r.path) ∧
        ∃ first, first.path = root ∧ plain.records.head? = some first ∧ (scan excludes).records.head? = some first) ∧
      (∀ link target, .entered link target ∈ plain.events → fs.showsDirectory link = false) ∧
      (∀ patterns rules, ∀ r ∈ plain.records, ∃ below, r.path = root.extend below ∧
        (r ∈ (built patterns rules).records ↔
          (∀ c ∈ below, ∀ pattern ∈ patterns, ¬ (Wildcard.ofText pattern).covers c.text) ∧
          ∀ given ∈ rules, ∀ names, names <+: below → names ≠ [] →
            ¬ given.Takes (Text.joined '/' (names.map Component.text) ++
              if fs.showsDirectory (root.extend names) then ['/'] else []))) ∧
      (∀ patterns patterns' rules, (∀ pattern, pattern ∈ patterns ↔ pattern ∈ patterns') →
        built patterns rules = built patterns' rules) ∧
      ∀ patterns patterns' rules, patterns ⊆ patterns' →
        (built patterns' rules).records.Sublist (built patterns rules).records := by
  intro scan plain built
  have plainly : (ofOptions fs root ⟨localRoot, sorted, fun _ _ => false⟩).Unfiltered := fun _ _ => rfl
  have kept (excludes : Path → Bool → Bool) :
      (scan excludes).records = plain.records.filter (fun r => ¬ CutBelow fs root excludes r.path) :=
    records_excluding completes plainly excludes
  refine ⟨fun excludes => ⟨(trace_excluding completes plainly excludes).1, kept excludes, ?_⟩,
    fun link target entered => shown_of_entered completes entered, fun patterns rules r inside => ?_,
    fun patterns patterns' rules same => ?_, fun patterns patterns' rules more => ?_⟩
  · obtain ⟨first, rest, whole, path⟩ := exists_first_record completes
    have stays : ¬ CutBelow fs root excludes first.path := path ▸ CutBelow.not_root
    refine ⟨first, path, by rw [show plain.records = _ from whole, List.head?_cons], ?_⟩
    rw [kept, show plain.records = _ from whole, List.filter_cons_of_pos (by simpa using stays), List.head?_cons]
  · have made : .record r ∈ plain.events := by
      rw [Trace.records_eq, mem_records_iff] at inside
      exact inside
    have under : r.path.Under root := under_of_event completes made
    obtain ⟨below, path⟩ := Path.under_iff_exists_extend.1 under
    have stays := not_congr (CutBelow.predicate_iff fs patterns rules root below)
    rw [← path] at stays
    refine ⟨below, path, ?_⟩
    rw [kept, List.mem_filter, decide_eq_true_iff, and_iff_right inside, stays]
    push Not
    rfl
  · simp only [built, Exclusion.predicate_congr rules same]
  · rw [kept, show (built patterns rules).records = _ from kept _]
    refine List.monotone_filter_right _ fun r stays => ?_
    rw [decide_eq_true_iff] at stays ⊢
    exact mt (CutBelow.of_subset more) stays

end Scan

/-- A directory `/s` with a directory `d` and a link to `/l`, where `d` is a file, and
    from where a link leads on to `/m`. -/
def FileSystem.branchedTree : FileSystem :=
  let node (path : String) (content : Content) : NodeSpec := ⟨.ofText path.toList, content, none, ⟨0, 0, 0⟩, []⟩
  .ofSpecs [node "/s/d/f" (.regular []), node "/s/k" (.link "/l".toList), node "/l/d" (.regular []),
    node "/l/g" (.regular []), node "/l/on" (.link "../m".toList), node "/m/h" (.regular [])] ⟨.slash, []⟩

namespace Scan

/-- The rule `d/` takes out the directory `d` and not the file `d` below the entered
    link `k`, where a pattern takes out the link `on`. -/
theorem filtering_branchedTree :
    let scan (excludes : Path → Bool → Bool) :=
      (ofOptions .branchedTree (.ofText "/s".toList) ⟨some ⟨.slash, []⟩, false, excludes⟩).trace
    let plain := scan fun _ _ => false
    let rules := (IgnoreRules.ofLines ["d/".toList]).toOption
    let built (patterns : List Text) := scan (Exclusion.predicate (Exclusion.ofParts? patterns rules))
    let patterns := ["o?".toList, "none".toList]
    plain.ending = .complete ∧
      (∀ excludes, (scan excludes).records.head? = plain.records.head?) ∧
      ((built patterns).records.map fun r => r.path.text) =
        ["/s".toList, "/s/k".toList, "/s/k/d".toList, "/s/k/g".toList] ∧
      (∃ r ∈ plain.records, r.path = .ofText "/s/d".toList ∧ r ∉ (built []).records) ∧
      built (patterns.reverse ++ patterns) = built patterns := by
  intro scan plain rules built patterns
  have complete : plain.ending = .complete := by decide +kernel
  obtain ⟨every, _, stays, unordered, _⟩ := filtering complete
  refine ⟨complete, fun excludes => ?_, by decide +kernel, ?_, unordered _ _ _ fun pattern => ?_⟩
  · obtain ⟨_, _, first, _, plain, stays⟩ := every excludes
    exact stays.trans plain.symm
  · have there : ∃ r ∈ plain.records, r.path = .ofText "/s/d".toList := by decide +kernel
    obtain ⟨r, inside, path⟩ := there
    refine ⟨r, inside, path, fun left => ?_⟩
    obtain ⟨below, whole, iff⟩ := stays [] rules r inside
    have names : below = [.name ⟨"d".toList, by decide⟩] :=
      List.append_cancel_left (congrArg Path.parts (whole.symm.trans path))
    subst names
    have taken : ∃ given ∈ rules, given.Takes "d/".toList := by decide +kernel
    obtain ⟨given, read, taken⟩ := taken
    exact (iff.1 left).2 given read _ (List.prefix_refl _) (List.cons_ne_nil _ _) taken
  · rw [List.mem_append, List.mem_reverse, or_self]

end Scan
end Inventory
