import Inventory.Proofs.Filtering

/-!
Of two local roots of which one lies inside the other, the wider lets a scan enter more
links, and changes nothing else. A tour of the wider scan, with the stops left out that
have a redirection in force that leads out of the narrower root, is a tour of the narrower
one (`Scan.Tour.narrowed`).
-/
namespace Inventory

/-- Above the path, a link was entered that leads out of a directory. -/
def Trace.LeavesAbove (t : Trace) (directory p : Path) : Prop :=
  ∃ link target, .entered link target ∈ t.events ∧ p.Under link ∧ link ≠ p ∧ ¬ target.Under directory

/-- The event is about a link above the path that leads out of a directory. -/
def Event.leavesAbove (directory p : Path) : Event → Bool
  | .record _ => false
  | .entered link target => p.Under link ∧ link ≠ p ∧ ¬ target.Under directory

theorem Trace.leavesAbove_iff {t : Trace} {directory p : Path} :
    t.LeavesAbove directory p ↔ t.events.any (Event.leavesAbove directory p) = true := by
  rw [List.any_eq_true]
  constructor
  · rintro ⟨link, target, told, leaves⟩
    exact ⟨_, told, decide_eq_true leaves⟩
  · rintro ⟨ev, told, leaves⟩
    cases ev with
    | record r => cases leaves
    | entered link target => exact ⟨link, target, told, of_decide_eq_true leaves⟩

instance (t : Trace) (directory p : Path) : Decidable (t.LeavesAbove directory p) :=
  decidable_of_iff' _ Trace.leavesAbove_iff

namespace Scan

variable {s : Scan}

/-- The redirection is that of a link which is entered at one of the stops, above the path. -/
def EnteredOver (s : Scan) (stops : List Stop) (p : Path) (r : Redirection) : Prop :=
  .entered r.source r.destination ∈ stops.flatMap s.told ∧ p.Under r.source ∧ r.source ≠ p

/-- At each of the stops, what is in force is what was so before and what is entered above. -/
def KnowsAbove (s : Scan) (before : List Redirection) (stops : List Stop) : Prop :=
  ∀ stop ∈ stops, ∀ r, r ∈ stop.active ↔ r ∈ before ∨ s.EnteredOver stops stop.entry.path r

theorem EnteredOver.exists_stop {stops : List Stop} {p : Path} {r : Redirection} (entered : s.EnteredOver stops p r) :
    ∃ stop ∈ stops, stop.entry.path = r.source ∧ .entered r.source r.destination ∈ s.told stop := by
  obtain ⟨stop, among, told⟩ := List.mem_flatMap.1 entered.1
  exact ⟨stop, among, (path_of_told told).symm, told⟩

/-- Stops below different children of a directory know nothing of each other. -/
theorem KnowsAbove.append {before : List Redirection} {first later : List Stop} {p : Path} {n : Name}
    (knows : s.KnowsAbove before first) (knows' : s.KnowsAbove before later)
    (here : ∀ stop ∈ first, stop.entry.path.Under (p.child n))
    (apart : ∀ stop ∈ later, ∃ m, m ≠ n ∧ stop.entry.path.Under (p.child m)) :
    s.KnowsAbove before (first ++ later) := by
  have told : (first ++ later).flatMap s.told = first.flatMap s.told ++ later.flatMap s.told := List.flatMap_append
  intro stop among r
  rw [EnteredOver, told, List.mem_append]
  rcases List.mem_append.1 among with among | among
  · rw [knows stop among]
    refine or_congr_right ⟨fun entered => ⟨.inl entered.1, entered.2⟩, fun ⟨made, entered⟩ => ⟨?_, entered⟩⟩
    refine made.resolve_right fun elsewhere => ?_
    obtain ⟨other, there, path, _⟩ := EnteredOver.exists_stop ⟨elsewhere, entered⟩
    obtain ⟨m, different, under⟩ := apart other there
    rw [path] at under
    exact different (Path.eq_of_child_under (entered.1.trans under) (here stop among))
  · rw [knows' stop among]
    refine or_congr_right ⟨fun entered => ⟨.inr entered.1, entered.2⟩, fun ⟨made, entered⟩ => ⟨?_, entered⟩⟩
    refine made.resolve_left fun elsewhere => ?_
    obtain ⟨other, there, path, _⟩ := EnteredOver.exists_stop ⟨elsewhere, entered⟩
    obtain ⟨m, different, under⟩ := apart stop among
    have upper := here other there
    rw [path] at upper
    exact different (Path.eq_of_child_under under (entered.1.trans upper))

theorem told_of_enter {stop : Stop} {target : Path} (reports : s.Reports stop) (enters : s.verdict stop = .enter target)
    {link other : Path} : .entered link other ∈ s.told stop ↔ link = stop.entry.path ∧ other = target := by
  rw [told_of_reports reports, enters]
  simp

theorem reports_of_onward {stop : Stop} {d : Opened} {opened : List Opened} (goes : s.onward stop = .ok (d :: opened)) :
    s.Reports stop := by
  by_contra unreported
  rw [(onward_of_unreported unreported).2] at goes
  cases goes

theorem stops_of_nil {stops : List Stop} (tour : s.Tour [] stops) : stops = [] := by
  cases tour
  rfl

/-- A stop with all that is below it: in the directory that is opened there, one
    redirection more is in force if the stop is a link that is entered. -/
theorem knowsAbove_of_onward {e : Entry} {active : List Redirection} {opened : List Opened} {below : List Stop}
    (goes : s.onward ⟨e, active⟩ = .ok opened) (inside : s.Tour opened below)
    (knows : ∀ d, opened = [d] → s.KnowsAbove d.active below) : s.KnowsAbove active (⟨e, active⟩ :: below) := by
  have proper : ∀ stop ∈ below, stop.entry.path.Under e.path ∧ stop.entry.path ≠ e.path := by
    intro stop among
    obtain ⟨d, open', n, _, under⟩ := inside.under_child stop among
    rw [path_of_onward goes d open'] at under
    refine ⟨under.trans (Path.child_under e.path n), fun same => ?_⟩
    rw [same] at under
    exact Path.not_under_child _ n under
  intro stop among r
  rcases List.mem_cons.1 among with rfl | among
  · -- Nothing that is entered here or below is above the stop itself.
    refine ⟨.inl, fun known => known.resolve_right fun entered => ?_⟩
    obtain ⟨other, there, path, _⟩ := entered.exists_stop
    obtain ⟨_, above, different⟩ := entered
    rcases List.mem_cons.1 there with rfl | there
    · exact different path.symm
    · exact (proper other there).2 (Path.under_antisymm (proper other there).1 (path ▸ above))
  · obtain ⟨under, different⟩ := proper stop among
    rcases onward_cases goes with rfl | ⟨st, held, rfl, _, ways⟩
    · rw [stops_of_nil inside] at among
      cases among
    · rw [knows _ rfl stop among, EnteredOver, EnteredOver, List.flatMap_cons, List.mem_append]
      rcases ways with ⟨directory, rfl⟩ | ⟨target, enters, rfl⟩
      · have silent : .entered r.source r.destination ∉ s.told ⟨e, held⟩ := fun told => by
          have link := kind_of_told told
          rw [directory] at link
          cases link
        rw [or_iff_right silent]
      · rw [told_of_enter (reports_of_onward goes) enters, List.mem_cons]
        have here : r = ⟨e.path, target⟩ ↔ (r.source = e.path ∧ r.destination = target) ∧
            stop.entry.path.Under r.source ∧ r.source ≠ stop.entry.path := by
          constructor
          · rintro rfl
            exact ⟨⟨rfl, rfl⟩, under, different.symm⟩
          · rintro ⟨⟨source, destination⟩, _⟩
            obtain ⟨_, _⟩ := r
            simp only at source destination
            rw [source, destination]
        rw [here]
        tauto

/-- At the stops below a directory, what is in force is what is so in the
    directory and what is entered above the stop. -/
theorem Tour.knowsAbove {d : Opened} {stops : List Stop} (tour : s.Tour [d] stops)
    (distinct : d.stream.pending.Nodup) : s.KnowsAbove d.active stops := by
  generalize single : [d] = opened at tour
  induction tour generalizing d with
  | done => cases single
  | up rest =>
    cases single
    rw [stops_of_nil rest]
    exact fun _ among => nomatch among
  | @past p depth n names active _ _ _ _ _ ih =>
    cases single
    exact @ih ⟨⟨p, depth, names⟩, active⟩ (List.nodup_cons.1 distinct).2 rfl
  | @stop p depth n names active outer opened below stops e handed goes inside rest ihInside ih =>
    cases single
    obtain ⟨fresh, distinct⟩ := List.nodup_cons.1 distinct
    have path := (visit_entry handed).1
    have group := knowsAbove_of_onward goes inside fun d single => by
      refine ihInside ?_ single.symm
      rcases onward_cases goes with none | ⟨st, held, one, opens, _⟩
      · rw [none] at single
        cases single
      · rw [one] at single
        cases single
        exact (Walk.pending_of_openStream opens).1
    refine group.append (p := p) (n := n) (@ih ⟨⟨p, depth, names⟩, active⟩ distinct rfl) (fun stop among => ?_)
      fun stop among => ?_
    · rcases List.mem_cons.1 among with rfl | among
      · exact path ▸ Path.under_refl _
      · obtain ⟨d, open', under⟩ := inside.under stop among
        rw [path_of_onward goes d open', path] at under
        exact under
    · obtain ⟨d, open', m, turn, under⟩ := rest.under_child stop among
      obtain rfl := List.mem_singleton.1 open'
      exact ⟨m, fun same => fresh (same ▸ turn), under⟩

/-- What is in force at a stop is what was entered above it. -/
theorem Course.mem_active_iff {stops : List Stop} (course : s.Course stops) {stop : Stop} (among : stop ∈ stops)
    (r : Redirection) : r ∈ stop.active ↔ s.EnteredOver stops stop.entry.path r := by
  obtain ⟨e, streams, opened, more, _, goes, tour, rfl⟩ := course
  have knows : s.KnowsAbove [] (⟨e, []⟩ :: more) := by
    refine knowsAbove_of_onward goes tour fun d single => ?_
    rcases onward_cases goes with none | ⟨st, held, one, opens, _⟩
    · rw [none] at single
      cases single
    · rw [one] at single
      cases single
      subst one
      exact tour.knowsAbove (Walk.pending_of_openStream opens).1
  rw [knows stop among, or_iff_right (List.not_mem_nil)]

/-- The same scan with another local root. -/
def confinedTo (s : Scan) (localRoot : Path) : Scan := { s with localRoot }

/-- All redirections lead inside a directory. -/
def LeadInside (bound : Path) (active : List Redirection) : Prop := ∀ r ∈ active, r.destination.Under bound

instance (bound : Path) (active : List Redirection) : Decidable (LeadInside bound active) :=
  inferInstanceAs (Decidable (∀ r ∈ active, _))

section Narrower

variable {narrow bound : Path} (form : s.walk.system.canonical narrow = bound)
  (within : bound.Under (s.walk.system.canonical s.localRoot))

include form within

/-- The gate says the same, but for a target that lies outside the narrower root. -/
theorem judge_confinedTo (stack : RedirectionStack) (e : Entry) (r : LinkResolution) :
    (s.confinedTo narrow).gate.judge stack e r = s.gate.judge stack e r ∨
      ∃ target, r.target = some target ∧ ¬ target.Under bound ∧
        (s.confinedTo narrow).gate.judge stack e r = .outside target := by
  obtain ⟨target, present⟩ := r
  cases present with
  | false => exact .inl rfl
  | true =>
    cases target with
    | none => exact .inl rfl
    | some target =>
      by_cases inside : target.Under bound
      · have wider : target.Under (s.walk.system.canonical s.localRoot) := inside.trans within
        have local' : (s.confinedTo narrow).gate.localRoot = bound := form
        simp only [Gate.judge, local', gate_localRoot, inside, wider, not_true, if_false]
        exact .inl rfl
      · exact .inr ⟨target, rfl, inside, by simp [Gate.judge, confinedTo, form, inside]⟩

theorem verdict_confinedTo (stop : Stop) :
    (s.confinedTo narrow).verdict stop = s.verdict stop ∨
      ∃ target, (s.walk.system.resolveLink stop.entry.path).target = some target ∧ ¬ target.Under bound ∧
        (s.confinedTo narrow).verdict stop = .outside target := by
  by_cases link : stop.entry.kind = .symbolicLink
  · simp only [verdict, link, if_true]
    exact judge_confinedTo form within ..
  · exact .inl ((verdict_of_plain link).trans (verdict_of_plain link).symm)

omit form within in
/-- Below a link the redirection to its target is in force. -/
theorem enters_of_onward_link {stop : Stop} {opened : List Opened} {d : Opened}
    (link : stop.entry.kind = .symbolicLink) (goes : s.onward stop = .ok opened) (inside : d ∈ opened) :
    ∃ target, s.verdict stop = .enter target ∧ d.active = ⟨stop.entry.path, target⟩ :: stop.active := by
  rcases onward_cases goes with rfl | ⟨st, active, rfl, _, ⟨directory, _⟩ | ⟨target, enters, rfl⟩⟩
  · cases inside
  · rw [link] at directory
    cases directory
  · obtain rfl := List.mem_singleton.1 inside
    exact ⟨target, enters, rfl⟩

/-- Where all redirections in force lead inside the narrower root, both scans go on
    alike, or the narrower one stops at a link that leads out of its root. -/
theorem onward_confinedTo {stop : Stop} {opened : List Opened} (held : LeadInside bound stop.active)
    (goes : s.onward stop = .ok opened) :
    ((s.confinedTo narrow).onward stop = .ok opened ∧ ∀ d ∈ opened, LeadInside bound d.active) ∨
      ((s.confinedTo narrow).onward stop = .ok [] ∧ ∀ d ∈ opened, ¬ LeadInside bound d.active) := by
  by_cases reports : s.Reports stop
  · have reports' : (s.confinedTo narrow).Reports stop := reports
    cases kind : stop.entry.kind with
    | regularFile =>
      rw [onward_of_regularFile reports kind] at goes
      cases goes
      exact .inl ⟨onward_of_regularFile reports' kind, by simp⟩
    | directory =>
      rw [onward_of_directory reports kind] at goes
      cases goes
      exact .inl ⟨onward_of_directory reports' kind, fun d inside => (mem_openedAt inside).2 ▸ held⟩
    | symbolicLink =>
      have whole := goes
      rw [onward_of_link reports kind] at goes
      rcases verdict_confinedTo form within stop with same | ⟨target, leads, outside, verdict⟩
      · refine .inl ⟨by rw [onward_of_link reports' kind, same]; exact goes, fun d inside r among => ?_⟩
        obtain ⟨target, enters, active⟩ := enters_of_onward_link kind whole inside
        obtain ⟨_, _, within', _⟩ := Gate.judge_eq_enter (judge_of_verdict (same.trans enters))
        rcases List.mem_cons.1 (active ▸ among) with rfl | among
        · exact form ▸ within'
        · exact held r among
      · refine .inr ⟨by rw [onward_of_link reports' kind, verdict], fun d inside all => ?_⟩
        obtain ⟨target', enters, active⟩ := enters_of_onward_link kind whole inside
        obtain ⟨_, leads', _⟩ := Gate.judge_eq_enter (judge_of_verdict enters)
        rw [leads] at leads'
        cases leads'
        exact outside (all ⟨stop.entry.path, target⟩ (active ▸ List.mem_cons_self))
  · have unreported : ¬ (s.confinedTo narrow).Reports stop := reports
    rw [(onward_of_unreported reports).2] at goes
    cases goes
    exact .inl ⟨(onward_of_unreported unreported).2, by simp⟩

omit form within in
/-- What is in force in a directory is in force at the stops below it. -/
theorem Tour.active_subset {opened : List Opened} {stops : List Stop} (tour : s.Tour opened stops) :
    ∀ stop ∈ stops, ∃ d ∈ opened, d.active ⊆ stop.active := by
  induction tour with
  | done => simp
  | up _ ih =>
    intro stop inside
    obtain ⟨d, among, held⟩ := ih stop inside
    exact ⟨d, List.mem_cons_of_mem _ among, held⟩
  | past _ _ ih =>
    intro stop inside
    obtain ⟨d, among, held⟩ := ih stop inside
    rcases List.mem_cons.1 among with rfl | among
    · exact ⟨_, List.mem_cons_self, held⟩
    · exact ⟨d, List.mem_cons_of_mem _ among, held⟩
  | @stop p depth n names active outer opened below stops e handed goes _ _ ihInside ih =>
    intro stop inside
    rcases List.mem_cons.1 inside with rfl | inside
    · exact ⟨_, List.mem_cons_self, List.Subset.refl _⟩
    · rcases List.mem_append.1 inside with inside | inside
      · obtain ⟨d, among, held⟩ := ihInside stop inside
        refine ⟨_, List.mem_cons_self, List.Subset.trans ?_ held⟩
        rcases onward_cases goes with rfl | ⟨st, active', rfl, _, ⟨_, rfl⟩ | ⟨target, _, rfl⟩⟩
        · cases among
        · obtain rfl := List.mem_singleton.1 among
          exact List.Subset.refl _
        · obtain rfl := List.mem_singleton.1 among
          exact List.subset_cons_self ..
      · obtain ⟨d, among, held⟩ := ih stop inside
        rcases List.mem_cons.1 among with rfl | among
        · exact ⟨_, List.mem_cons_self, held⟩
        · exact ⟨d, List.mem_cons_of_mem _ among, held⟩

/-- A tour is, but for the stops with a redirection that leads out of the narrower
    root, a tour with that root. -/
theorem Tour.narrowed {opened : List Opened} {stops : List Stop} (tour : s.Tour opened stops)
    (held : ∀ d ∈ opened, LeadInside bound d.active) :
    (s.confinedTo narrow).Tour opened (stops.filter fun stop => LeadInside bound stop.active) := by
  induction tour with
  | done => exact .done
  | up _ ih => exact .up (ih fun d among => held d (List.mem_cons_of_mem _ among))
  | @past p depth n names active outer stops why passed _ ih =>
    have here : LeadInside bound active := held _ List.mem_cons_self
    refine .past passed (ih fun d among => ?_)
    rcases List.mem_cons.1 among with rfl | among
    · exact here
    · exact held d (List.mem_cons_of_mem _ among)
  | @stop p depth n names active outer opened below stops e handed goes inside _ ihInside ih =>
    have here : LeadInside bound active := held _ List.mem_cons_self
    have later := ih fun d among => by
      rcases List.mem_cons.1 among with rfl | among
      · exact here
      · exact held d (List.mem_cons_of_mem _ among)
    rw [List.filter_cons_of_pos (by simpa using here), List.filter_append]
    rcases onward_confinedTo form within here goes with ⟨goes', held'⟩ | ⟨goes', out⟩
    · exact .stop handed goes' (ihInside held') later
    · -- The link leads out of the narrower root, and so does the redirection at all stops below it.
      have gone : below.filter (fun stop => LeadInside bound stop.active) = [] := by
        refine List.filter_eq_nil_iff.2 fun stop among all => ?_
        obtain ⟨d, open', more⟩ := inside.active_subset stop among
        exact out d open' fun r known => of_decide_eq_true all r (more known)
      rw [gone]
      exact .stop handed goes' .done later

theorem Course.narrowed {stops : List Stop} (course : s.Course stops) :
    (s.confinedTo narrow).Course (stops.filter fun stop => LeadInside bound stop.active) := by
  obtain ⟨e, streams, opened, more, enters, goes, tour, rfl⟩ := course
  have none : LeadInside bound [] := by simp [LeadInside]
  rw [List.filter_cons_of_pos (by simpa using none)]
  rcases onward_confinedTo form within none goes with ⟨goes', held⟩ | ⟨goes', out⟩
  · exact ⟨e, streams, opened, _, enters, goes', tour.narrowed form within held, rfl⟩
  · have gone : more.filter (fun stop => LeadInside bound stop.active) = [] := by
      refine List.filter_eq_nil_iff.2 fun stop among all => ?_
      obtain ⟨d, open', known⟩ := tour.active_subset stop among
      exact out d open' fun r held => of_decide_eq_true all r (known held)
    rw [gone]
    exact ⟨e, streams, [], [], enters, goes', .done, rfl⟩

omit form within in
/-- The record at a stop does not depend on the local root. -/
theorem records_told_confinedTo (stop : Stop) :
    ((s.confinedTo narrow).told stop).filterMap Event.record? = (s.told stop).filterMap Event.record? := by
  have one (s : Scan) (reports : s.Reports stop) : (s.told stop).filterMap Event.record? =
      [(Scanner.report s.walk.system ⟨stop.active⟩ stop.entry).1] := by
    rw [told_of_reports reports]
    split <;> simp [Event.record?]
  by_cases reports : s.Reports stop
  · rw [one s reports, one (s.confinedTo narrow) reports]
    rfl
  · have unreported : ¬ (s.confinedTo narrow).Reports stop := reports
    rw [(onward_of_unreported reports).1, (onward_of_unreported unreported).1]

/-! ## Whole scans -/

/-- Where a scan completes, the scan with a narrower local root does, and has the
    same records but for those below a link that leads out of the narrower root. -/
theorem records_confinedTo (completes : s.trace.ending = .complete) :
    (s.confinedTo narrow).trace.ending = .complete ∧
      (s.confinedTo narrow).trace.records = s.trace.records.filter fun r => ¬ s.trace.LeavesAbove bound r.path := by
  obtain ⟨stops, course, short, events⟩ := exists_course completes
  have shorter := Nat.lt_of_le_of_lt (List.length_filter_le (fun stop => LeadInside bound stop.active) stops) short
  obtain ⟨completes', events'⟩ := trace_of_course (course.narrowed form within) shorter
  have known : stops.filter (fun stop => LeadInside bound stop.active) =
      stops.filter fun stop => ¬ s.trace.LeavesAbove bound stop.entry.path := by
    refine List.filter_congr fun stop among => decide_eq_decide.2 ⟨fun all => ?_, fun stays r held => ?_⟩
    · rintro ⟨link, target, told, above, proper, outside⟩
      rw [events] at told
      exact outside (all ⟨link, target⟩ ((course.mem_active_iff among _).2 ⟨told, above, proper⟩))
    · obtain ⟨told, above, proper⟩ := (course.mem_active_iff among r).1 held
      by_contra outside
      exact stays ⟨r.source, r.destination, events ▸ told, above, proper, outside⟩
  refine ⟨completes', ?_⟩
  have same : (s.confinedTo narrow).trace.records =
      ((stops.filter fun stop => ¬ s.trace.LeavesAbove bound stop.entry.path).flatMap s.told).filterMap
        Event.record? := by
    rw [Trace.records_eq, events', known, List.filterMap_flatMap, List.filterMap_flatMap]
    exact List.flatMap_congr fun stop _ => records_told_confinedTo stop
  rw [same, Trace.records_eq, events, ← records_filter fun p => ¬ s.trace.LeavesAbove bound p]
  exact congrArg _ (flatMap_told_filter (fun p => ¬ s.trace.LeavesAbove bound p) stops)

end Narrower

/-- If a scan completes with a local root, it does so with each local root inside of
    that one, and the records are then the same, in order and with all their fields,
    but for those with a link above them that is entered with the wider root and leads
    out of the narrower one. -/
theorem widening {fs : FileSystem} {root : Path} {sorted : Bool} {excludes : Path → Bool → Bool}
    (narrow wide : Option Path) (within : (fs.canonical (narrow.getD root)).Under (fs.canonical (wide.getD root)))
    (completes : (ofOptions fs root ⟨wide, sorted, excludes⟩).trace.ending = .complete) :
    let scan (localRoot : Option Path) := (ofOptions fs root ⟨localRoot, sorted, excludes⟩).trace
    let bound := fs.canonical (narrow.getD root)
    (scan narrow).ending = .complete ∧
      (scan narrow).records.Sublist (scan wide).records ∧
      (∀ r ∈ (scan wide).records, r ∈ (scan narrow).records ∨
        ∃ link target, .entered link target ∈ (scan wide).events ∧ r.path.Under link ∧ link ≠ r.path ∧
          ¬ target.Under bound) ∧
      (scan narrow).records = (scan wide).records.filter fun r => ¬ (scan wide).LeavesAbove bound r.path := by
  intro scan bound
  obtain ⟨completes', left⟩ := records_confinedTo (s := ofOptions fs root ⟨wide, sorted, excludes⟩) rfl within completes
  have left : (scan narrow).records = (scan wide).records.filter fun r => ¬ (scan wide).LeavesAbove bound r.path := left
  refine ⟨completes', ?_, fun r inside => ?_, left⟩
  · rw [left]
    exact List.filter_sublist
  · by_cases leaves : (scan wide).LeavesAbove bound r.path
    · exact .inr leaves
    · rw [left]
      exact .inl (List.mem_filter.2 ⟨inside, decide_eq_true leaves⟩)

/-- With the local root `/l` the link `k` is still entered, and `on`, which leads to `/m`, is not. -/
theorem widening_linkedTree :
    let scan (localRoot : String) := (ofOptions .linkedTree (.ofText "/s".toList)
      ⟨some (.ofText localRoot.toList), false, fun _ _ => false⟩).trace
    (scan "/").ending = .complete ∧ (scan "/l").ending = .complete ∧
      ((scan "/").records.map fun r => r.path.text) = ["/s".toList, "/s/f".toList, "/s/k".toList, "/s/k/g".toList,
        "/s/k/on".toList, "/s/k/on/h".toList, "/s/k/back".toList] ∧
      (scan "/l").records = (scan "/").records.filter fun r => r.path.text ≠ "/s/k/on/h".toList := by
  intro scan
  have complete : (scan "/").ending = .complete := by decide +kernel
  have within : (FileSystem.linkedTree.canonical (.ofText "/l".toList)).Under
      (FileSystem.linkedTree.canonical (.ofText "/".toList)) := by decide +kernel
  obtain ⟨complete', _, _, left⟩ :=
    widening (some (.ofText "/l".toList)) (some (.ofText "/".toList)) within complete
  refine ⟨complete, complete', by decide +kernel, left.trans ?_⟩
  decide +kernel

end Scan
end Inventory
