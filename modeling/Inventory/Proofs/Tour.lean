import Inventory.Proofs.InForce

/-!
A tour is a walk through open directories, told by rules: each child is passed over, or it
is a stop, the walk goes through all that is below it, and then through the rest
(`Scan.Tour`). What is made known at a stop depends on its entry and the redirections that
are in force there. A tour has no failure in it: where the gate fails at a stop, there is
none.
-/
namespace Inventory

/-- An entry that is visited with the redirections in force there, innermost first. -/
structure Stop where
  entry : Entry
  active : List Redirection

/-- An open directory with the redirections in force in it, innermost first. -/
structure Opened where
  stream : Stream
  active : List Redirection

/-- The redirections of an open directory are those entered at or above it. -/
def Opened.Holds (entered : List Redirection) (d : Opened) : Prop :=
  d.active.reverse = entered.filter (·.AppliesTo d.stream.path)

namespace Scan

variable {s : Scan}

/-- The stop is reported: it does not lie inside the search root by way of an entered link. -/
def Reports (s : Scan) (stop : Stop) : Prop := s.gate.revisits ⟨stop.active⟩ stop.entry = .ok false

/-- What the gate says about the entry if it is a link. -/
def verdict (s : Scan) (stop : Stop) : Verdict :=
  if stop.entry.kind = .symbolicLink then
    s.gate.judge ⟨stop.active⟩ stop.entry (s.walk.system.resolveLink stop.entry.path)
  else .absent

/-- What is made known at a stop. -/
def told (s : Scan) (stop : Stop) : List Event :=
  match s.gate.revisits ⟨stop.active⟩ stop.entry with
  | .ok false =>
    .record (Scanner.report s.walk.system ⟨stop.active⟩ stop.entry).1 ::
      match s.verdict stop with
      | .enter target => [.entered stop.entry.path target]
      | _ => []
  | _ => []

/-- The directory of an entry, if it can be opened. -/
def openedAt (s : Scan) (e : Entry) (active : List Redirection) : List Opened :=
  match s.walk.openStream e.path (e.depth + 1) with
  | .error _ => []
  | .ok st => [⟨st, active⟩]

/-- The directory that is opened when the walk goes on from a stop: that of the
    entry itself or, through a link that is entered, the one it leads to. -/
def onward (s : Scan) (stop : Stop) : Except Failure (List Opened) :=
  match s.gate.revisits ⟨stop.active⟩ stop.entry, stop.entry.kind with
  | .ok false, .directory => .ok (s.openedAt stop.entry stop.active)
  | .ok false, .symbolicLink =>
    match s.verdict stop with
    | .unreadable target why => .error (.reported (.targetNotRead target why))
    | .enter target => .ok (s.openedAt stop.entry (⟨stop.entry.path, target⟩ :: stop.active))
    | _ => .ok []
  | _, _ => .ok []

theorem mem_openedAt {e : Entry} {active : List Redirection} {d : Opened} (inside : d ∈ s.openedAt e active) :
    s.walk.openStream e.path (e.depth + 1) = .ok d.stream ∧ d.active = active := by
  unfold openedAt at inside
  split at inside
  · cases inside
  · rename_i st opens
    obtain rfl := List.mem_singleton.1 inside
    exact ⟨opens, rfl⟩

theorem path_of_openStream {w : Walk} {p : Path} {depth : Nat} {st : Stream} (opens : w.openStream p depth = .ok st) :
    st.path = p := by
  obtain ⟨_, _, rfl⟩ := Walk.openStream_eq_ok_iff.1 opens
  rfl

theorem onward_of_unreported {stop : Stop} (unreported : ¬ s.Reports stop) :
    s.told stop = [] ∧ s.onward stop = .ok [] := by
  unfold Reports at unreported
  unfold told onward
  constructor
  · split
    · rename_i reports
      exact absurd reports unreported
    · rfl
  · split
    · rename_i reports _
      exact absurd reports unreported
    · rename_i reports _
      exact absurd reports unreported
    · rfl

/-- What is made known at a stop after its record. -/
theorem told_of_reports {stop : Stop} (reports : s.Reports stop) :
    s.told stop = .record (Scanner.report s.walk.system ⟨stop.active⟩ stop.entry).1 ::
      match s.verdict stop with
      | .enter target => [.entered stop.entry.path target]
      | _ => [] := by
  unfold Reports at reports
  simp only [told, reports]

theorem onward_of_directory {stop : Stop} (reports : s.Reports stop) (directory : stop.entry.kind = .directory) :
    s.onward stop = .ok (s.openedAt stop.entry stop.active) := by
  unfold Reports at reports
  simp only [onward, reports, directory]

theorem onward_of_regularFile {stop : Stop} (reports : s.Reports stop) (regular : stop.entry.kind = .regularFile) :
    s.onward stop = .ok [] := by
  unfold Reports at reports
  simp only [onward, reports, regular]

theorem onward_of_link {stop : Stop} (reports : s.Reports stop) (link : stop.entry.kind = .symbolicLink) :
    s.onward stop = match s.verdict stop with
      | .unreadable target why => .error (.reported (.targetNotRead target why))
      | .enter target => .ok (s.openedAt stop.entry (⟨stop.entry.path, target⟩ :: stop.active))
      | _ => .ok [] := by
  unfold Reports at reports
  simp only [onward, reports, link]

theorem judge_of_verdict {stop : Stop} {target : Path} (enters : s.verdict stop = .enter target) :
    s.gate.judge ⟨stop.active⟩ stop.entry (s.walk.system.resolveLink stop.entry.path) = .enter target := by
  unfold verdict at enters
  split at enters
  · exact enters
  · cases enters

theorem verdict_of_plain {stop : Stop} (plain : stop.entry.kind ≠ .symbolicLink) : s.verdict stop = .absent := by
  simp [verdict, plain]

/-- If a directory is opened from a stop, it is that of a directory, with the same
    redirections in force, or that of a link that is entered, with one more. -/
theorem onward_cases {stop : Stop} {opened : List Opened} (goes : s.onward stop = .ok opened) :
    opened = [] ∨ ∃ st active, opened = [⟨st, active⟩] ∧
      s.walk.openStream stop.entry.path (stop.entry.depth + 1) = .ok st ∧
      (stop.entry.kind = .directory ∧ active = stop.active ∨
        ∃ target, s.verdict stop = .enter target ∧ active = ⟨stop.entry.path, target⟩ :: stop.active) := by
  have opening (active : List Redirection) : s.openedAt stop.entry active = [] ∨
      ∃ st, s.openedAt stop.entry active = [⟨st, active⟩] ∧
        s.walk.openStream stop.entry.path (stop.entry.depth + 1) = .ok st := by
    unfold openedAt
    cases s.walk.openStream stop.entry.path (stop.entry.depth + 1) with
    | error why => exact .inl rfl
    | ok st => exact .inr ⟨st, rfl, rfl⟩
  by_cases reports : s.Reports stop
  · cases kind : stop.entry.kind with
    | regularFile =>
      rw [onward_of_regularFile reports kind] at goes
      cases goes
      exact .inl rfl
    | directory =>
      rw [onward_of_directory reports kind] at goes
      cases goes
      exact (opening stop.active).imp_right fun ⟨st, same, opens⟩ => ⟨st, _, same, opens, .inl ⟨rfl, rfl⟩⟩
    | symbolicLink =>
      rw [onward_of_link reports kind] at goes
      split at goes
      · cases goes
      · rename_i target verdict
        cases goes
        exact (opening _).imp_right fun ⟨st, same, opens⟩ => ⟨st, _, same, opens, .inr ⟨target, verdict, rfl⟩⟩
      · cases goes
        exact .inl rfl
  · rw [(onward_of_unreported reports).2] at goes
    cases goes
    exact .inl rfl

/-- Only the directory of the entry itself is opened. -/
theorem path_of_onward {stop : Stop} {opened : List Opened} (goes : s.onward stop = .ok opened) :
    ∀ d ∈ opened, d.stream.path = stop.entry.path := by
  rcases onward_cases goes with rfl | ⟨st, active, rfl, opens, _⟩
  · simp
  · intro d inside
    obtain rfl := List.mem_singleton.1 inside
    exact path_of_openStream opens

/-- The tour of open directories, innermost first, with its stops in order. -/
inductive Tour (s : Scan) : List Opened → List Stop → Prop where
  | done : Tour s [] []
  | up {p : Path} {depth : Nat} {active : List Redirection} {outer : List Opened} {stops : List Stop}
      (rest : Tour s outer stops) : Tour s (⟨⟨p, depth, []⟩, active⟩ :: outer) stops
  | past {p : Path} {depth : Nat} {n : Name} {names : List Name} {active : List Redirection} {outer : List Opened}
      {stops : List Stop} {why : Notice} (passed : s.walk.visit p depth n = .passedOver why)
      (rest : Tour s (⟨⟨p, depth, names⟩, active⟩ :: outer) stops) :
      Tour s (⟨⟨p, depth, n :: names⟩, active⟩ :: outer) stops
  | stop {p : Path} {depth : Nat} {n : Name} {names : List Name} {active : List Redirection}
      {outer opened : List Opened} {below stops : List Stop} {e : Entry}
      (handed : s.walk.visit p depth n = .entry e) (goes : s.onward ⟨e, active⟩ = .ok opened)
      (inside : Tour s opened below) (rest : Tour s (⟨⟨p, depth, names⟩, active⟩ :: outer) stops) :
      Tour s (⟨⟨p, depth, n :: names⟩, active⟩ :: outer) (⟨e, active⟩ :: (below ++ stops))

namespace Tour

/-- The tours of inner and outer directories make up one. -/
theorem append {inner outer : List Opened} {first later : List Stop} (inside : s.Tour inner first)
    (around : s.Tour outer later) : s.Tour (inner ++ outer) (first ++ later) := by
  induction inside with
  | done => exact around
  | up _ ih => exact .up ih
  | past passed _ ih => exact .past passed ih
  | stop handed goes inside _ _ ih =>
    rw [List.cons_append, List.cons_append, List.append_assoc]
    exact .stop handed goes inside ih

theorem split {inner outer : List Opened} {stops : List Stop} (whole : s.Tour (inner ++ outer) stops) :
    ∃ first later, stops = first ++ later ∧ s.Tour inner first ∧ s.Tour outer later := by
  generalize all : inner ++ outer = dirs at whole
  induction whole generalizing inner with
  | done =>
    obtain ⟨rfl, rfl⟩ := List.append_eq_nil_iff.1 all
    exact ⟨[], [], rfl, .done, .done⟩
  | @up p depth active rest stops tour ih =>
    rcases List.append_eq_cons_iff.1 all with ⟨rfl, rfl⟩ | ⟨inner, rfl, rfl⟩
    · exact ⟨[], stops, rfl, .done, .up tour⟩
    · obtain ⟨first, later, rfl, inside, around⟩ := ih rfl
      exact ⟨first, later, rfl, .up inside, around⟩
  | @past p depth n names active rest stops why passed tour ih =>
    rcases List.append_eq_cons_iff.1 all with ⟨rfl, rfl⟩ | ⟨inner, rfl, rfl⟩
    · exact ⟨[], stops, rfl, .done, .past passed tour⟩
    · have left : (⟨⟨p, depth, names⟩, active⟩ :: inner) ++ outer = ⟨⟨p, depth, names⟩, active⟩ :: (inner ++ outer) :=
        rfl
      obtain ⟨first, later, rfl, inside, around⟩ := ih left
      exact ⟨first, later, rfl, .past passed inside, around⟩
  | @stop p depth n names active rest opened below stops e handed goes inside tour _ ih =>
    rcases List.append_eq_cons_iff.1 all with ⟨rfl, rfl⟩ | ⟨inner, rfl, rfl⟩
    · exact ⟨[], _, rfl, .done, .stop handed goes inside tour⟩
    · have left : (⟨⟨p, depth, names⟩, active⟩ :: inner) ++ outer = ⟨⟨p, depth, names⟩, active⟩ :: (inner ++ outer) :=
        rfl
      obtain ⟨first, later, rfl, inside', around⟩ := ih left
      exact ⟨_ :: (below ++ first), later, by simp, .stop handed goes inside inside', around⟩

end Tour

section First

variable {p : Path} {depth : Nat} {n : Name} {names : List Name} {active : List Redirection} {outer : List Opened}
  {stops : List Stop}

theorem tour_up_iff : s.Tour (⟨⟨p, depth, []⟩, active⟩ :: outer) stops ↔ s.Tour outer stops := by
  constructor
  · intro tour
    cases tour with | up rest => exact rest
  · exact .up

theorem tour_past_iff {why : Notice} (passed : s.walk.visit p depth n = .passedOver why) :
    s.Tour (⟨⟨p, depth, n :: names⟩, active⟩ :: outer) stops ↔ s.Tour (⟨⟨p, depth, names⟩, active⟩ :: outer) stops := by
  constructor
  · intro tour
    cases tour with
    | past _ rest => exact rest
    | stop handed =>
      rw [passed] at handed
      cases handed
  · exact .past passed

theorem tour_stop_iff {e : Entry} (handed : s.walk.visit p depth n = .entry e) :
    s.Tour (⟨⟨p, depth, n :: names⟩, active⟩ :: outer) stops ↔
      ∃ opened more, stops = ⟨e, active⟩ :: more ∧ s.onward ⟨e, active⟩ = .ok opened ∧
        s.Tour (opened ++ ⟨⟨p, depth, names⟩, active⟩ :: outer) more := by
  constructor
  · intro tour
    cases tour with
    | past passed =>
      rw [passed] at handed
      cases handed
    | stop handed' goes inside rest =>
      rw [handed] at handed'
      cases handed'
      exact ⟨_, _, rfl, goes, inside.append rest⟩
  · rintro ⟨opened, more, rfl, goes, tour⟩
    obtain ⟨below, after, rfl, inside, rest⟩ := tour.split
    exact .stop handed goes inside rest

theorem not_tour_of_failed {f : Failure} (failed : s.walk.visit p depth n = .failed f) :
    ¬ s.Tour (⟨⟨p, depth, n :: names⟩, active⟩ :: outer) stops := by
  intro tour
  cases tour with
  | past passed =>
    rw [passed] at failed
    cases failed
  | stop handed =>
    rw [handed] at failed
    cases failed

end First

theorem pull_passedOver {w : Walk} {p : Path} {depth : Nat} {n : Name} {why : Notice}
    (passed : w.visit p depth n = .passedOver why) (names : List Name) (outer : List Stream) :
    (w.pull (⟨p, depth, n :: names⟩ :: outer)).2 = (w.pull (⟨p, depth, names⟩ :: outer)).2 := by
  simp only [Walk.pull, Walk.pullFrom, passed]
  generalize w.pullFrom p depth names = found
  obtain ⟨notices, _ | _ | found⟩ := found <;> rfl

/-- The open directories that are left are among those that were open. -/
def Among (left dirs : List Opened) : Prop :=
  ∀ d ∈ left, ∃ d' ∈ dirs, d.stream.path = d'.stream.path ∧ d.active = d'.active

theorem Among.cons {left dirs : List Opened} (among : Among left dirs) (d : Opened) : Among left (d :: dirs) := by
  intro x inside
  obtain ⟨y, there, same⟩ := among x inside
  exact ⟨y, List.mem_cons_of_mem _ there, same⟩

theorem Among.of_head {left outer : List Opened} {st st' : Stream} {active : List Redirection}
    (among : Among left (⟨st, active⟩ :: outer)) (path : st.path = st'.path) :
    Among left (⟨st', active⟩ :: outer) := by
  intro x inside
  obtain ⟨y, there, same, held⟩ := among x inside
  rcases List.mem_cons.1 there with rfl | there
  · exact ⟨_, List.mem_cons_self, same.trans path, held⟩
  · exact ⟨y, List.mem_cons_of_mem _ there, same, held⟩

/-- A tour begins with the entry that the walk hands out next. -/
theorem tour_iff (s : Scan) (dirs : List Opened) :
    match (s.walk.pull (dirs.map Opened.stream)).2 with
    | .error _ => ∀ stops, ¬ s.Tour dirs stops
    | .ok none => ∀ stops, s.Tour dirs stops ↔ stops = []
    | .ok (some (e, streams)) => ∃ d outer, streams = (d :: outer).map Opened.stream ∧ Among (d :: outer) dirs ∧
        ∀ stops, s.Tour dirs stops ↔ ∃ opened more, stops = ⟨e, d.active⟩ :: more ∧
          s.onward ⟨e, d.active⟩ = .ok opened ∧ s.Tour (opened ++ d :: outer) more := by
  induction dirs with
  | nil =>
    intro stops
    constructor
    · intro tour
      cases tour
      rfl
    · rintro rfl
      exact .done
  | cons d outer ih =>
    obtain ⟨⟨p, depth, names⟩, active⟩ := d
    rw [List.map_cons]
    induction names with
    | nil =>
      rw [show (s.walk.pull (⟨p, depth, []⟩ :: outer.map Opened.stream)).2 = (s.walk.pull (outer.map Opened.stream)).2
        from rfl]
      generalize (s.walk.pull (outer.map Opened.stream)).2 = found at ih ⊢
      obtain _ | _ | ⟨e, streams⟩ := found
      · exact fun stops tour => ih stops (tour_up_iff.1 tour)
      · exact fun stops => tour_up_iff.trans (ih stops)
      · obtain ⟨d, later, same, among, tours⟩ := ih
        exact ⟨d, later, same, among.cons _, fun stops => tour_up_iff.trans (tours stops)⟩
    | cons n names ihNames =>
      cases visited : s.walk.visit p depth n with
      | passedOver why =>
        rw [pull_passedOver visited]
        generalize (s.walk.pull (⟨p, depth, names⟩ :: outer.map Opened.stream)).2 = found at ihNames ⊢
        obtain _ | _ | ⟨e, streams⟩ := found
        · exact fun stops tour => ihNames stops ((tour_past_iff visited).1 tour)
        · exact fun stops => (tour_past_iff visited).trans (ihNames stops)
        · obtain ⟨d, later, same, among, tours⟩ := ihNames
          exact ⟨d, later, same, among.of_head rfl, fun stops => (tour_past_iff visited).trans (tours stops)⟩
      | failed f =>
        simp only [Walk.pull, Walk.pullFrom, visited]
        exact fun stops => not_tour_of_failed visited
      | entry e =>
        simp only [Walk.pull, Walk.pullFrom, visited]
        refine ⟨⟨⟨p, depth, names⟩, active⟩, outer, rfl, ?_, fun stops => tour_stop_iff visited⟩
        have all : Among (⟨⟨p, depth, names⟩, active⟩ :: outer) (⟨⟨p, depth, names⟩, active⟩ :: outer) :=
          fun x inside => ⟨x, inside, rfl, rfl⟩
        exact all.of_head rfl

end Scan
end Inventory
