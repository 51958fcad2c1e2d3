import Inventory.Proofs.Preorder

/-!
What a caller asked for while an entry was the latest one makes a turn, and the turns make
a session of the walk (`Walk.Session`). Only what was asked last in a turn, and names its
entry, counts (`Turn.goesOn`): a cursor may remember a path for long, but it is the path of
an entry that was visited, and no path is visited twice.
-/
namespace Inventory

/-- What a caller asks a cursor for. -/
inductive Control where
  | follow (e : Entry)
  | prune (e : Entry)
deriving DecidableEq

namespace Control

def entry : Control → Entry
  | follow e | prune e => e

/-- The path that is to be followed. Nothing but a link is. -/
def followed? : Control → Option Path
  | follow e => if e.kind = .symbolicLink then some e.path else none
  | prune _ => none

def pruned? : Control → Option Path
  | follow _ => none
  | prune e => some e.path

theorem path_of_followed? {control : Control} {p : Path} (named : control.followed? = some p) :
    control.entry.path = p := by
  cases control with
  | prune e => cases named
  | follow e => exact (by simpa [followed?] using named : _ ∧ e.path = p).2

theorem path_of_pruned? {control : Control} {p : Path} (named : control.pruned? = some p) : control.entry.path = p := by
  cases control with
  | follow e => cases named
  | prune e => exact Option.some.inj named

end Control

namespace Cursor

/-- What cannot be followed is refused, and the cursor stays as it is. -/
def obey (c : Cursor) : Control → Cursor
  | .follow e =>
    match c.follow e with
    | .ok c => c
    | .error _ => c
  | .prune e => c.prune e

theorem obey_eq (c : Cursor) (control : Control) :
    c.obey control =
      { c with toFollow := control.followed?.or c.toFollow, toPrune := control.pruned?.or c.toPrune } := by
  cases control with
  | prune e => rfl
  | follow e => by_cases link : e.kind = .symbolicLink <;> simp [obey, follow, Control.followed?, Control.pruned?, link]

theorem getLast?_filterMap_cons {α β : Type} (f : α → Option β) (a : α) (l : List α) (x : Option β) :
    ((a :: l).filterMap f).getLast?.or x = (l.filterMap f).getLast?.or ((f a).or x) := by
  cases here : f a with
  | none => simp [here]
  | some b => cases later : (l.filterMap f).getLast? <;> simp [here, List.getLast?_cons, later]

/-- Of all that was asked for the last counts. -/
theorem foldl_obey (c : Cursor) (controls : List Control) :
    controls.foldl obey c =
      { c with
        toFollow := (controls.filterMap Control.followed?).getLast?.or c.toFollow
        toPrune := (controls.filterMap Control.pruned?).getLast?.or c.toPrune } := by
  induction controls generalizing c with
  | nil => rfl
  | cons control controls ih => rw [List.foldl_cons, ih, getLast?_filterMap_cons, getLast?_filterMap_cons, obey_eq]

end Cursor

/-- An entry with what was asked for while it was the latest one. -/
structure Turn where
  entry : Entry
  controls : List Control
deriving DecidableEq

namespace Turn

def lastFollowed (t : Turn) : Option Path := (t.controls.filterMap Control.followed?).getLast?

def lastPruned (t : Turn) : Option Path := (t.controls.filterMap Control.pruned?).getLast?

/-- The cursor when all was asked for. -/
def after (t : Turn) (c : Cursor) : Cursor := t.controls.foldl Cursor.obey c

@[simp] theorem streams_after (t : Turn) (c : Cursor) : (t.after c).streams = c.streams := by
  rw [after, Cursor.foldl_obey]

@[simp] theorem position_after (t : Turn) (c : Cursor) : (t.after c).position = c.position := by
  rw [after, Cursor.foldl_obey]

@[simp] theorem toFollow_after (t : Turn) (c : Cursor) : (t.after c).toFollow = t.lastFollowed.or c.toFollow := by
  rw [after, Cursor.foldl_obey, lastFollowed]

@[simp] theorem toPrune_after (t : Turn) (c : Cursor) : (t.after c).toPrune = t.lastPruned.or c.toPrune := by
  rw [after, Cursor.foldl_obey, lastPruned]

/-- The root is gone into if it is a directory; any other directory unless it was the last to
    be pruned; and a link if it was the last to be followed. -/
def goesOn (t : Turn) : Bool :=
  match t.entry.kind with
  | .directory => t.entry.depth = 0 ∨ t.lastPruned ≠ some t.entry.path
  | .symbolicLink => t.lastFollowed = some t.entry.path
  | .regularFile => false

end Turn

namespace Walk

variable {w : Walk} {c : Cursor} {turns : List Turn}

/-- A caller steps through a walk, and asks in each turn for what it likes about the
    entries it has seen. -/
inductive Session (w : Walk) : List Turn → Cursor → Prop where
  | start {c : Cursor} (starts : Cursor.fresh.start = .ok c) : Session w [] c
  | turn {turns : List Turn} {c : Cursor} {t : Turn} (before : Session w turns c)
      (yields : (w.next c).outcome = .ok (some t.entry))
      (known : ∀ control ∈ t.controls, control.entry ∈ turns.map Turn.entry ++ [t.entry]) :
      Session w (turns ++ [t]) (t.after (w.next c).cursor)

def opened (w : Walk) (e : Entry) : List Stream :=
  match w.openStream e.path (e.depth + 1) with
  | .error _ => []
  | .ok st => [st]

theorem descend_eq (w : Walk) (c : Cursor) (e : Entry) :
    (w.descend c e).2 = { c with streams := w.opened e ++ c.streams } := by
  unfold descend opened
  cases w.openStream e.path (e.depth + 1) <;> rfl

theorem resume_onEntry {e : Entry} (here : c.position = .onEntry e) :
    (w.resume c).2.streams =
      (if e.kind = .directory ∧ c.toPrune ≠ some e.path ∨ c.toFollow = some e.path then w.opened e else []) ++
        c.streams := by
  simp only [resume, here, descendIfFollowed]
  split_ifs <;> simp_all [descend_eq]

theorem resume_onRoot {e : Entry} (here : c.position = .onRoot e) :
    (w.resume c).2.streams = (if c.toFollow = some e.path then w.opened e else []) ++ c.streams := by
  simp only [resume, here, descendIfFollowed]
  split_ifs <;> simp [descend_eq]

/-- Nothing is asked for that was not asked for before. -/
theorem resume_slots (w : Walk) (c : Cursor) (p : Path) :
    ((w.resume c).2.toFollow = some p → c.toFollow = some p) ∧
      ((w.resume c).2.toPrune = some p → c.toPrune = some p) := by
  unfold resume descendIfFollowed
  split
  · split_ifs <;> simp [descend_eq]
  · simp only
    split_ifs <;> simp [descend_eq]
  · exact ⟨id, id⟩

/-- An open directory is the root or below it. -/
def Hangs (w : Walk) (st : Stream) : Prop := st.path.Under w.root ∧ 0 < st.depth

/-- The entries in an open directory that were not visited yet. -/
def awaited (w : Walk) (st : Stream) : List Entry := st.pending.filterMap fun n => w.seenAt? (st.path.child n) st.depth

def remaining (w : Walk) (goesOn : Entry → Bool) (streams : List Stream) : List Entry :=
  streams.flatMap fun st => (w.awaited st).flatMap (w.preorderFrom goesOn)

theorem remaining_append (goesOn : Entry → Bool) (inner outer : List Stream) :
    w.remaining goesOn (inner ++ outer) = w.remaining goesOn inner ++ w.remaining goesOn outer :=
  List.flatMap_append

theorem remaining_opened (goesOn : Entry → Bool) (e : Entry) :
    w.remaining goesOn (w.opened e) = (w.children e).flatMap (w.preorderFrom goesOn) := by
  unfold opened openStream children
  cases w.system.list e.path <;> simp [remaining, awaited, bind, Except.bind, ordered_eq]

/-- The streams that are opened at an entry have what is below it still to come. -/
theorem remaining_onward {goesOn : Entry → Bool} {e : Entry} {goes : Bool} (same : goesOn e = goes)
    (outer : List Stream) :
    w.remaining goesOn ((if goes then w.opened e else []) ++ outer) =
      w.below goesOn e ++ w.remaining goesOn outer := by
  rw [remaining_append, below, same]
  cases goes
  · rfl
  · rw [if_pos rfl, if_pos rfl, remaining_opened]

theorem hangs_of_opened {e : Entry} (under : e.path.Under w.root) {st : Stream} (inside : st ∈ w.opened e) :
    w.Hangs st := by
  unfold opened at inside
  split at inside
  · cases inside
  · rename_i st' opens
    obtain rfl := List.mem_singleton.1 inside
    obtain ⟨_, _, rfl⟩ := openStream_eq_ok_iff.1 opens
    exact ⟨under, Nat.succ_pos _⟩

theorem pullFrom_cases {directory : Path} (under : directory.Under w.root) (depth : Nat) (names : List Name) :
    let awaited (names : List Name) := names.filterMap fun n => w.seenAt? (directory.child n) depth
    (w.pullFrom directory depth names).2 = .ok none ∧ awaited names = [] ∨
      ∃ e rest n, (w.pullFrom directory depth names).2 = .ok (some (e, rest)) ∧
        w.seenAt? (directory.child n) depth = some e ∧ awaited names = e :: awaited rest := by
  induction names with
  | nil => exact .inl ⟨rfl, rfl⟩
  | cons n names ih =>
    have visited := visit_eq under depth n
    cases here : w.seenAt? (directory.child n) depth with
    | some e =>
      rw [here] at visited
      exact .inr ⟨e, names, n, by simp only [pullFrom, visited], here, by simp [here]⟩
    | none =>
      rw [here] at visited
      obtain ⟨why, passed⟩ := visited
      have same : (w.pullFrom directory depth (n :: names)).2 = (w.pullFrom directory depth names).2 := by
        simp only [pullFrom, passed]
      simpa [same, here] using ih

/-- The next entry is the first of those that are still to come. -/
theorem pull_cases {streams : List Stream} (hang : ∀ st ∈ streams, w.Hangs st) :
    (w.pull streams).2 = .ok none ∧ (∀ goesOn, w.remaining goesOn streams = []) ∨
      ∃ e later, (w.pull streams).2 = .ok (some (e, later)) ∧ e.path.Under w.root ∧ 0 < e.depth ∧
        (∀ st ∈ later, w.Hangs st) ∧
        ∀ goesOn, w.remaining goesOn streams = e :: (w.below goesOn e ++ w.remaining goesOn later) := by
  induction streams with
  | nil => exact .inl ⟨rfl, fun _ => rfl⟩
  | cons st outer ih =>
    obtain ⟨⟨under, deep⟩, hangOuter⟩ := List.forall_mem_cons.1 hang
    rcases pullFrom_cases under st.depth st.pending with ⟨found, none⟩ | ⟨e, rest, n, found, here, awaits⟩
    · have same : (w.pull (st :: outer)).2 = (w.pull outer).2 := by
        rw [pull]
        split <;> simp_all
      have quiet (goesOn : Entry → Bool) : w.remaining goesOn (st :: outer) = w.remaining goesOn outer := by
        simp [remaining, awaited, none]
      simpa only [same, quiet] using ih hangOuter
    · refine .inr ⟨e, { st with pending := rest } :: outer, ?_, ?_, ?_, ?_, fun goesOn => ?_⟩
      · rw [pull]
        split <;> simp_all
      · obtain ⟨_, _, _, _, rfl⟩ := seenAt?_eq_some here
        exact (Path.child_under _ n).trans under
      · obtain ⟨_, _, _, _, rfl⟩ := seenAt?_eq_some here
        exact deep
      · exact List.forall_mem_cons.2 ⟨⟨under, deep⟩, hangOuter⟩
      · simp [remaining, awaited, awaits, preorderFrom_eq]

/-! ## Underway -/

/-- The entries that are gone into in a session. -/
def chosen (turns : List Turn) (e : Entry) : Bool := turns.any fun t => t.entry = e ∧ t.goesOn

/-- Entries are gone into as in a session. -/
def Follows (goesOn : Entry → Bool) (turns : List Turn) : Prop := ∀ t ∈ turns, goesOn t.entry = t.goesOn

/-- After an entry was visited, the cursor remembers paths of entries that were visited.
    And however further entries are gone into, the preorder is made up of what was visited
    and what is still to come. -/
structure Underway (w : Walk) (turns : List Turn) (c : Cursor) : Prop where
  visiting : ∃ e, c.position = .onRoot e ∨ c.position = .onEntry e
  follows : ∀ p, c.toFollow = some p → p ∈ turns.map (·.entry.path)
  prunes : ∀ p, c.toPrune = some p → p ∈ turns.map (·.entry.path)
  hang : ∀ st ∈ (w.resume c).2.streams, w.Hangs st
  distinct : (turns.map (·.entry.path)).Nodup
  plan : ∀ goesOn, Follows goesOn turns →
    w.preorder goesOn = turns.map Turn.entry ++ w.remaining goesOn (w.resume c).2.streams

theorem follows_chosen (distinct : (turns.map (·.entry.path)).Nodup) : Follows (chosen turns) turns := by
  intro t inside
  have only : ∀ u ∈ turns, u.entry = t.entry → u = t := fun u among same =>
    List.inj_on_of_nodup_map distinct among inside (congrArg Entry.path same)
  rw [chosen, Bool.eq_iff_iff, List.any_eq_true]
  refine ⟨fun ⟨u, among, holds⟩ => ?_, fun goes => ⟨t, inside, by simp [goes]⟩⟩
  obtain ⟨same, goes⟩ := of_decide_eq_true holds
  exact only u among same ▸ goes

/-- A turn of an entry that was not visited before, when nothing was asked for but about
    entries that were visited. -/
structure Fresh (turns : List Turn) (t : Turn) : Prop where
  known : ∀ control ∈ t.controls, control.entry ∈ turns.map Turn.entry ++ [t.entry]
  fresh : t.entry.path ∉ turns.map (·.entry.path)

namespace Fresh

variable {t : Turn}

theorem eq_entry (new : Fresh turns t) {control : Control} (inside : control ∈ t.controls)
    (path : control.entry.path = t.entry.path) : control.entry = t.entry := by
  rcases List.mem_append.1 (new.known control inside) with earlier | here
  · obtain ⟨u, among, same⟩ := List.mem_map.1 earlier
    exact absurd (List.mem_map.2 ⟨u, among, by rw [same, path]⟩) new.fresh
  · exact List.mem_singleton.1 here

/-- Nothing but a link is followed. -/
theorem link_of_lastFollowed (new : Fresh turns t) (last : t.lastFollowed = some t.entry.path) :
    t.entry.kind = .symbolicLink := by
  obtain ⟨control, inside, named⟩ := List.mem_filterMap.1 (List.mem_of_getLast? last)
  cases control with
  | prune e => cases named
  | follow e =>
    obtain ⟨link, path⟩ : e.kind = .symbolicLink ∧ e.path = t.entry.path := by
      simpa [Control.followed?] using named
    exact new.eq_entry inside path ▸ link

/-- What the cursor remembers from before does not name the entry. -/
theorem or_eq_some_iff (new : Fresh turns t) {last stale : Option Path}
    (old : ∀ p, stale = some p → p ∈ turns.map (·.entry.path)) :
    last.or stale = some t.entry.path ↔ last = some t.entry.path := by
  cases last with
  | some p => simp
  | none => simpa using fun named => new.fresh (old _ named)

theorem goesOn_iff (new : Fresh turns t) : t.goesOn = true ↔
    t.entry.kind = .directory ∧ (t.entry.depth = 0 ∨ t.lastPruned ≠ some t.entry.path) ∨
      t.lastFollowed = some t.entry.path := by
  have link := new.link_of_lastFollowed
  unfold Turn.goesOn
  cases kind : t.entry.kind <;> simp_all

/-- What is asked for in the turn is carried out when the walk goes on from the entry. -/
theorem resume_onEntry (new : Fresh turns t) (here : c.position = .onEntry t.entry) (deep : 0 < t.entry.depth)
    (follows : ∀ p, c.toFollow = some p → p ∈ turns.map (·.entry.path))
    (prunes : ∀ p, c.toPrune = some p → p ∈ turns.map (·.entry.path)) :
    (w.resume (t.after c)).2.streams = (if t.goesOn then w.opened t.entry else []) ++ c.streams := by
  have onward := Walk.resume_onEntry (w := w) (c := t.after c) (e := t.entry) (by simpa using here)
  rw [onward, t.streams_after, t.toFollow_after, t.toPrune_after]
  simp only [ne_eq, new.or_eq_some_iff follows, new.or_eq_some_iff prunes, new.goesOn_iff, Nat.ne_of_gt deep, false_or]

/-- At the root nothing was asked for before, and a directory is open. -/
theorem resume_onRoot (new : Fresh [] t) (here : c.position = .onRoot t.entry) (top : t.entry.depth = 0)
    (follow : c.toFollow = none)
    (streams : c.streams = if t.entry.kind = .directory then w.opened t.entry else []) :
    (w.resume (t.after c)).2.streams = if t.goesOn then w.opened t.entry else [] := by
  have onward := Walk.resume_onRoot (w := w) (c := t.after c) (e := t.entry) (by simpa using here)
  have goes := new.goesOn_iff
  have link := new.link_of_lastFollowed
  rw [onward, t.streams_after, t.toFollow_after, follow, Option.or_none, streams]
  cases kind : t.entry.kind <;> simp_all

/-- What a cursor remembers after the turn are paths of entries that were visited. -/
theorem remembered (new : Fresh turns t) {asked : Control → Option Path}
    (named : ∀ {control p}, asked control = some p → control.entry.path = p) {stale : Option Path}
    (old : ∀ p, stale = some p → p ∈ turns.map (·.entry.path)) {p : Path}
    (remembers : (t.controls.filterMap asked).getLast?.or stale = some p) :
    p ∈ (turns ++ [t]).map (·.entry.path) := by
  rcases Option.or_eq_some_iff.1 remembers with last | ⟨_, earlier⟩
  · obtain ⟨control, inside, path⟩ := List.mem_filterMap.1 (List.mem_of_getLast? last)
    have seen := List.mem_map_of_mem (f := Entry.path) (new.known control inside)
    rw [named path] at seen
    simpa using seen
  · simp [old p earlier]

end Fresh

namespace Underway

/-- The first turn, at the root. -/
theorem first (starts : Cursor.fresh.start = .ok c) {t : Turn} (yields : (w.next c).outcome = .ok (some t.entry))
    (known : ∀ control ∈ t.controls, control.entry ∈ [t.entry]) :
    w.Underway [t] (t.after (w.next c).cursor) := by
  have new : Fresh [] t := ⟨known, by simp⟩
  obtain rfl : c = { Cursor.fresh with position := .ready } := by
    simpa [Cursor.start, Cursor.fresh, eq_comm] using starts
  simp only [next] at yields ⊢
  cases enters : w.enterRoot with
  | error f => simp [enters] at yields
  | ok found =>
    obtain ⟨e, streams⟩ := found
    obtain rfl : e = t.entry := by simpa [enters] using yields
    obtain ⟨node, kind, _, _, same, ways⟩ := enterRoot_eq_ok enters
    have path : t.entry.path = w.root := by rw [same]; rfl
    have top : t.entry.depth = 0 := by rw [same]; rfl
    have held : streams = if t.entry.kind = .directory then w.opened t.entry else [] := by
      have kind' : t.entry.kind = kind := by rw [same]; rfl
      rcases ways with ⟨directory, st, opens, rfl⟩ | ⟨other, rfl⟩
      · rw [if_pos (kind'.trans directory), opened, path, top, opens]
      · rw [if_neg (kind' ▸ other)]
    have onward : (w.resume (t.after { Cursor.fresh with streams := streams, position := .onRoot t.entry })).2.streams =
        if t.goesOn then w.opened t.entry else [] := new.resume_onRoot rfl top rfl held
    refine ⟨⟨t.entry, .inl (t.position_after _)⟩, fun p follows => ?_, fun p prunes => ?_, fun st inside => ?_,
      List.nodup_singleton _, fun goesOn follows => ?_⟩
    · rw [t.toFollow_after] at follows
      exact new.remembered Control.path_of_followed? (by simp [Cursor.fresh]) follows
    · rw [t.toPrune_after] at prunes
      exact new.remembered Control.path_of_pruned? (by simp [Cursor.fresh]) prunes
    · rw [onward] at inside
      split at inside
      · exact hangs_of_opened (path ▸ Path.under_refl _) inside
      · cases inside
    · have below := remaining_onward (w := w) (follows t List.mem_cons_self) []
      rw [List.append_nil] at below
      rw [preorder_eq, enters, onward, below]
      simp [preorderFrom_eq, remaining]

variable (underway : w.Underway turns c)

include underway

/-- The walk goes on to the first entry that is still to come, and ends when none is. -/
theorem next_cases :
    (w.next c).outcome = .ok none ∧ (∀ goesOn, w.remaining goesOn (w.resume c).2.streams = []) ∨
      ∃ e later, (w.next c).outcome = .ok (some e) ∧
        (w.next c).cursor = { (w.resume c).2 with streams := later, position := .onEntry e } ∧
        e.path.Under w.root ∧ 0 < e.depth ∧ (∀ st ∈ later, w.Hangs st) ∧
        ∀ goesOn, w.remaining goesOn (w.resume c).2.streams = e :: (w.below goesOn e ++ w.remaining goesOn later) := by
  obtain ⟨_, visiting⟩ := underway.visiting
  rw [Scan.next_of_visiting w visiting]
  rcases pull_cases underway.hang with ⟨found, none⟩ | ⟨e, later, found, under, deep, hang, first⟩
  · exact .inl ⟨by simp only [found], none⟩
  · exact .inr ⟨e, later, by simp only [found], by simp only [found], under, deep, hang, first⟩

/-- Each turn keeps the session underway. -/
theorem step {t : Turn} (yields : (w.next c).outcome = .ok (some t.entry))
    (known : ∀ control ∈ t.controls, control.entry ∈ turns.map Turn.entry ++ [t.entry]) :
    w.Underway (turns ++ [t]) (t.after (w.next c).cursor) := by
  rcases underway.next_cases with ⟨ends, _⟩ | ⟨e, later, yields', cursor, under, deep, hang, first⟩
  · rw [ends] at yields
    cases yields
  obtain rfl : e = t.entry := by simpa [yields'] using yields
  -- The entry stands in the preorder behind those that were visited, so its path is new.
  have distinct : ((turns ++ [t]).map (·.entry.path)).Nodup := by
    have whole := (w.laid_preorder (chosen turns)).distinct
    rw [underway.plan _ (follows_chosen underway.distinct), first] at whole
    refine List.Nodup.sublist ?_ whole
    simp [Function.comp_def]
  have new : Fresh turns t := ⟨known, fun old => by
    rw [List.map_append, List.nodup_append] at distinct
    exact distinct.2.2 _ old _ (by simp) rfl⟩
  have follows : ∀ p, (w.resume c).2.toFollow = some p → p ∈ turns.map (·.entry.path) :=
    fun p remembers => underway.follows p ((w.resume_slots c p).1 remembers)
  have prunes : ∀ p, (w.resume c).2.toPrune = some p → p ∈ turns.map (·.entry.path) :=
    fun p remembers => underway.prunes p ((w.resume_slots c p).2 remembers)
  rw [cursor]
  have onward : (w.resume (t.after { (w.resume c).2 with streams := later, position := .onEntry t.entry })).2.streams =
      (if t.goesOn then w.opened t.entry else []) ++ later := new.resume_onEntry rfl deep follows prunes
  refine ⟨⟨t.entry, .inr (t.position_after _)⟩, fun p remembers => ?_, fun p remembers => ?_, fun st inside => ?_,
    distinct, fun goesOn same => ?_⟩
  · rw [t.toFollow_after] at remembers
    exact new.remembered Control.path_of_followed? follows remembers
  · rw [t.toPrune_after] at remembers
    exact new.remembered Control.path_of_pruned? prunes remembers
  · rw [onward, List.mem_append] at inside
    rcases inside with opened | outer
    · split at opened
      · exact hangs_of_opened under opened
      · cases opened
    · exact hang st outer
  · rw [underway.plan goesOn fun u earlier => same u (List.mem_append_left _ earlier), first, onward,
      remaining_onward (same t (by simp))]
    simp

end Underway

theorem underway_of_session (session : w.Session turns c) :
    turns = [] ∧ Cursor.fresh.start = .ok c ∨ turns ≠ [] ∧ w.Underway turns c := by
  induction session with
  | start starts => exact .inl ⟨rfl, starts⟩
  | turn _ yields known ih =>
    refine .inr ⟨by simp, ?_⟩
    rcases ih with ⟨rfl, starts⟩ | ⟨_, underway⟩
    · exact .first starts yields known
    · exact underway.step yields known

theorem prefix_of_session (session : w.Session turns c) {goesOn : Entry → Bool} (follows : Follows goesOn turns) :
    turns.map Turn.entry <+: w.preorder goesOn := by
  rcases underway_of_session session with ⟨rfl, _⟩ | ⟨_, underway⟩
  · exact List.nil_prefix
  · exact underway.plan goesOn follows ▸ List.prefix_append ..

theorem follows_of_session (session : w.Session turns c) : Follows (chosen turns) turns := by
  rcases underway_of_session session with ⟨rfl, _⟩ | ⟨_, underway⟩
  · simp [Follows]
  · exact follows_chosen underway.distinct

/-- What a session goes on to. -/
theorem next_of_session (session : w.Session turns c) :
    (∀ e, (w.next c).outcome = .ok (some e) → turns.map Turn.entry ++ [e] <+: w.preorder (chosen turns)) ∧
      ((w.next c).outcome = .ok none → turns.map Turn.entry = w.preorder (chosen turns)) ∧
      (∀ f, (w.next c).outcome = .error f → turns = [] ∧ w.enterRoot = .error f) := by
  rcases underway_of_session session with ⟨rfl, starts⟩ | ⟨_, underway⟩
  · obtain rfl : c = { Cursor.fresh with position := .ready } := by
      simpa [Cursor.start, Cursor.fresh, eq_comm] using starts
    cases enters : w.enterRoot with
    | error f => simp [next, enters]
    | ok found => simp [next, enters, preorder_eq, preorderFrom_eq]
  · have plan := underway.plan _ (follows_of_session session)
    rcases underway.next_cases with ⟨ends, none⟩ | ⟨e, later, yields, _, _, _, _, first⟩
    · simp [ends, plan, none]
    · simp [yields, plan, first]

/-- Sessions that decide alike about what both visit visit the same. -/
theorem comparable_of_sessions {turns' : List Turn} {c' : Cursor} (session : w.Session turns c)
    (session' : w.Session turns' c')
    (alike : ∀ t ∈ turns, ∀ t' ∈ turns', t.entry = t'.entry → t.goesOn = t'.goesOn) :
    turns.map Turn.entry <+: turns'.map Turn.entry ∨ turns'.map Turn.entry <+: turns.map Turn.entry := by
  have follows := follows_of_session session
  have follows' := follows_of_session session'
  -- Going into what either session goes into is as both decide.
  have agrees {us vs : List Turn} (own : Follows (chosen us) us)
      (same : ∀ u ∈ us, ∀ v ∈ vs, u.entry = v.entry → u.goesOn = v.goesOn) :
      Follows (fun e => chosen us e || chosen vs e) us := by
    intro u inside
    cases other : chosen vs u.entry with
    | false => simpa [other] using own u inside
    | true =>
      obtain ⟨v, among, holds⟩ := List.any_eq_true.1 other
      obtain ⟨entry, goes⟩ := of_decide_eq_true holds
      simp [other, same u inside v among entry.symm, goes]
  have first := agrees follows alike
  have second := agrees follows' fun t' inside' t inside same => (alike t inside t' inside' same.symm).symm
  exact List.prefix_or_prefix_of_prefix (prefix_of_session session first)
    (prefix_of_session session' fun t inside => (Bool.or_comm ..).trans (second t inside))

/-- The entries of a session are the first of the preorder in which those are gone into
    whose turns say so, and if the walk ends they are all of it. A walk fails at its root
    or not at all. What was asked for otherwise makes no difference. And the entries are
    laid out below the root. -/
theorem entries_of_session (w : Walk) {turns : List Turn} {c : Cursor} (session : w.Session turns c) :
    let entries := turns.map Turn.entry
    entries <+: w.preorder (chosen turns) ∧ Follows (chosen turns) turns ∧
      (∀ e, (w.next c).outcome = .ok (some e) → entries ++ [e] <+: w.preorder (chosen turns)) ∧
      ((w.next c).outcome = .ok none → entries = w.preorder (chosen turns)) ∧
      (∀ f, (w.next c).outcome = .error f → turns = [] ∧ w.rootEntry? = none) ∧
      (∀ turns' c', w.Session turns' c' →
        (∀ t ∈ turns, ∀ t' ∈ turns', t.entry = t'.entry → t.goesOn = t'.goesOn) →
        entries <+: turns'.map Turn.entry ∨ turns'.map Turn.entry <+: entries) ∧
      Laid w.root entries := by
  have follows := follows_of_session session
  have part := prefix_of_session session follows
  obtain ⟨yields, ends, fails⟩ := next_of_session session
  refine ⟨part, follows, yields, ends, ?_, fun _ _ => comparable_of_sessions session, (w.laid_preorder _).of_part part⟩
  intro f failed
  obtain ⟨first, enters⟩ := fails f failed
  exact ⟨first, by rw [rootEntry?_eq, enters]⟩

/-- The session of a caller that is told the entries so far. What it says of other entries is left out. -/
def play (w : Walk) (caller : List Entry → List Control) : Nat → List Turn × Cursor
  | 0 => ([], { Cursor.fresh with position := .ready })
  | n + 1 =>
    let played := w.play caller n
    let pulled := w.next played.2
    match pulled.outcome with
    | .ok (some e) =>
      let entries := played.1.map Turn.entry ++ [e]
      let t : Turn := ⟨e, (caller entries).filter (·.entry ∈ entries)⟩
      (played.1 ++ [t], t.after pulled.cursor)
    | _ => played

theorem session_play (w : Walk) (caller : List Entry → List Control) (n : Nat) :
    w.Session (w.play caller n).1 (w.play caller n).2 := by
  induction n with
  | zero => exact .start rfl
  | succ n ih =>
    simp only [play]
    split
    · rename_i e yields
      exact .turn ih yields (by simp)
    · exact ih

end Walk

/-- A directory, a link and a directory beside each other, with a file in each. -/
def FileSystem.rowTree : FileSystem :=
  let node (path : String) (content : Content) : NodeSpec := ⟨.ofText path.toList, content, none, ⟨0, 0, 0⟩, []⟩
  .ofSpecs [node "/s/a/g" (.regular []), node "/s/b" (.link "/l".toList), node "/s/c/h" (.regular []),
    node "/l/x" (.regular [])] ⟨.slash, []⟩

namespace Walk

def ofRowTree : Walk := ⟨.rowTree, .ofText "/s".toList, false, fun _ _ => false⟩

/-- Prunes and follows in time and too late. -/
def fickleCaller : List Entry → List Control
  | [s] => [.prune s]
  | [s, a] => [.prune a, .prune s]
  | [_, a, g] => [.prune a, .follow g]
  | [_, _, g, b] => [.follow b, .follow g]
  | [_, _, _, _, _, c] => [.prune c]
  | _ => []

/-- The directory `a` was pruned, but something else after it; `c` was not gone into. -/
theorem entries_of_session_rowTree :
    let played := ofRowTree.play fickleCaller 6
    (played.1.map fun t => t.entry.path.text) =
        ["/s", "/s/a", "/s/a/g", "/s/b", "/s/b/x", "/s/c"].map String.toList ∧
      played.1.map Turn.entry = ofRowTree.preorder (chosen played.1) ∧
      Laid ofRowTree.root (played.1.map Turn.entry) := by
  have ends : (ofRowTree.next (ofRowTree.play fickleCaller 6).2).outcome = .ok none := by decide +kernel
  obtain ⟨_, _, _, whole, _, _, laid⟩ := entries_of_session ofRowTree (ofRowTree.session_play fickleCaller 6)
  exact ⟨by decide +kernel, whole ends, laid⟩

end Walk
end Inventory
