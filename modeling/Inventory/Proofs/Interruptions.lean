import Inventory.Proofs.Sessions

/-!
A caller may also give up the open directories (`CursorCall.close`). The walk goes on as
it would otherwise, but without them, so it may end early
(`Walk.session_of_interrupted`). An entry that is opened when the walk goes on from it is
opened all the same, and an entry that is not is the last one (`Walk.next_of_closed`). A
root that is a directory is opened before it is handed out, so to close at the root ends
the walk, and to prune the root comes too late.
-/
namespace Inventory

/-- All that a caller asks a cursor for. -/
inductive CursorCall where
  | control (k : Control)
  | close
deriving DecidableEq

namespace CursorCall

def control? : CursorCall → Option Control
  | control k => some k
  | close => none

end CursorCall

namespace Cursor

def heed (c : Cursor) : CursorCall → Cursor
  | .control k => c.obey k
  | .close => c.close

/-- The cursor with further directories open, outside of those that are. -/
def within (c : Cursor) (outer : List Stream) : Cursor := { c with streams := c.streams ++ outer }

end Cursor

/-- What a caller asks for is asked for whichever directories are open. -/
theorem Turn.after_of_streams (t : Turn) (c : Cursor) (streams : List Stream) :
    t.after { c with streams } = { t.after c with streams } := by
  rw [after, after, Cursor.foldl_obey, Cursor.foldl_obey]

/-- An entry with all that was asked for while it was the latest one. -/
structure Pause where
  entry : Entry
  calls : List CursorCall
deriving DecidableEq

namespace Pause

/-- The turn without the calls that close. -/
def turn (p : Pause) : Turn := ⟨p.entry, p.calls.filterMap CursorCall.control?⟩

def closes (p : Pause) : Bool := .close ∈ p.calls

/-- The cursor when all was asked for. -/
def after (p : Pause) (c : Cursor) : Cursor := p.calls.foldl Cursor.heed c

/-- Calls that close and calls that ask for something do not touch the same. -/
theorem after_eq (p : Pause) (c : Cursor) :
    p.after c = { p.turn.after c with streams := if p.closes then [] else c.streams } := by
  obtain ⟨e, calls⟩ := p
  induction calls generalizing c with
  | nil => rfl
  | cons call calls ih =>
    have onward : Pause.after ⟨e, call :: calls⟩ c = Pause.after ⟨e, calls⟩ (c.heed call) := rfl
    rw [onward, ih]
    cases call with
    | control k =>
      have kept : (c.obey k).streams = c.streams := by rw [Cursor.obey_eq]
      simp [closes, Cursor.heed, kept, turn, CursorCall.control?, Turn.after]
    | close =>
      have asked := Turn.after_of_streams (Pause.turn ⟨e, calls⟩) c []
      have same : Pause.turn ⟨e, .close :: calls⟩ = Pause.turn ⟨e, calls⟩ := rfl
      simp [closes, Cursor.heed, Cursor.close, asked, same]

end Pause

/-- The entry is opened when the walk goes on from it, and not before. -/
def Turn.opensNext (t : Turn) : Bool :=
  match t.entry.kind with
  | .directory => t.entry.depth ≠ 0 ∧ t.lastPruned ≠ some t.entry.path
  | .symbolicLink => t.lastFollowed = some t.entry.path
  | .regularFile => false

namespace Walk

variable {w : Walk} {c : Cursor} {turns : List Turn} {t : Turn} {pauses later : List Pause}
  {p : Pause} {e : Entry}

/-- A caller steps through a walk, asks in each pause for what it likes about the entries it
    has seen, and may close. -/
inductive Interrupted (w : Walk) : List Pause → Cursor → Prop where
  | start {c : Cursor} (starts : Cursor.fresh.start = .ok c) : Interrupted w [] c
  | pause {pauses : List Pause} {c : Cursor} {p : Pause} (before : Interrupted w pauses c)
      (yields : (w.next c).outcome = .ok (some p.entry))
      (known : ∀ k ∈ p.turn.controls, k.entry ∈ pauses.map Pause.entry ++ [p.entry]) :
      Interrupted w (pauses ++ [p]) (p.after (w.next c).cursor)

theorem resume_within (w : Walk) (c : Cursor) (outer : List Stream) :
    (w.resume (c.within outer)).2 = (w.resume c).2.within outer := by
  obtain ⟨streams, toFollow, toPrune, position⟩ := c
  cases position with
  | idle | ready | ended => rfl
  | onRoot e =>
    by_cases follows : toFollow = some e.path <;> simp [resume, descendIfFollowed, Cursor.within, follows, descend_eq]
  | onEntry e =>
    by_cases goes : e.kind = .directory ∧ toPrune ≠ some e.path
    · simp [resume, Cursor.within, goes, descend_eq]
    · by_cases follows : toFollow = some e.path <;>
        simp [resume, descendIfFollowed, Cursor.within, if_neg goes, follows, descend_eq]

theorem pull_append {streams later : List Stream} {e : Entry} (found : (w.pull streams).2 = .ok (some (e, later)))
    (outer : List Stream) : (w.pull (streams ++ outer)).2 = .ok (some (e, later ++ outer)) := by
  induction streams with
  | nil => cases found
  | cons st streams ih =>
    rw [List.cons_append]
    unfold pull at found ⊢
    split at found
    · cases found
      rfl
    · cases found
    · exact ih found

theorem next_of_pull {e' : Entry} {streams : List Stream}
    (visiting : c.position = .onRoot e' ∨ c.position = .onEntry e')
    (found : (w.pull (w.resume c).2.streams).2 = .ok (some (e, streams))) :
    (w.next c).outcome = .ok (some e) ∧
      (w.next c).cursor = { (w.resume c).2 with streams, position := .onEntry e } := by
  simp [Scan.next_of_visiting w visiting, found]

theorem exists_pull {e' : Entry} (visiting : c.position = .onRoot e' ∨ c.position = .onEntry e')
    (yields : (w.next c).outcome = .ok (some e)) :
    ∃ streams, (w.pull (w.resume c).2.streams).2 = .ok (some (e, streams)) := by
  rw [Scan.next_of_visiting w visiting] at yields
  rcases found : (w.pull (w.resume c).2.streams).2 with f | _ | ⟨e'', streams⟩
  · simp [found] at yields
  · simp [found] at yields
  · obtain rfl : e'' = e := by simpa [found] using yields
    exact ⟨streams, rfl⟩

/-- The walk goes on to the first of the entries that lead what is still to come. -/
theorem next_of_remaining {e' : Entry} {entries : List Entry} (goesOn : Entry → Bool)
    (visiting : c.position = .onRoot e' ∨ c.position = .onEntry e')
    (hang : ∀ st ∈ (w.resume c).2.streams, w.Hangs st)
    (remains : w.remaining goesOn (w.resume c).2.streams = entries.flatMap (w.preorderFrom goesOn)) :
    (w.next c).outcome = .ok entries.head? := by
  rw [Scan.next_of_visiting w visiting]
  rcases pull_cases hang with ⟨found, none⟩ | ⟨e, later, found, _, _, _, first⟩
  · rw [none] at remains
    cases entries with
    | nil => simp [found]
    | cons x xs => simp [preorderFrom_eq] at remains
  · rw [first] at remains
    cases entries with
    | nil => cases remains
    | cons x xs =>
      rw [List.flatMap_cons, preorderFrom_eq, List.cons_append] at remains
      obtain rfl := (List.cons.inj remains).1
      simp [found]

theorem ended_of_next {e' : Entry} (visiting : c.position = .onRoot e' ∨ c.position = .onEntry e')
    (ends : (w.next c).outcome = .ok none) : (w.next c).cursor.streams = [] ∧ (w.next c).cursor.position = .ended := by
  rw [Scan.next_of_visiting w visiting] at ends ⊢
  rcases found : (w.pull (w.resume c).2.streams).2 with f | _ | ⟨e, streams⟩ <;> simp_all [Cursor.stop]

/-- With more directories open outside, the walk goes on to the same entry. -/
theorem next_within (yields : (w.next c).outcome = .ok (some e)) (outer : List Stream) :
    (w.next (c.within outer)).outcome = .ok (some e) ∧
      ∃ outer', (w.next (c.within outer)).cursor = (w.next c).cursor.within outer' := by
  have onward {e' : Entry} (visiting : c.position = .onRoot e' ∨ c.position = .onEntry e') :
      (w.next (c.within outer)).outcome = .ok (some e) ∧
        (w.next (c.within outer)).cursor = (w.next c).cursor.within outer := by
    obtain ⟨streams, found⟩ := exists_pull visiting yields
    have more : (w.pull (w.resume (c.within outer)).2.streams).2 = .ok (some (e, streams ++ outer)) := by
      rw [resume_within]
      exact pull_append found outer
    obtain ⟨yields', cursor⟩ := next_of_pull (c := c.within outer) visiting more
    rw [cursor, (next_of_pull visiting found).2, resume_within]
    exact ⟨yields', rfl⟩
  rcases here : c.position with _ | _ | e' | e' | _
  · simp [next, here] at yields
  · -- The root is entered anew, whatever was open.
    have anew : (w.next (c.within outer)).outcome = (w.next c).outcome := by
      simp only [next, Cursor.within, here]
      cases w.enterRoot <;> rfl
    refine ⟨anew.trans yields, [], ?_⟩
    simp only [next, Cursor.within, here] at yields ⊢
    cases enters : w.enterRoot with
    | error f => simp [enters] at yields
    | ok found => simp
  · exact (onward (.inl here)).imp id fun same => ⟨outer, same⟩
  · exact (onward (.inr here)).imp id fun same => ⟨outer, same⟩
  · simp [next, here] at yields

/-- What a caller sees that closes it sees as well if it does not close. -/
theorem session_of_interrupted (interrupted : w.Interrupted pauses c) :
    ∃ outer, w.Session (pauses.map Pause.turn) (c.within outer) := by
  induction interrupted with
  | @start c starts => exact ⟨[], by simpa [Cursor.within] using Session.start starts⟩
  | @pause pauses c p _ yields known ih =>
    obtain ⟨outer, session⟩ := ih
    obtain ⟨yields', outer', cursor⟩ := next_within yields outer
    have known' : ∀ k ∈ p.turn.controls, k.entry ∈ (pauses.map Pause.turn).map Turn.entry ++ [p.turn.entry] := by
      simpa [Function.comp_def, Pause.turn] using known
    have onward := session.turn yields' known'
    rw [cursor, Cursor.within, Turn.after_of_streams] at onward
    rw [List.map_append, List.map_singleton, Pause.after_eq]
    by_cases closes : p.closes
    · exact ⟨_, by simpa [Cursor.within, closes] using onward⟩
    · exact ⟨outer', by simpa [Cursor.within, closes] using onward⟩

/-- A caller that does not close is in a session. -/
theorem session_of_unclosed (interrupted : w.Interrupted pauses c) (unclosed : ∀ p ∈ pauses, p.closes = false) :
    w.Session (pauses.map Pause.turn) c := by
  induction interrupted with
  | start starts => exact .start starts
  | @pause pauses c p _ yields known ih =>
    have earlier := ih fun q inside => unclosed q (List.mem_append_left _ inside)
    have same : p.after (w.next c).cursor = p.turn.after (w.next c).cursor := by
      rw [Pause.after_eq, unclosed p (by simp), ← Turn.streams_after p.turn]
      rfl
    rw [List.map_append, List.map_singleton, same]
    exact earlier.turn yields (by simpa [Function.comp_def, Pause.turn] using known)

theorem Fresh.opensNext_iff (new : Fresh turns t) : t.opensNext = true ↔
    t.entry.kind = .directory ∧ t.entry.depth ≠ 0 ∧ t.lastPruned ≠ some t.entry.path ∨
      t.lastFollowed = some t.entry.path := by
  have link := new.link_of_lastFollowed
  unfold Turn.opensNext
  cases kind : t.entry.kind <;> simp_all

theorem resume_of_first (starts : Cursor.fresh.start = .ok c) (yields : (w.next c).outcome = .ok (some t.entry))
    (known : ∀ control ∈ t.controls, control.entry ∈ [t.entry]) :
    (t.after (w.next c).cursor).position = .onRoot t.entry ∧
      (w.resume (t.after (w.next c).cursor)).2.streams =
        (if t.opensNext then w.opened t.entry else []) ++ (w.next c).cursor.streams := by
  have new : Fresh [] t := ⟨known, by simp⟩
  obtain rfl : c = { Cursor.fresh with position := .ready } := by
    simpa [Cursor.start, Cursor.fresh, eq_comm] using starts
  simp only [next] at yields ⊢
  cases enters : w.enterRoot with
  | error f => simp [enters] at yields
  | ok found =>
    obtain ⟨e, streams⟩ := found
    obtain rfl : e = t.entry := by simpa [enters] using yields
    obtain ⟨_, _, _, _, same, _⟩ := enterRoot_eq_ok enters
    have top : t.entry.depth = 0 := by rw [same]; rfl
    let handed : Cursor := { Cursor.fresh with streams, position := .onRoot t.entry }
    have here : (t.after handed).position = .onRoot t.entry := t.position_after handed
    have follows : (t.after handed).toFollow = t.lastFollowed := by
      rw [t.toFollow_after, show handed.toFollow = none from rfl, Option.or_none]
    refine ⟨here, (resume_onRoot here).trans ?_⟩
    simp only [follows, new.opensNext_iff, top, ne_eq, not_true, false_and, and_false, false_or, t.streams_after]
    rfl

theorem Underway.resume (underway : w.Underway turns c) (yields : (w.next c).outcome = .ok (some t.entry))
    (known : ∀ control ∈ t.controls, control.entry ∈ turns.map Turn.entry ++ [t.entry]) :
    (t.after (w.next c).cursor).position = .onEntry t.entry ∧
      (w.resume (t.after (w.next c).cursor)).2.streams =
        (if t.opensNext then w.opened t.entry else []) ++ (w.next c).cursor.streams := by
  rcases underway.next_cases with ⟨ends, _⟩ | ⟨e, later, yields', cursor, _, deep, _, _⟩
  · rw [ends] at yields
    cases yields
  obtain rfl : e = t.entry := by simpa [yields'] using yields
  have new : Fresh turns t := ⟨known, fun old => by
    have distinct := (underway.step yields known).distinct
    rw [List.map_append, List.nodup_append] at distinct
    exact distinct.2.2 _ old _ (by simp) rfl⟩
  have here : (t.after (w.next c).cursor).position = .onEntry t.entry := by rw [t.position_after, cursor]
  refine ⟨here, (resume_onEntry here).trans ?_⟩
  rw [t.toFollow_after, t.toPrune_after, t.streams_after, cursor]
  simp only [ne_eq, new.opensNext_iff, Nat.ne_of_gt deep, not_false_eq_true, true_and,
    new.or_eq_some_iff fun p remembers => underway.follows p ((w.resume_slots c p).1 remembers),
    new.or_eq_some_iff fun p remembers => underway.prunes p ((w.resume_slots c p).2 remembers)]

/-- After its last turn a session is at the entry of the turn, and just what was asked for in
    the turn is carried out when it goes on. -/
theorem resume_of_session (session : w.Session (turns ++ [t]) c) :
    (c.position = .onRoot t.entry ∨ c.position = .onEntry t.entry) ∧
      (w.resume c).2.streams = (if t.opensNext then w.opened t.entry else []) ++ c.streams := by
  generalize whole : turns ++ [t] = all at session
  cases session with
  | start _ => simp at whole
  | @turn turns' c t' before yields known =>
    obtain ⟨rfl, last⟩ := List.append_inj' whole rfl
    obtain rfl := List.singleton_inj.1 last
    rw [t.streams_after]
    rcases underway_of_session before with ⟨rfl, starts⟩ | ⟨_, underway⟩
    · exact (resume_of_first starts yields known).imp .inl id
    · exact (underway.resume yields known).imp .inr id

/-- Nothing below an entry that is not gone into is visited later. -/
theorem apart_of_session {first later : List Turn} (session : w.Session (first ++ t :: later) c)
    (stays : t.goesOn = false) : ∀ u ∈ later, ¬ u.entry.path.Under t.entry.path := by
  have closed : chosen (first ++ t :: later) t.entry = false := by
    rw [follows_of_session session t (by simp), stays]
  obtain ⟨more, whole⟩ := prefix_of_session session (follows_of_session session)
  rw [List.map_append, List.map_cons, List.append_assoc, List.cons_append] at whole
  rw [preorder_eq] at whole
  split at whole
  · simp at whole
  · obtain ⟨_, rest, same, apart⟩ := preorderFrom_split whole.symm
    rw [below, closed, if_neg Bool.false_ne_true, List.nil_append] at same
    exact fun u among => apart u.entry
      (List.mem_append_right _ (same ▸ List.mem_append_left _ (List.mem_map_of_mem among)))

/-! ## Pauses in which the caller closes -/

theorem Interrupted.exists_last (interrupted : w.Interrupted (pauses ++ [p]) c) :
    ∃ c', w.Interrupted pauses c' ∧ (w.next c').outcome = .ok (some p.entry) ∧ c = p.after (w.next c').cursor := by
  generalize whole : pauses ++ [p] = all at interrupted
  cases interrupted with
  | start _ => simp at whole
  | @pause _ c' _ before yields _ =>
    obtain ⟨rfl, last⟩ := List.append_inj' whole rfl
    obtain rfl := List.singleton_inj.1 last
    exact ⟨c', before, yields, rfl⟩

theorem Interrupted.exists_before (interrupted : w.Interrupted (pauses ++ p :: later) c) :
    ∃ c', w.Interrupted pauses c' ∧ (w.next c').outcome = .ok (some p.entry) := by
  induction later using List.reverseRecOn generalizing c with
  | nil =>
    obtain ⟨c', before, yields, _⟩ := interrupted.exists_last
    exact ⟨c', before, yields⟩
  | append_singleton later last ih =>
    rw [← List.cons_append, ← List.append_assoc] at interrupted
    obtain ⟨_, before, _⟩ := interrupted.exists_last
    exact ih before

theorem resume_of_interrupted (interrupted : w.Interrupted (pauses ++ [p]) c) :
    (c.position = .onRoot p.entry ∨ c.position = .onEntry p.entry) ∧
      (∀ st ∈ (w.resume c).2.streams, w.Hangs st) ∧
      (w.resume c).2.streams = (if p.turn.opensNext then w.opened p.entry else []) ++ c.streams := by
  obtain ⟨outer, session⟩ := session_of_interrupted interrupted
  rw [List.map_append, List.map_singleton] at session
  obtain ⟨here, onward⟩ := resume_of_session session
  obtain ⟨none, _⟩ | ⟨_, underway⟩ := underway_of_session session
  · simp at none
  have hang := underway.hang
  rw [resume_within, Cursor.within] at hang
  rw [resume_within, Cursor.within, Cursor.within, ← List.append_assoc] at onward
  exact ⟨here, fun st inside => hang st (List.mem_append_left _ inside), List.append_cancel_right onward⟩

theorem visiting_of_interrupted (interrupted : w.Interrupted pauses c) (begun : pauses ≠ []) :
    ∃ e, c.position = .onRoot e ∨ c.position = .onEntry e := by
  obtain rfl | ⟨_, last, rfl⟩ := List.eq_nil_or_concat pauses
  · exact absurd rfl begun
  · rw [List.concat_eq_append] at interrupted
    exact ⟨last.entry, (resume_of_interrupted interrupted).1⟩

theorem streams_of_closed (interrupted : w.Interrupted (pauses ++ [p]) c) (closes : p.closes = true) :
    c.streams = [] := by
  obtain ⟨_, _, _, rfl⟩ := interrupted.exists_last
  rw [Pause.after_eq, if_pos closes]

/-- What comes next after a pause in which the caller closes. -/
theorem next_of_closed (interrupted : w.Interrupted (pauses ++ [p]) c) (closes : p.closes = true) :
    (w.next c).outcome = .ok (if p.turn.opensNext then w.children p.entry else []).head? := by
  obtain ⟨here, hang, onward⟩ := resume_of_interrupted interrupted
  rw [streams_of_closed interrupted closes, List.append_nil] at onward
  refine next_of_remaining (fun _ => true) here hang ?_
  rw [onward]
  split
  · exact remaining_opened _ _
  · rfl

theorem opensNext_of_closed (interrupted : w.Interrupted (pauses ++ p :: later) c) (closes : p.closes = true)
    (onward : later ≠ []) : p.turn.opensNext = true := by
  obtain ⟨q, later, rfl⟩ := List.exists_cons_of_ne_nil onward
  rw [List.append_cons] at interrupted
  obtain ⟨_, paused, yields⟩ := interrupted.exists_before
  rw [next_of_closed paused closes] at yields
  by_contra unopened
  simp [unopened] at yields

theorem path_of_opened {st : Stream} (inside : st ∈ w.opened e) : st.path = e.path := by
  unfold opened at inside
  split at inside
  · cases inside
  · rename_i st' opens
    obtain rfl := List.mem_singleton.1 inside
    obtain ⟨_, _, rfl⟩ := openStream_eq_ok_iff.1 opens
    rfl

/-- If all that will be open when the walk goes on is at a place or below it, then the next entry is below the place,
    and what is open after it is at the place or below it again. -/
theorem next_below {place : Path} (visiting : ∃ e, c.position = .onRoot e ∨ c.position = .onEntry e)
    (open' : ∀ st ∈ (w.resume c).2.streams, st.path.Under place) :
    (∀ e, (w.next c).outcome = .ok (some e) → e.path.Under place ∧ e.path ≠ place) ∧
      ∀ st ∈ (w.next c).cursor.streams, st.path.Under place := by
  obtain ⟨_, here⟩ := visiting
  rw [Scan.next_of_visiting w here]
  rcases found : (w.pull (w.resume c).2.streams).2 with f | _ | ⟨e, streams⟩
  · simp [found, Cursor.stop]
  · simp [found, Cursor.stop]
  · obtain ⟨inner, st, outer, _, n, rest, same, _, handed, rfl⟩ := pull_eq_some found
    obtain ⟨_, _, _, _, _, _, _, rfl⟩ := visit_eq_entry handed
    rw [same] at open'
    have above : st.path.Under place := open' st (by simp)
    simp only [found, Except.ok.injEq, Option.some.injEq, forall_eq']
    refine ⟨⟨(Path.child_under _ n).trans above, fun equal => ?_⟩, fun st' inside => ?_⟩
    · have root : st.path.child n = place := equal
      exact Path.not_under_child _ n (root ▸ above)
    · rcases List.mem_cons.1 inside with rfl | further
      · exact above
      · exact open' st' (by simp [further])

/-- After a pause in which the caller closes, only what is below its entry is visited. -/
theorem below_of_closed (interrupted : w.Interrupted (pauses ++ p :: later) c) (closes : p.closes = true) :
    (∀ q ∈ later, q.entry.path.Under p.entry.path ∧ q.entry.path ≠ p.entry.path) ∧
      ∀ st ∈ (w.resume c).2.streams, st.path.Under p.entry.path := by
  induction later using List.reverseRecOn generalizing c with
  | nil =>
    obtain ⟨_, _, onward⟩ := resume_of_interrupted interrupted
    refine ⟨by simp, fun st inside => ?_⟩
    rw [onward, streams_of_closed interrupted closes, List.append_nil] at inside
    split at inside
    · exact path_of_opened inside ▸ Path.under_refl _
    · cases inside
  | append_singleton later q ih =>
    rw [← List.cons_append, ← List.append_assoc] at interrupted
    obtain ⟨_, _, onward⟩ := resume_of_interrupted interrupted
    obtain ⟨c', before, yields, rfl⟩ := interrupted.exists_last
    obtain ⟨earlier, open'⟩ := ih before
    obtain ⟨below, left⟩ := next_below (visiting_of_interrupted before (by simp)) open'
    refine ⟨List.forall_mem_append.2 ⟨earlier, List.forall_mem_singleton.2 (below _ yields)⟩, fun st inside => ?_⟩
    rw [onward, Pause.after_eq, List.mem_append] at inside
    rcases inside with opened | further
    · split at opened
      · exact path_of_opened opened ▸ (below _ yields).1
      · cases opened
    · simp only at further
      split at further
      · cases further
      · exact left st further

/-- Whatever was asked for at a root that is a directory, the walk goes on to the first entry in it. -/
theorem next_of_root (interrupted : w.Interrupted [p] c) (directory : p.entry.kind = .directory)
    (unclosed : p.closes = false) : (w.next c).outcome = .ok (w.children p.entry).head? := by
  have session : w.Session [p.turn] c := session_of_unclosed interrupted (by simpa using unclosed)
  rcases underway_of_session session with ⟨none, _⟩ | ⟨_, underway⟩
  · cases none
  obtain ⟨_, visiting⟩ := underway.visiting
  refine next_of_remaining (chosen [p.turn]) visiting underway.hang ?_
  have follows := follows_of_session session
  have plan := underway.plan _ follows
  rw [preorder_eq] at plan
  split at plan
  · cases plan
  · rename_i e streams enters
    simp only [preorderFrom_eq, List.map_cons, List.map_nil, List.singleton_append, List.cons.injEq] at plan
    obtain ⟨rfl, remains⟩ : e = p.entry ∧ _ := plan
    obtain ⟨_, _, _, _, same, _⟩ := enterRoot_eq_ok enters
    have top : p.entry.depth = 0 := by rw [same]; rfl
    have goes : chosen [p.turn] p.entry = true := by
      have whole := follows p.turn (by simp)
      rw [Turn.goesOn, show p.turn.entry = p.entry from rfl, directory, top] at whole
      simpa using whole
    rw [← remains, below, if_pos goes]

/-- What a caller asks for takes effect at every entry, but for two things. A root that is a
    directory is gone into though it was pruned. And an entry that would be opened next is
    opened though the caller has closed; then all that follows is below this entry. In all
    other cases nothing follows a pause in which the caller closes, and no directory is left
    open. -/
theorem calls_of_interrupted (interrupted : w.Interrupted pauses c) :
    (∀ before p after, pauses = before ++ p :: after → p.entry.kind = .directory → p.entry.depth ≠ 0 →
      p.turn.lastPruned = some p.entry.path → ∀ q ∈ after, ¬ q.entry.path.Under p.entry.path) ∧
    (∀ p, pauses = [p] → p.entry.kind = .directory → p.closes = false →
      (w.next c).outcome = .ok (w.children p.entry).head?) ∧
    (∀ before p after, pauses = before ++ p :: after → p.closes = true →
      (∀ q ∈ after, p.turn.opensNext = true ∧ q.entry.path.Under p.entry.path ∧ q.entry.path ≠ p.entry.path) ∧
      ∀ st ∈ (w.next c).cursor.streams, st.path.Under p.entry.path) ∧
    (∀ before p, pauses = before ++ [p] → p.closes = true →
      (w.next c).outcome = .ok (if p.turn.opensNext then w.children p.entry else []).head? ∧
      ((w.next c).outcome = .ok none → (w.next c).cursor.streams = [] ∧ (w.next c).cursor.position = .ended)) := by
  refine ⟨?_, ?_, ?_, ?_⟩
  · rintro before p after rfl directory deep pruned q inside
    obtain ⟨outer, session⟩ := session_of_interrupted interrupted
    rw [List.map_append, List.map_cons] at session
    have stays : p.turn.goesOn = false := by
      simp [Turn.goesOn, show p.turn.entry = p.entry from rfl, directory, deep, pruned]
    exact apart_of_session session stays q.turn (List.mem_map_of_mem inside)
  · rintro p rfl directory unclosed
    exact next_of_root interrupted directory unclosed
  · rintro before p after rfl closes
    obtain ⟨below, open'⟩ := below_of_closed interrupted closes
    have left := (next_below (visiting_of_interrupted interrupted (by simp)) open').2
    exact ⟨fun q inside => ⟨opensNext_of_closed interrupted closes (List.ne_nil_of_mem inside), below q inside⟩, left⟩
  · rintro before p rfl closes
    exact ⟨next_of_closed interrupted closes, ended_of_next (resume_of_interrupted interrupted).1⟩

def rowEntry (path : String) (kind : EntryKind) (size : Int) (depth : Nat) : Entry :=
  ⟨.ofText path.toList, kind, size, Times.stamps ⟨0, 0, 0⟩, depth⟩

/-- Prunes the directory `a` and goes through the link `b`, and closes there and at the file that follows. -/
def leavingPauses : List Pause :=
  let a := rowEntry "/s/a" .directory 4096 1
  let b := rowEntry "/s/b" .symbolicLink 2 1
  [⟨rowEntry "/s" .directory 4096 0, []⟩, ⟨a, [.control (.prune a)]⟩, ⟨b, [.close, .control (.follow b)]⟩,
    ⟨rowEntry "/s/b/x" .regularFile 0 2, [.close]⟩]

theorem exists_interrupted_leaving : ∃ c, ofRowTree.Interrupted leavingPauses c := by
  have begun : ofRowTree.Interrupted [] { Cursor.fresh with position := .ready } := .start rfl
  have one := begun.pause (p := leavingPauses[0]) (by decide +kernel) (by decide +kernel)
  have two := one.pause (p := leavingPauses[1]) (by decide +kernel) (by decide +kernel)
  have three := two.pause (p := leavingPauses[2]) (by decide +kernel) (by decide +kernel)
  exact ⟨_, three.pause (p := leavingPauses[3]) (by decide +kernel) (by decide +kernel)⟩

/-- Nothing below `a` is visited, what follows `b` is below `b`, and in the end nothing is open. -/
theorem calls_of_interrupted_rowTree : ∃ c, ofRowTree.Interrupted leavingPauses c ∧
    (∀ q ∈ leavingPauses.drop 2, ¬ q.entry.path.Under (.ofText "/s/a".toList)) ∧
    (∀ q ∈ leavingPauses.drop 3, q.entry.path.Under (.ofText "/s/b".toList)) ∧
    (ofRowTree.next c).outcome = .ok none ∧ (ofRowTree.next c).cursor.streams = [] := by
  obtain ⟨c, interrupted⟩ := exists_interrupted_leaving
  obtain ⟨pruned, _, closed, last⟩ := calls_of_interrupted interrupted
  obtain ⟨ends, open'⟩ := last (leavingPauses.take 3) leavingPauses[3] rfl (by decide)
  have ended : (ofRowTree.next c).outcome = .ok none := ends.trans (by decide +kernel)
  refine ⟨c, interrupted, ?_, fun q inside => ?_, ended, (open' ended).1⟩
  · exact pruned (leavingPauses.take 1) leavingPauses[1] (leavingPauses.drop 2) rfl rfl (by decide) rfl
  · exact ((closed (leavingPauses.take 2) leavingPauses[2] (leavingPauses.drop 3) rfl (by decide)).1 q inside).2.1

/-- Prunes the root, and closes at `a`. -/
def hastyPauses : List Pause :=
  let s := rowEntry "/s" .directory 4096 0
  [⟨s, [.control (.prune s)]⟩, ⟨rowEntry "/s/a" .directory 4096 1, [.close]⟩]

/-- The directory `a` follows though the root was pruned, and a file in `a` follows though all was closed at `a`,
    which is then open. -/
theorem hasty_calls_not_heeded : ∃ c, ofRowTree.Interrupted hastyPauses c ∧
    (hastyPauses.map fun p => (p.turn.lastPruned, p.closes)) =
      [(some (.ofText "/s".toList), false), (none, true)] ∧
    c.streams = [] ∧
    (ofRowTree.next c).outcome = .ok (some (rowEntry "/s/a/g" .regularFile 0 2)) ∧
    ((ofRowTree.next c).cursor.streams.map fun st => st.path.text) = ["/s/a".toList] := by
  have begun : ofRowTree.Interrupted [] { Cursor.fresh with position := .ready } := .start rfl
  have one := begun.pause (p := hastyPauses[0]) (by decide +kernel) (by decide +kernel)
  have two := one.pause (p := hastyPauses[1]) (by decide +kernel) (by decide +kernel)
  exact ⟨_, two, by decide +kernel, by decide +kernel, by decide +kernel, by decide +kernel⟩

end Walk
end Inventory
