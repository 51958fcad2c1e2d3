import Inventory.Proofs.Interruptions

/-!
Each stream is kept track of from the time it is opened, with its number, the names that it
handed out, and whether its directory is still held open (`Handle`). Each stream that was
opened is either on the stack or closed, and each hands out the names of its directory in
their order (`Traffic.Kept`). Where siblings come by name, a directory is read at once and
let go.
-/
namespace Inventory

/-- A stream with what became of it. -/
structure Handle where
  /-- How many streams were opened before. -/
  number : Nat
  stream : Stream
  /-- The names that it handed out, the latest one last. -/
  handedOut : List Name
  /-- The directory itself is still held open. -/
  held : Bool
deriving DecidableEq

/-- A stream is closed, and its directory let go unless this was done before. -/
def Handle.close (h : Handle) : Handle := { h with held := false }

/-- All streams of a walk so far. -/
structure Traffic where
  /-- How many were opened. -/
  opened : Nat
  /-- Those on the stack, innermost first. -/
  stack : List Handle
  /-- Those that were taken from the stack and closed, the latest first. -/
  closed : List Handle
deriving DecidableEq

namespace Traffic

def none : Traffic := ⟨0, [], []⟩

/-- The streams on the stack are closed, the innermost first. -/
def release (t : Traffic) : Traffic :=
  { t with stack := [], closed := (t.stack.map Handle.close).reverse ++ t.closed }

end Traffic

namespace Walk

variable {w : Walk} {c : Cursor} {e : Entry} {t : Traffic}

/-- A stream comes on the stack. One that is sorted has read its directory to the end by then,
    and has let it go. -/
def opening (w : Walk) (t : Traffic) (st : Stream) : Traffic :=
  { t with opened := t.opened + 1, stack := ⟨t.opened, st, [], !w.sorted⟩ :: t.stack }

/-- The names that a stream hands out one after the other until one is not passed over, and
    those that it is left with. -/
def handOut (w : Walk) (directory : Path) (depth : Nat) : List Name → List Name × List Name
  | [] => ([], [])
  | n :: rest =>
    match w.visit directory depth n with
    | .passedOver _ =>
      let later := handOut w directory depth rest
      (n :: later.1, later.2)
    | _ => ([n], rest)

def advance (w : Walk) (h : Handle) : Handle :=
  let names := w.handOut h.stream.path h.stream.depth h.stream.pending
  { h with stream := { h.stream with pending := names.2 }, handedOut := h.handedOut ++ names.1 }

/-- The innermost stream hands out names. If none of them is visited it is closed, and the turn
    of the next one comes. -/
def drain (w : Walk) (opened : Nat) (closed : List Handle) : List Handle → Traffic
  | [] => ⟨opened, [], closed⟩
  | h :: outer =>
    match (w.pullFrom h.stream.path h.stream.depth h.stream.pending).2 with
    | .ok none => drain w opened ((w.advance h).close :: closed) outer
    | _ => ⟨opened, w.advance h :: outer, closed⟩

/-- What is opened when the walk goes on. -/
def onward (w : Walk) (c : Cursor) : List Stream :=
  match c.position with
  | .onRoot e => if c.toFollow = some e.path then w.opened e else []
  | .onEntry e =>
    if e.kind = .directory ∧ c.toPrune ≠ some e.path ∨ c.toFollow = some e.path then w.opened e else []
  | _ => []

/-- The streams when the walk goes on, before names are handed out. -/
def resumed (w : Walk) (c : Cursor) (t : Traffic) : Traffic := (w.onward c).foldl w.opening t

/-- What becomes of the streams in one step. A step that hands nothing out leaves the walk, and
    on the way out all streams are closed. -/
def traffic (w : Walk) (c : Cursor) (t : Traffic) : Traffic :=
  match c.position with
  | .idle | .ended => t
  | .ready =>
    match w.enterRoot with
    | .error _ => t
    | .ok (_, streams) => streams.foldl w.opening t
  | .onRoot _ | .onEntry _ =>
    let resumed := w.resumed c t
    let drained := w.drain resumed.opened resumed.closed resumed.stack
    match (w.next c).outcome with
    | .ok (some _) => drained
    | _ => drained.release

theorem handOut_append (directory : Path) (depth : Nat) (names : List Name) :
    (w.handOut directory depth names).1 ++ (w.handOut directory depth names).2 = names := by
  induction names with
  | nil => rfl
  | cons n names ih =>
    unfold handOut
    cases w.visit directory depth n <;> simp [ih]

/-- The name of the next entry is the latest that is handed out. -/
theorem handOut_of_pullFrom {directory : Path} {depth : Nat} {names rest : List Name}
    (found : (w.pullFrom directory depth names).2 = .ok (some (e, rest))) :
    ∃ skipped n, w.handOut directory depth names = (skipped ++ [n], rest) ∧ w.visit directory depth n = .entry e := by
  induction names with
  | nil => cases found
  | cons n names ih =>
    unfold pullFrom at found
    unfold handOut
    cases visited : w.visit directory depth n with
    | entry e' =>
      simp only [visited, Except.ok.injEq, Option.some.injEq, Prod.mk.injEq] at found
      obtain ⟨rfl, rfl⟩ := found
      exact ⟨[], n, rfl, visited⟩
    | failed f => simp [visited] at found
    | passedOver why =>
      simp only [visited] at found
      obtain ⟨skipped, m, handed, turn⟩ := ih found
      exact ⟨n :: skipped, m, by simp [handed], turn⟩

/-- The next entry comes from the innermost stream that has one, and those inside of it are closed. -/
theorem drain_of_pull {stack : List Handle} {later : List Stream} (opened : Nat) (closed : List Handle)
    (found : (w.pull (stack.map Handle.stream)).2 = .ok (some (e, later))) :
    ∃ inner h outer n, stack = inner ++ h :: outer ∧ w.visit h.stream.path h.stream.depth n = .entry e ∧
      (w.advance h).handedOut.getLast? = some n ∧ (w.drain opened closed stack).stack = w.advance h :: outer ∧
      later = (w.advance h :: outer).map Handle.stream := by
  induction stack generalizing closed with
  | nil => cases found
  | cons h stack ih =>
    rw [List.map_cons, pull] at found
    rcases front : w.pullFrom h.stream.path h.stream.depth h.stream.pending with ⟨notices, f | _ | ⟨e', rest⟩⟩
    · simp [front] at found
    · simp only [front] at found
      obtain ⟨inner, h', outer, n, rfl, turn, latest, drained, same⟩ := ih ((w.advance h).close :: closed) found
      refine ⟨h :: inner, h', outer, n, rfl, turn, latest, ?_, same⟩
      simp only [drain, front, drained]
    · simp only [front, Except.ok.injEq, Option.some.injEq, Prod.mk.injEq] at found
      obtain ⟨rfl, rfl⟩ := found
      obtain ⟨skipped, n, handed, turn⟩ := handOut_of_pullFrom (by rw [front])
      refine ⟨[], h, stack, n, rfl, turn, ?_, ?_, ?_⟩
      · simp [advance, handed]
      · simp only [drain, front]
      · simp [advance, handed]

theorem streams_resume (w : Walk) (c : Cursor) : (w.resume c).2.streams = w.onward c ++ c.streams := by
  cases here : c.position with
  | idle | ready | ended => simp [resume, onward, here]
  | onRoot e => rw [resume_onRoot here, onward, here]
  | onEntry e => rw [resume_onEntry here, onward, here]

/-- Where a directory cannot be opened, nothing comes on the stack. -/
theorem onward_of_shut {why : Errno} (visiting : c.position = .onRoot e ∨ c.position = .onEntry e)
    (shut : w.openStream e.path (e.depth + 1) = .error why) : w.onward c = [] := by
  have none : w.opened e = [] := by rw [opened, shut]
  rcases visiting with here | here <;> simp [onward, here, none]

/-- The walk goes on as it is, or opens the entry; the root only if it is followed. -/
theorem onward_cases (w : Walk) (c : Cursor) :
    w.onward c = [] ∨
      ∃ e, (c.position = .onRoot e ∧ c.toFollow = some e.path ∨ c.position = .onEntry e) ∧ w.onward c = w.opened e := by
  cases here : c.position with
  | idle | ready | ended => exact .inl (by simp only [onward, here])
  | onRoot e =>
    by_cases follows : c.toFollow = some e.path
    · exact .inr ⟨e, .inl ⟨rfl, follows⟩, by simp only [onward, here, if_pos follows]⟩
    · exact .inl (by simp only [onward, here, if_neg follows])
  | onEntry e =>
    by_cases goes : e.kind = .directory ∧ c.toPrune ≠ some e.path ∨ c.toFollow = some e.path
    · exact .inr ⟨e, .inr rfl, by simp only [onward, here, if_pos goes]⟩
    · exact .inl (by simp only [onward, here, if_neg goes])

theorem resumed_cases (w : Walk) (c : Cursor) (t : Traffic) :
    w.onward c = [] ∧ w.resumed c t = t ∨
      ∃ e st, (c.position = .onRoot e ∧ c.toFollow = some e.path ∨ c.position = .onEntry e) ∧
        w.openStream e.path (e.depth + 1) = .ok st ∧ w.onward c = [st] ∧ w.resumed c t = w.opening t st := by
  rcases w.onward_cases c with none | ⟨e, here, goes⟩
  · exact .inl ⟨none, by rw [resumed, none]; rfl⟩
  · cases opens : w.openStream e.path (e.depth + 1) with
    | error why =>
      have none : w.onward c = [] := by rw [goes, opened, opens]
      exact .inl ⟨none, by rw [resumed, none]; rfl⟩
    | ok st =>
      have one : w.onward c = [st] := by rw [goes, opened, opens]
      exact .inr ⟨e, st, here, opens, one, by rw [resumed, one]; rfl⟩

theorem streams_resumed (same : t.stack.map Handle.stream = c.streams) :
    (w.resumed c t).stack.map Handle.stream = (w.resume c).2.streams := by
  rw [streams_resume, ← same]
  rcases w.resumed_cases c t with ⟨none, kept⟩ | ⟨_, _, _, _, one, opens⟩
  · rw [none, kept, List.nil_append]
  · rw [one, opens]
    rfl

theorem traffic_of_visiting (t : Traffic) (visiting : c.position = .onRoot e ∨ c.position = .onEntry e) :
    w.traffic c t =
      let drained := w.drain (w.resumed c t).opened (w.resumed c t).closed (w.resumed c t).stack
      match (w.next c).outcome with
      | .ok (some _) => drained
      | _ => drained.release := by
  rcases visiting with here | here <;> simp only [traffic, here]

/-- A step that hands out an entry leaves the stream on top from which it comes. -/
theorem traffic_of_yields {e' : Entry} (visiting : c.position = .onRoot e' ∨ c.position = .onEntry e')
    (same : t.stack.map Handle.stream = c.streams) (yields : (w.next c).outcome = .ok (some e)) :
    ∃ inner h outer n, (w.resumed c t).stack = inner ++ h :: outer ∧
      w.visit h.stream.path h.stream.depth n = .entry e ∧ (w.advance h).handedOut.getLast? = some n ∧
      (w.traffic c t).stack = w.advance h :: outer ∧
      (w.next c).cursor =
        { (w.resume c).2 with streams := (w.advance h :: outer).map Handle.stream, position := .onEntry e } := by
  obtain ⟨later, found⟩ := exists_pull visiting yields
  have cursor := (next_of_pull visiting found).2
  rw [← streams_resumed same] at found
  obtain ⟨inner, h, outer, n, whole, turn, latest, drained, streams⟩ :=
    drain_of_pull (w.resumed c t).opened (w.resumed c t).closed found
  refine ⟨inner, h, outer, n, whole, turn, latest, ?_, streams ▸ cursor⟩
  rw [traffic_of_visiting t visiting, yields]
  exact drained

/-- A step that hands out no entry ends the walk, with nothing on the stack. -/
theorem traffic_of_ended {e' : Entry} (visiting : c.position = .onRoot e' ∨ c.position = .onEntry e')
    (ends : ∀ e, (w.next c).outcome ≠ .ok (some e)) :
    (w.traffic c t).stack = [] ∧ (w.next c).cursor.streams = [] ∧ (w.next c).cursor.position = .ended := by
  rw [traffic_of_visiting t visiting]
  rw [Scan.next_of_visiting w visiting] at ends ⊢
  rcases found : (w.pull (w.resume c).2.streams).2 with f | _ | ⟨e, streams⟩
  · simp [found, Cursor.stop, Traffic.release]
  · simp [found, Cursor.stop, Traffic.release]
  · simp [found] at ends

/-- The streams on the stack are those of the cursor. -/
theorem streams_traffic (same : t.stack.map Handle.stream = c.streams)
    (first : c.position = .ready → t.stack = []) :
    (w.traffic c t).stack.map Handle.stream = (w.next c).cursor.streams := by
  have of_visiting {e : Entry} (visiting : c.position = .onRoot e ∨ c.position = .onEntry e) :
      (w.traffic c t).stack.map Handle.stream = (w.next c).cursor.streams := by
    by_cases yields : ∃ e', (w.next c).outcome = .ok (some e')
    · obtain ⟨e', yields⟩ := yields
      obtain ⟨_, h, outer, _, _, _, _, stack, cursor⟩ := traffic_of_yields visiting same yields
      rw [stack, cursor]
    · obtain ⟨stack, streams, _⟩ := traffic_of_ended (t := t) visiting (not_exists.1 yields)
      rw [stack, streams]
      rfl
  cases here : c.position with
  | idle | ended => simpa [traffic, next, here] using same
  | onRoot e => exact of_visiting (.inl here)
  | onEntry e => exact of_visiting (.inr here)
  | ready =>
    cases enters : w.enterRoot with
    | error f => simpa [traffic, next, here, enters] using same
    | ok found =>
      obtain ⟨e, streams⟩ := found
      obtain ⟨_, _, _, _, _, ⟨_, st, _, rfl⟩ | ⟨_, rfl⟩⟩ := enterRoot_eq_ok enters
      · simp [traffic, next, here, enters, opening, first here]
      · simp [traffic, next, here, enters, first here]

end Walk

/-- A stream hands out the names of its directory in their order, each of them once. -/
structure Handle.Reads (w : Walk) (h : Handle) : Prop where
  listed : ∃ names, w.system.list h.stream.path = .ok names ∧ h.handedOut ++ h.stream.pending = w.ordered names
  once : (h.handedOut ++ h.stream.pending).Nodup

/-- The streams that were opened are on the stack or closed, and none is both. Those on the stack
    hold their directories open, unless they are sorted; the closed ones do not. -/
structure Traffic.Kept (w : Walk) (t : Traffic) : Prop where
  numbered : ((t.stack ++ t.closed).map Handle.number).Perm (List.range t.opened)
  reads : ∀ h ∈ t.stack ++ t.closed, h.Reads w
  held : ∀ h ∈ t.stack, h.held = !w.sorted
  released : ∀ h ∈ t.closed, h.held = false

namespace Handle.Reads

variable {w : Walk} {h : Handle}

theorem close (reads : h.Reads w) : h.close.Reads w := ⟨reads.listed, reads.once⟩

theorem advance (reads : h.Reads w) : (w.advance h).Reads w := by
  have same : (w.advance h).handedOut ++ (w.advance h).stream.pending = h.handedOut ++ h.stream.pending := by
    rw [Walk.advance, List.append_assoc, Walk.handOut_append]
  obtain ⟨⟨names, listed, order⟩, once⟩ := reads
  exact ⟨⟨names, listed, same.trans order⟩, same ▸ once⟩

end Handle.Reads

namespace Traffic.Kept

variable {w : Walk} {c : Cursor} {t : Traffic}

theorem none (w : Walk) : Traffic.none.Kept w where
  numbered := List.Perm.refl _
  reads := by simp [Traffic.none]
  held := by simp [Traffic.none]
  released := by simp [Traffic.none]

theorem opening (kept : t.Kept w) {p : Path} {depth : Nat} {st : Stream} (opens : w.openStream p depth = .ok st) :
    (w.opening t st).Kept w where
  numbered := by
    rw [Walk.opening, List.range_succ]
    exact (kept.numbered.cons t.opened).trans (List.perm_append_singleton t.opened _).symm
  reads h among := by
    rcases List.mem_cons.1 among with rfl | earlier
    · have distinct := (Walk.pending_of_openStream opens).1
      obtain ⟨names, listed, rfl⟩ := Walk.openStream_eq_ok_iff.1 opens
      exact ⟨⟨names, listed, rfl⟩, distinct⟩
    · exact kept.reads h earlier
  held h among := by
    rcases List.mem_cons.1 among with rfl | earlier
    · rfl
    · exact kept.held h earlier
  released := kept.released

theorem release (kept : t.Kept w) : t.release.Kept w where
  numbered := by
    refine List.Perm.trans ?_ kept.numbered
    rw [Traffic.release, List.nil_append, List.map_append, List.map_append, List.map_reverse, List.map_map]
    exact (List.reverse_perm _).append_right _
  reads h among := by
    rcases List.mem_append.1 among with now | earlier
    · cases now
    · rcases List.mem_append.1 earlier with now | earlier
      · obtain ⟨h', inside, rfl⟩ := List.mem_map.1 (List.mem_reverse.1 now)
        exact (kept.reads h' (List.mem_append_left _ inside)).close
      · exact kept.reads h (List.mem_append_right _ earlier)
  held h among := by cases among
  released h among := by
    rcases List.mem_append.1 among with now | earlier
    · obtain ⟨h', _, rfl⟩ := List.mem_map.1 (List.mem_reverse.1 now)
      rfl
    · exact kept.released h earlier

theorem drain {opened : Nat} {stack closed : List Handle} (kept : Traffic.Kept w ⟨opened, stack, closed⟩) :
    (w.drain opened closed stack).Kept w := by
  induction stack generalizing closed with
  | nil => exact kept
  | cons h outer ih =>
    obtain ⟨numbered, reads, held, released⟩ := kept
    have own : (w.advance h).Reads w := (reads h (by simp)).advance
    have others : ∀ h' ∈ outer ++ closed, h'.Reads w := fun h' among => reads h' (List.mem_cons_of_mem _ among)
    unfold Walk.drain
    split
    · refine ih ⟨?_, ?_, fun h' among => held h' (List.mem_cons_of_mem _ among), ?_⟩
      · refine List.Perm.trans ?_ numbered
        exact (List.perm_middle.map Handle.number).trans (by simp [Handle.close, Walk.advance])
      · intro h' among
        rcases List.mem_append.1 among with inside | before
        · exact others h' (List.mem_append_left _ inside)
        · rcases List.mem_cons.1 before with rfl | before
          · exact own.close
          · exact others h' (List.mem_append_right _ before)
      · intro h' among
        rcases List.mem_cons.1 among with rfl | before
        · rfl
        · exact released h' before
    · refine ⟨numbered, ?_, ?_, released⟩
      · intro h' among
        rcases List.mem_cons.1 among with rfl | further
        · exact own
        · exact others h' further
      · intro h' among
        rcases List.mem_cons.1 among with rfl | inside
        · exact held h (by simp)
        · exact held h' (by simp [inside])

theorem resumed (kept : t.Kept w) (c : Cursor) : (w.resumed c t).Kept w := by
  rcases w.resumed_cases c t with ⟨_, same⟩ | ⟨_, _, _, opens, _, opening⟩
  · rw [same]
    exact kept
  · rw [opening]
    exact kept.opening opens

theorem traffic (kept : t.Kept w) (c : Cursor) : (w.traffic c t).Kept w := by
  have of_visiting {e : Entry} (visiting : c.position = .onRoot e ∨ c.position = .onEntry e) :
      (w.traffic c t).Kept w := by
    rw [Walk.traffic_of_visiting t visiting]
    simp only
    split
    · exact (kept.resumed c).drain
    · exact (kept.resumed c).drain.release
  cases here : c.position with
  | idle | ended => simpa only [Walk.traffic, here] using kept
  | onRoot e => exact of_visiting (.inl here)
  | onEntry e => exact of_visiting (.inr here)
  | ready =>
    simp only [Walk.traffic, here]
    cases enters : w.enterRoot with
    | error f => exact kept
    | ok found =>
      obtain ⟨e, streams⟩ := found
      obtain ⟨_, _, _, _, _, ⟨_, st, opens, rfl⟩ | ⟨_, rfl⟩⟩ := Walk.enterRoot_eq_ok enters
      · exact kept.opening opens
      · exact kept

end Traffic.Kept
end Inventory
