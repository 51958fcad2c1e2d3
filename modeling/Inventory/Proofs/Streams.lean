import Inventory.Proofs.StreamTraffic

/-!
At an entry below the root the open streams are those of the directories above it
(`Walk.Lined`): each was opened where the one outside of it had handed out its latest name.
This holds whatever a caller asks for, with one exception. A caller that makes up a link on
the path of the root and follows it has the root opened a second time (`Walk.Reopened`).
However a walk comes to its end, all streams that were opened have been closed
(`Walk.Ends`).
-/
namespace Inventory

namespace Path

variable {p q root : Path}

/-- The paths from `root` down to the one just above `p`. -/
def ancestors (p root : Path) : List Path :=
  (List.range (p.parts.length - root.parts.length)).map fun k => ⟨p.root, p.parts.take (root.parts.length + k)⟩

@[simp] theorem ancestors_self (p : Path) : p.ancestors p = [] := by simp [ancestors]

theorem ancestors_child (under : p.Under root) (n : Name) : (p.child n).ancestors root = p.ancestors root ++ [p] := by
  have shorter := under.2.length_le
  have longer : (p.child n).parts.length - root.parts.length = p.parts.length - root.parts.length + 1 := by
    simp only [child, List.length_append, List.length_singleton]
    omega
  have own : (⟨p.root, (p.child n).parts.take (root.parts.length + (p.parts.length - root.parts.length))⟩ : Path) = p := by
    rw [Nat.add_sub_cancel' shorter]
    simp [child]
  rw [ancestors, longer, List.range_succ, List.map_append, List.map_singleton]
  refine congrArg₂ (· ++ ·) (List.map_congr_left fun k inside => ?_) (congrArg (fun q => [q]) own)
  have early : root.parts.length + k ≤ p.parts.length := by
    have := List.mem_range.1 inside
    omega
  simp [child, List.take_append_of_le_length early]

theorem mem_ancestors_iff (under : p.Under root) : q ∈ p.ancestors root ↔ p.Under q ∧ q ≠ p ∧ q.Under root := by
  have shorter := under.2.length_le
  constructor
  · intro inside
    obtain ⟨k, early, rfl⟩ := List.mem_map.1 inside
    rw [List.mem_range] at early
    have length : (p.parts.take (root.parts.length + k)).length = root.parts.length + k := by
      rw [List.length_take]
      omega
    refine ⟨⟨rfl, List.take_prefix _ _⟩, ?_, under.1, ?_⟩
    · intro same
      have lengths : (p.parts.take (root.parts.length + k)).length = p.parts.length :=
        congrArg (fun q : Path => q.parts.length) same
      omega
    · exact List.prefix_of_prefix_length_le under.2 (List.take_prefix _ _) ((Nat.le_add_right _ k).trans length.ge)
  · rintro ⟨above, proper, below⟩
    have taken : q.parts = p.parts.take q.parts.length := List.prefix_iff_eq_take.1 above.2
    have deeper := below.2.length_le
    have strict : q.parts.length < p.parts.length := by
      by_contra long
      exact proper (Path.under_antisymm ⟨above.1.symm, above.2.eq_of_length_le (by omega) ▸ List.prefix_refl _⟩ above)
    refine List.mem_map.2 ⟨q.parts.length - root.parts.length, List.mem_range.2 (by omega), ?_⟩
    rw [Nat.add_sub_cancel' deeper, ← taken, above.1]

end Path

namespace Walk

variable {w : Walk} {c : Cursor} {e : Entry} {early : List Control} {turns : List Turn} {t : Traffic} {u : Turn}

section Chains

variable {root p : Path} {again again' : Prop} {inner stack : List Handle} {depth : Nat}

/-- A stream of the root that has handed out nothing. -/
structure Untouched (root : Path) (h : Handle) : Prop where
  path : h.stream.path = root
  depth : h.stream.depth = 1
  handedOut : h.handedOut = []

/-- The streams, innermost first, lead from the root to a path at a depth: each is that of a
    directory whose latest name leads on. The root may be open before if it is opened again. -/
inductive Chain (root : Path) (again : Prop) : List Handle → Path → Nat → Prop where
  | root : Chain root again [] root 0
  | reopened {h : Handle} (holds : again) (untouched : Untouched root h) : Chain root again [h] root 0
  | child {h : Handle} {outer : List Handle} {n : Name} {depth : Nat}
      (above : Chain root again outer h.stream.path depth) (deep : h.stream.depth = depth + 1)
      (latest : h.handedOut.getLast? = some n) : Chain root again (h :: outer) (h.stream.path.child n) (depth + 1)

/-- The innermost stream is that of a directory to which the others lead. -/
def Poised (root : Path) (again : Prop) : List Handle → Prop
  | [] => True
  | h :: outer => ∃ depth, Chain root again outer h.stream.path depth ∧ h.stream.depth = depth + 1

theorem Chain.mono (chain : Chain root again stack p depth) (weaker : again → again') :
    Chain root again' stack p depth := by
  induction chain with
  | root => exact .root
  | reopened holds untouched => exact .reopened (weaker holds) untouched
  | child _ deep latest ih => exact .child ih deep latest

theorem Chain.poised (chain : Chain root again stack p depth) : Poised root again stack := by
  cases chain with
  | root => trivial
  | reopened holds untouched => exact ⟨0, untouched.path ▸ .root, untouched.depth⟩
  | child above deep latest => exact ⟨_, above, deep⟩

theorem Poised.of_append (poised : Poised root again (inner ++ stack)) : Poised root again stack := by
  induction inner with
  | nil => exact poised
  | cons h inner ih =>
    obtain ⟨_, above, _⟩ := poised
    exact ih above.poised

theorem Chain.under (chain : Chain root again stack p depth) : p.Under root := by
  induction chain with
  | root | reopened => exact Path.under_refl root
  | child _ _ _ ih => exact (Path.child_under _ _).trans ih

/-- The streams are those of the directories from the root down to the one above an entry, the
    innermost first, and the entry came from the innermost. -/
structure Lined (root : Path) (streams : List Handle) (e : Entry) : Prop where
  paths : (streams.reverse.map fun h => h.stream.path) = e.path.ancestors root
  depths : (streams.reverse.map fun h => h.stream.depth) = List.range' 1 e.depth
  latest : ∃ h outer n, streams = h :: outer ∧ h.handedOut.getLast? = some n ∧ e.path = h.stream.path.child n

theorem Lined.length {streams : List Handle} (lined : Lined root streams e) : streams.length = e.depth := by
  have lengths := congrArg List.length lined.depths
  rwa [List.length_map, List.length_reverse, List.length_range'] at lengths

/-- At the bottom of a chain there is at most one stream too many. -/
theorem Chain.split (chain : Chain root again stack p depth) : ∃ own before, stack = own ++ before ∧
    (own.reverse.map fun h => h.stream.path) = p.ancestors root ∧
    (own.reverse.map fun h => h.stream.depth) = List.range' 1 depth ∧
    (depth = 0 ∨ ∃ h outer n, own = h :: outer ∧ h.handedOut.getLast? = some n ∧ p = h.stream.path.child n) ∧
    (before = [] ∨ again ∧ ∃ h, before = [h] ∧ Untouched root h) := by
  induction chain with
  | root => exact ⟨[], [], rfl, by simp, rfl, .inl rfl, .inl rfl⟩
  | @reopened h holds untouched => exact ⟨[], [h], rfl, by simp, rfl, .inl rfl, .inr ⟨holds, h, rfl, untouched⟩⟩
  | @child h outer n depth above deep latest ih =>
    obtain ⟨own, before, rfl, paths, depths, _, rest⟩ := ih
    refine ⟨h :: own, before, rfl, ?_, ?_, .inr ⟨h, own, n, rfl, latest, rfl⟩, rest⟩
    · rw [List.reverse_cons, List.map_append, paths, Path.ancestors_child above.under]
      rfl
    · rw [List.reverse_cons, List.map_append, depths, List.range'_1_concat, Nat.add_comm 1 depth, ← deep]
      rfl

theorem Chain.lined (chain : Chain root again stack e.path e.depth) (below : e.depth ≠ 0) : ∃ own before,
    stack = own ++ before ∧ Lined root own e ∧ (before = [] ∨ again ∧ ∃ h, before = [h] ∧ Untouched root h) := by
  obtain ⟨own, before, whole, paths, depths, latest, rest⟩ := chain.split
  exact ⟨own, before, whole, ⟨paths, depths, latest.resolve_left below⟩, rest⟩

end Chains

/-- A caller steps through a walk and asks for what it likes before the first step and in each
    turn, about entries that it has seen or made up. -/
inductive Attended (w : Walk) (early : List Control) : List Turn → Cursor → Traffic → Prop where
  | start {c : Cursor} (starts : Cursor.fresh.start = .ok c) : Attended w early [] (early.foldl Cursor.obey c) .none
  | turn {turns : List Turn} {c : Cursor} {t : Traffic} {u : Turn} (before : Attended w early turns c t)
      (yields : (w.next c).outcome = .ok (some u.entry)) :
      Attended w early (turns ++ [u]) (u.after (w.next c).cursor) (w.traffic c t)

/-- The ways in which a walk comes to its end where it stands. -/
inductive Ends (w : Walk) (c : Cursor) (t : Traffic) : Cursor → Traffic → Prop where
  | exhausted (none : (w.next c).outcome = .ok none) : Ends w c t (w.next c).cursor (w.traffic c t)
  | failed {f : Failure} (fails : (w.next c).outcome = .error f) : Ends w c t (w.next c).cursor (w.traffic c t)
  /-- Its caller closes it, or an exception is thrown into it. -/
  | left : Ends w c t c.stop t.release

/-- The root is a directory, and it was the last to be followed before the walk went on from it. -/
def Reopened (early : List Control) (turns : List Turn) : Prop :=
  ∃ u later, turns = u :: later ∧ u.entry.kind = .directory ∧
    ((early ++ u.controls).filterMap Control.followed?).getLast? = some u.entry.path

theorem Reopened.append (reopened : Reopened early turns) (more : List Turn) : Reopened early (turns ++ more) := by
  obtain ⟨u, later, rfl, directory, follows⟩ := reopened
  exact ⟨u, later ++ more, rfl, directory, follows⟩

/-- Before the first step nothing is open. -/
structure Waits (early : List Control) (turns : List Turn) (c : Cursor) (t : Traffic) : Prop where
  first : turns = []
  position : c.position = .ready
  streams : c.streams = []
  follow : c.toFollow = (early.filterMap Control.followed?).getLast?
  opened : t = .none

/-- Where a walk stands, the streams on the stack lead there. -/
inductive Placed (w : Walk) (early : List Control) : List Turn → Cursor → List Handle → Prop where
  | onRoot {u : Turn} {c : Cursor} {stack : List Handle} (here : c.position = .onRoot u.entry)
      (path : u.entry.path = w.root) (top : u.entry.depth = 0)
      (asked : c.toFollow = ((early ++ u.controls).filterMap Control.followed?).getLast?)
      (holds : stack = [] ∨ u.entry.kind = .directory ∧ ∃ h, stack = [h] ∧ Untouched w.root h) :
      Placed w early [u] c stack
  | onEntry {turns : List Turn} {c : Cursor} {stack : List Handle} {e : Entry} (here : c.position = .onEntry e)
      (below : e.depth ≠ 0) (chain : Chain w.root (Reopened early turns) stack e.path e.depth) :
      Placed w early turns c stack

structure Stands (w : Walk) (early : List Control) (turns : List Turn) (c : Cursor) (t : Traffic) : Prop where
  streams : t.stack.map Handle.stream = c.streams
  kept : t.Kept w
  placed : Placed w early turns c t.stack

/-! ## From turn to turn -/

namespace Placed

variable {stack : List Handle}

theorem visiting (placed : w.Placed early turns c stack) : ∃ e, c.position = .onRoot e ∨ c.position = .onEntry e := by
  cases placed with
  | onRoot here => exact ⟨_, .inl here⟩
  | onEntry here => exact ⟨_, .inr here⟩

/-- What is opened where the walk stands goes on from the streams that lead there. -/
theorem poised (placed : w.Placed early turns c t.stack) :
    Poised w.root (Reopened early turns) (w.resumed c t).stack := by
  rcases w.resumed_cases c t with ⟨_, same⟩ | ⟨e, st, visiting, opens, _, opening⟩
  · rw [same]
    cases placed with
    | onEntry here below chain => exact chain.poised
    | onRoot here path top asked holds =>
      rcases holds with none | ⟨_, h, one, untouched⟩
      · rw [none]
        trivial
      · rw [one]
        exact ⟨0, untouched.path ▸ .root, untouched.depth⟩
  · rw [opening]
    obtain ⟨_, _, rfl⟩ := openStream_eq_ok_iff.1 opens
    cases placed with
    | @onRoot u _ _ here path top asked holds =>
      obtain ⟨rfl, follows⟩ : u.entry = e ∧ c.toFollow = some u.entry.path := by
        rcases visiting with ⟨here', follows⟩ | here'
        · obtain rfl := Position.onRoot.inj (here.symm.trans here')
          exact ⟨rfl, follows⟩
        · cases here.symm.trans here'
      refine ⟨0, ?_, congrArg (· + 1) top⟩
      rcases holds with none | ⟨directory, h, one, untouched⟩
      · simpa only [none, path] using Chain.root
      · simpa only [one, path] using Chain.reopened ⟨u, [], rfl, directory, asked.symm.trans follows⟩ untouched
    | @onEntry _ _ _ e' here below chain =>
      obtain rfl : e' = e := by
        rcases visiting with ⟨here', _⟩ | here'
        · cases here.symm.trans here'
        · exact Position.onEntry.inj (here.symm.trans here')
      exact ⟨e'.depth, chain, rfl⟩

end Placed

theorem waits_of_start (early : List Control) (starts : Cursor.fresh.start = .ok c) :
    Waits early [] (early.foldl Cursor.obey c) .none := by
  obtain rfl : c = { Cursor.fresh with position := .ready } := by
    simpa [Cursor.start, Cursor.fresh, eq_comm] using starts
  rw [Cursor.foldl_obey]
  exact ⟨rfl, rfl, rfl, Option.or_none, rfl⟩

namespace Waits

variable (waits : Waits early turns c t)

include waits

theorem kept (w : Walk) : t.Kept w := by
  rw [waits.opened]
  exact Traffic.Kept.none w

theorem same : t.stack.map Handle.stream = c.streams := by
  rw [waits.opened, waits.streams]
  rfl

/-- The first turn, at the root. -/
theorem step (yields : (w.next c).outcome = .ok (some u.entry)) :
    w.Stands early (turns ++ [u]) (u.after (w.next c).cursor) (w.traffic c t) := by
  have streams := streams_traffic (w := w) waits.same fun _ => by rw [waits.opened]; rfl
  refine ⟨streams.trans (u.streams_after _).symm, (waits.kept w).traffic c, ?_⟩
  obtain ⟨rfl, ready, _, follow, rfl⟩ := waits
  simp only [next, Walk.traffic, ready] at yields ⊢
  cases enters : w.enterRoot with
  | error f => simp [enters] at yields
  | ok found =>
    obtain ⟨e, streams⟩ := found
    obtain rfl : e = u.entry := by simpa [enters] using yields
    obtain ⟨node, kind, _, _, same, ways⟩ := enterRoot_eq_ok enters
    have path : u.entry.path = w.root := by rw [same]; rfl
    have top : u.entry.depth = 0 := by rw [same]; rfl
    have kind' : u.entry.kind = kind := by rw [same]; rfl
    have asked : (u.after { c with streams := streams, position := .onRoot u.entry }).toFollow =
        ((early ++ u.controls).filterMap Control.followed?).getLast? := by
      rw [u.toFollow_after, List.filterMap_append, List.getLast?_append, Turn.lastFollowed]
      exact congrArg _ follow
    refine .onRoot (u.position_after _) path top asked ?_
    rcases ways with ⟨directory, st, opens, rfl⟩ | ⟨_, rfl⟩
    · right
      obtain ⟨names, _, rfl⟩ := openStream_eq_ok_iff.1 opens
      exact ⟨kind'.trans directory, _, rfl, rfl, rfl, rfl⟩
    · left
      rfl

/-- A root that cannot be visited or opened ends the walk with nothing opened. -/
theorem of_failed {f : Failure} (enters : w.enterRoot = .error f) :
    (w.next c).cursor.position = .ended ∧ (w.next c).cursor.streams = [] ∧ w.traffic c t = .none := by
  simp [next, traffic, waits.position, enters, waits.streams, waits.opened]

theorem enterRoot_of_failed {f : Failure} (fails : (w.next c).outcome = .error f) : w.enterRoot = .error f := by
  cases enters : w.enterRoot with
  | error f' => simpa [next, waits.position, enters] using fails
  | ok found => simp [next, waits.position, enters] at fails

theorem not_exhausted : (w.next c).outcome ≠ .ok none := by
  cases enters : w.enterRoot <;> simp [next, waits.position, enters]

end Waits

/-- Each turn leads the streams on. -/
theorem Stands.step (stands : w.Stands early turns c t) (yields : (w.next c).outcome = .ok (some u.entry)) :
    w.Stands early (turns ++ [u]) (u.after (w.next c).cursor) (w.traffic c t) := by
  obtain ⟨same, kept, placed⟩ := stands
  obtain ⟨_, visiting⟩ := placed.visiting
  obtain ⟨inner, h, outer, n, whole, turn, latest, stack, cursor⟩ := traffic_of_yields visiting same yields
  obtain ⟨depth, above, deep⟩ : Poised w.root (Reopened early turns) (h :: outer) :=
    Poised.of_append (whole ▸ placed.poised)
  obtain ⟨_, _, _, _, _, _, _, entry⟩ := visit_eq_entry turn
  have path : u.entry.path = h.stream.path.child n := by rw [entry]; rfl
  have level : u.entry.depth = depth + 1 := by rw [← deep, entry]; rfl
  refine ⟨?_, kept.traffic c, .onEntry (e := u.entry) ?_ ?_ ?_⟩
  · rw [stack, u.streams_after, cursor]
  · rw [u.position_after, cursor]
  · omega
  · rw [stack, path, level]
    exact .child (above.mono fun reopened => reopened.append [u]) deep latest

theorem stands_of_attended (attended : w.Attended early turns c t) :
    Waits early turns c t ∨ w.Stands early turns c t := by
  induction attended with
  | start starts => exact .inl (waits_of_start early starts)
  | turn _ yields ih =>
    rcases ih with waits | stands
    · exact .inr (waits.step yields)
    · exact .inr (stands.step yields)

theorem kept_of_attended (attended : w.Attended early turns c t) :
    t.stack.map Handle.stream = c.streams ∧ t.Kept w := by
  rcases stands_of_attended attended with waits | stands
  · exact ⟨waits.same, waits.kept w⟩
  · exact ⟨stands.streams, stands.kept⟩

theorem lined_of_attended (attended : w.Attended early turns c t) (here : c.position = .onEntry e) :
    ∃ own before, t.stack = own ++ before ∧ Lined w.root own e ∧
      (before = [] ∨ Reopened early turns ∧ ∃ h, before = [h] ∧ Untouched w.root h) := by
  rcases stands_of_attended attended with waits | stands
  · cases waits.position.symm.trans here
  · cases stands.placed with
    | onRoot here' => cases here.symm.trans here'
    | onEntry here' below chain =>
      obtain rfl := Position.onEntry.inj (here.symm.trans here')
      exact chain.lined below

theorem ends_of_attended (attended : w.Attended early turns c t) {c' : Cursor} {t' : Traffic}
    (ends : w.Ends c t c' t') : c'.position = .ended ∧ c'.streams = [] ∧ t'.stack = [] ∧ t'.Kept w := by
  have kept := (kept_of_attended attended).2
  have of_next (nothing : ∀ e, (w.next c).outcome ≠ .ok (some e)) :
      (w.next c).cursor.position = .ended ∧ (w.next c).cursor.streams = [] ∧ (w.traffic c t).stack = [] := by
    rcases stands_of_attended attended with waits | stands
    · cases outcome : (w.next c).outcome with
      | error f =>
        obtain ⟨position, streams, opened⟩ := waits.of_failed (waits.enterRoot_of_failed outcome)
        exact ⟨position, streams, by rw [opened]; rfl⟩
      | ok found =>
        cases found with
        | none => exact absurd outcome waits.not_exhausted
        | some e => exact absurd outcome (nothing e)
    · obtain ⟨_, visiting⟩ := stands.placed.visiting
      obtain ⟨stack, streams, position⟩ := traffic_of_ended (t := t) visiting nothing
      exact ⟨position, streams, stack⟩
  cases ends with
  | exhausted none =>
    obtain ⟨position, streams, stack⟩ := of_next (by simp [none])
    exact ⟨position, streams, stack, kept.traffic c⟩
  | failed fails =>
    obtain ⟨position, streams, stack⟩ := of_next (by simp [fails])
    exact ⟨position, streams, stack, kept.traffic c⟩
  | left => exact ⟨rfl, rfl, rfl, kept.release⟩

/-- What becomes of the streams of a walk, whatever its caller asks for. Those on the stack are
    those of the cursor, and no stream hands out a name twice. At an entry below the root they are
    those of the directories above it, and the entry came from the innermost; if the root was
    opened again, its first stream may be outside of them, with nothing handed out. When the walk
    is over, all streams that were opened are closed. And a directory that cannot be opened leaves
    the streams as they are. -/
theorem streams_of_attended (attended : w.Attended early turns c t) :
    t.stack.map Handle.stream = c.streams ∧ t.Kept w ∧
      (∀ e, c.position = .onEntry e → ∃ own before, t.stack = own ++ before ∧ Lined w.root own e ∧
        own.length = e.depth ∧ (before = [] ∨ Reopened early turns ∧ ∃ h, before = [h] ∧ Untouched w.root h)) ∧
      (∀ c' t', w.Ends c t c' t' → c'.position = .ended ∧ c'.streams = [] ∧ t'.stack = [] ∧
        (t'.closed.map Handle.number).Perm (List.range t'.opened) ∧ ∀ h ∈ t'.closed, h.held = false ∧ h.Reads w) ∧
      (∀ e why, c.position = .onRoot e ∨ c.position = .onEntry e →
        w.openStream e.path (e.depth + 1) = .error why → (w.resume c).2.streams = c.streams ∧ w.resumed c t = t) ∧
      (∀ f, c.position = .ready → w.enterRoot = .error f →
        (w.next c).cursor.streams = [] ∧ w.traffic c t = .none) := by
  obtain ⟨same, kept⟩ := kept_of_attended attended
  refine ⟨same, kept, ?_, ?_, ?_, ?_⟩
  · intro e here
    obtain ⟨own, before, whole, lined, rest⟩ := lined_of_attended attended here
    exact ⟨own, before, whole, lined, lined.length, rest⟩
  · intro c' t' ends
    obtain ⟨position, streams, stack, kept'⟩ := ends_of_attended attended ends
    have numbered := kept'.numbered
    have reads := kept'.reads
    rw [stack, List.nil_append] at numbered reads
    exact ⟨position, streams, stack, numbered, fun h among => ⟨kept'.released h among, reads h among⟩⟩
  · intro e why visiting shut
    have none := onward_of_shut visiting shut
    rw [streams_resume, resumed, none]
    exact ⟨rfl, rfl⟩
  · intro f ready enters
    rcases stands_of_attended attended with waits | stands
    · exact (waits.of_failed enters).2
    · obtain ⟨_, here | here⟩ := stands.placed.visiting <;> cases ready.symm.trans here

/-- Goes into the directory `a`, and through the link `b`. -/
def strollingTurns : List Turn :=
  let b := rowEntry "/s/b" .symbolicLink 2 1
  [⟨rowEntry "/s" .directory 4096 0, []⟩, ⟨rowEntry "/s/a" .directory 4096 1, []⟩,
    ⟨rowEntry "/s/a/g" .regularFile 0 2, []⟩, ⟨b, [.follow b]⟩, ⟨rowEntry "/s/b/x" .regularFile 0 2, []⟩]

theorem exists_attended_strolling : ∃ c t, ofRowTree.Attended [] strollingTurns c t ∧
    (c.streams.map fun st => st.path.text) = ["/s/b", "/s"].map String.toList ∧
    t.closed.map Handle.number = [1] ∧ t.release.opened = 3 := by
  have begun : ofRowTree.Attended [] [] { Cursor.fresh with position := .ready } .none := .start rfl
  have one := begun.turn (u := strollingTurns[0]) (by decide +kernel)
  have two := one.turn (u := strollingTurns[1]) (by decide +kernel)
  have three := two.turn (u := strollingTurns[2]) (by decide +kernel)
  have four := three.turn (u := strollingTurns[3]) (by decide +kernel)
  exact ⟨_, _, four.turn (u := strollingTurns[4]) (by decide +kernel), by decide +kernel, by decide +kernel,
    by decide +kernel⟩

/-- At the file in `b` the root and `b` are open and `a` is closed. If the walk is left there, all
    three are closed. -/
theorem streams_of_attended_rowTree : ∃ c t, ofRowTree.Attended [] strollingTurns c t ∧
    (c.streams.map fun st => st.path.text) = ["/s/b", "/s"].map String.toList ∧
    t.closed.map Handle.number = [1] ∧
    (t.release.closed.map Handle.number).Perm (List.range 3) ∧ ∀ h ∈ t.release.closed, h.held = false := by
  obtain ⟨c, t, attended, streams, closed, opened⟩ := exists_attended_strolling
  obtain ⟨_, _, _, ends, _⟩ := streams_of_attended attended
  obtain ⟨_, _, _, numbered, released⟩ := ends c.stop t.release .left
  rw [opened] at numbered
  exact ⟨c, t, attended, streams, closed, numbered, fun h among => (released h among).1⟩

/-- Follows a link on the path of the root, which is a directory. -/
def reopeningTurns : List Turn :=
  [⟨rowEntry "/s" .directory 4096 0, [.follow (rowEntry "/s" .symbolicLink 0 0)]⟩,
    ⟨rowEntry "/s/a" .directory 4096 1, []⟩]

/-- At an entry in the root, only the root is above the entry, and it is open twice. -/
theorem root_open_twice : ∃ c t e, ofRowTree.Attended [] reopeningTurns c t ∧ c.position = .onEntry e ∧
    e.depth = 1 ∧ e.path.ancestors ofRowTree.root = [ofRowTree.root] ∧
    (t.stack.map fun h => (h.stream.path, h.stream.depth)) = [(ofRowTree.root, 1), (ofRowTree.root, 1)] ∧
    c.streams.length = 2 := by
  have begun : ofRowTree.Attended [] [] { Cursor.fresh with position := .ready } .none := .start rfl
  have one := begun.turn (u := reopeningTurns[0]) (by decide +kernel)
  have two := one.turn (u := reopeningTurns[1]) (by decide +kernel)
  exact ⟨_, _, rowEntry "/s/a" .directory 4096 1, two, by decide +kernel, rfl, by decide +kernel,
    by decide +kernel, by decide +kernel⟩

/-! ## Callers that keep to what they have seen -/

theorem attended_of_session (session : w.Session turns c) : ∃ t, w.Attended [] turns c t := by
  induction session with
  | start starts => exact ⟨.none, .start starts⟩
  | turn _ yields _ ih =>
    obtain ⟨t, attended⟩ := ih
    exact ⟨_, attended.turn yields⟩

theorem fresh_of_session {later : List Turn} (session : w.Session (u :: later) c) : Fresh [] u := by
  induction later using List.reverseRecOn generalizing c with
  | nil =>
    generalize whole : [u] = all at session
    cases session with
    | start _ => cases whole
    | turn _ _ known =>
      obtain ⟨rfl, same⟩ := List.append_inj' ((List.nil_append [u]).trans whole) rfl
      obtain rfl := List.singleton_inj.1 same
      exact ⟨by simpa using known, by simp⟩
  | append_singleton later last ih =>
    rw [← List.cons_append] at session
    generalize whole : u :: later ++ [last] = all at session
    cases session with
    | start _ => simp at whole
    | turn before _ _ =>
      obtain ⟨rfl, _⟩ := List.append_inj' whole rfl
      exact ih before

theorem not_reopened_of_session (session : w.Session turns c) : ¬ Reopened [] turns := by
  rintro ⟨u, later, rfl, directory, follows⟩
  have link := (fresh_of_session session).link_of_lastFollowed follows
  rw [directory] at link
  cases link

/-- At an entry below the root of a session, the streams are those of the directories above it. -/
theorem lined_of_session (session : w.Session turns c) (here : c.position = .onEntry e) :
    ∃ t, w.Attended [] turns c t ∧ t.stack.map Handle.stream = c.streams ∧ Lined w.root t.stack e := by
  obtain ⟨t, attended⟩ := attended_of_session session
  refine ⟨t, attended, (kept_of_attended attended).1, ?_⟩
  obtain ⟨own, before, whole, lined, none | ⟨reopened, _⟩⟩ := lined_of_attended attended here
  · rw [whole, none, List.append_nil]
    exact lined
  · exact absurd reopened (not_reopened_of_session session)

end Walk
end Inventory
