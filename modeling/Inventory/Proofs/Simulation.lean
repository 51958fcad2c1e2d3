import Inventory.Proofs.Halves
import Mathlib.Algebra.Group.Nat.Defs

/-!
Between the halves of a step the scan is `Ready` with some frames, and from then on it
makes known just what is said at the names that these frames have left
(`Scan.remaining`). One step keeps this, so a run of steps keeps it. What is left gets
lighter with each entry, and the weight of the root is within the steps that a scan is
given (`Scan.weight_le_stepBound`).
-/
namespace Inventory
namespace Scan

variable {s : Scan}

/-- Between the halves of a step nothing is left to carry out. -/
structure Ready (s : Scan) (c : Scanner) (frames : List Frame) : Prop where
  streams : c.cursor.streams = frames.map Frame.stream
  aligned : Aligned s.walk.root frames c.stack.items
  follow : c.cursor.toFollow = none
  prune : c.cursor.toPrune = none
  waiting : c.waiting = none

/-- The second half ends the scan, or takes up the next child that is not passed over. -/
theorem proceed_cases {c : Scanner} {frames : List Frame} (ready : s.Ready c frames) :
    ((s.proceed c).after = .inr .complete ∧ (s.proceed c).items.filterMap Item.event? = [] ∧
        s.remaining frames = .silent) ∨
      ∃ f outer n e c', (s.proceed c).after = .inl c' ∧
        (s.proceed c).items.filterMap Item.event? = (s.sight (f.base.child n)).1.take 1 ∧
        s.Standing c' (f.base.child n) e ∧ c'.cursor.position = .onEntry e ∧
        c'.cursor.streams = (f :: outer).map Frame.stream ∧ c'.stack.items = f.active ∧
        Aligned s.walk.root (f :: outer) f.active ∧ n ∉ f.pending ∧
        s.remaining frames = (s.account (f.base.child n)).followedBy (s.remaining (f :: outer)) ∧
        s.weight (f :: outer) + s.toll f.base ≤ s.weight frames := by
  obtain ⟨quiet, pulled⟩ := pull_cases ready.aligned
  rw [← ready.streams] at quiet pulled
  rcases pulled with ⟨empty, nothing⟩ | ⟨f, outer, n, rest, node, kind, aligned, turn, found, admits, same, lighter⟩
  · refine .inl ⟨by simp only [proceed, empty], ?_, nothing⟩
    simp only [proceed, empty]
    rw [List.filterMap_append, events_notices, quiet]
    rfl
  · have handled := handle_cases (s := s)
      (c := { c with cursor := { c.cursor with
        streams := (f.withPending rest :: outer).map Frame.stream,
        position := .onEntry (.ofNode (f.base.child n).path kind node f.depth) } })
      f.depth (aligned.sound.bears.child n) (aligned.reconcile turn).1 admits ready.follow ready.prune ready.waiting
    obtain ⟨tells, c', goes, standing, active, streams, position⟩ := handled
    refine .inr ⟨f.withPending rest, outer, n, _, c', ?_, ?_, standing, position, streams, active,
      (aligned.reconcile turn).2, ?_, ?_, ?_⟩
    · simp only [proceed, found]
      exact goes
    · simp only [proceed, found]
      rw [List.filterMap_append, events_notices, quiet, tells]
      rfl
    · exact (List.nodup_cons.1 (turn ▸ aligned.sound.distinct)).1
    · rw [same, remaining, turn, accountBelow_cons, Account.followedBy_assoc]
      rfl
    · rw [weight, turn, List.length_cons, Nat.succ_mul] at lighter
      rw [weight]
      simp only [Frame.withPending] at lighter ⊢
      omega

/-- What is opened after an entry is the innermost directory from then on. -/
theorem ready_of_rested {c c' : Scanner} {f : Frame} {outer : List Frame} {n : Name} {depth : Nat}
    (rested : s.Rested (f.base.child n) depth c c') (streams : c.cursor.streams = (f :: outer).map Frame.stream)
    (active : c.stack.items = f.active) (aligned : Aligned s.walk.root (f :: outer) f.active)
    (finished : n ∉ f.pending) :
    s.Ready c' (onwardFrames depth c'.stack.items (s.sight (f.base.child n)).2 ++ f :: outer) := by
  obtain ⟨spent, items, sources⟩ := rested.left
  have left : Aligned s.walk.root (f :: outer) c'.stack.items := by
    rw [items, active]
    exact aligned.leave finished sources
  refine ⟨by rw [rested.streams, streams, List.map_append], ?_, rested.follow, rested.prune, rested.waiting⟩
  cases onward : (s.sight (f.base.child n)).2 with
  | stays | fails f => exact left
  | descends inner names =>
    exact left.push finished ⟨inner, depth, names, c'.stack.items⟩ (path_of_sight onward) (names_of_sight onward).1 rfl
      (rested.bears _ _ onward)

theorem remaining_onward (depth : Nat) (active : List Redirection) (frames : List Frame) {onward : Onward}
    (goes : ∀ f, onward ≠ .fails f) :
    s.remaining (onwardFrames depth active onward ++ frames) =
      (s.accountOnward onward).followedBy (s.remaining frames) := by
  cases onward with
  | stays => rfl
  | fails f => exact absurd rfl (goes f)
  | descends inner names => rfl

theorem toll_pos (base : Place) : 0 < s.toll base := Nat.pow_pos (Nat.succ_pos _)

/-- So many names count less than one name higher up. -/
theorem mul_pow_lt_pow {names nodes lower higher : Nat} (few : names ≤ nodes) (below : lower < higher) :
    names * (nodes + 1) ^ lower < (nodes + 1) ^ higher := by
  have one : 0 < (nodes + 1) ^ lower := Nat.pow_pos (Nat.succ_pos _)
  calc names * (nodes + 1) ^ lower
      ≤ nodes * (nodes + 1) ^ lower := Nat.mul_le_mul_right _ few
    _ < (nodes + 1) * (nodes + 1) ^ lower := Nat.mul_lt_mul_of_pos_right (Nat.lt_succ_self _) one
    _ = (nodes + 1) ^ (lower + 1) := (Nat.pow_succ' ..).symm
    _ ≤ (nodes + 1) ^ higher := Nat.pow_le_pow_right (Nat.succ_pos _) below

/-- All names of a directory that is opened at a child count less than the child. -/
theorem weight_onward (base : Place) (n : Name) (depth : Nat) (active : List Redirection) (frames : List Frame) :
    s.weight (onwardFrames depth active (s.sight (base.child n)).2 ++ frames) < s.weight frames + s.toll base := by
  have positive := toll_pos (s := s) base
  cases onward : (s.sight (base.child n)).2 with
  | stays | fails f => exact Nat.lt_add_of_pos_right positive
  | descends inner names =>
    have inside : names.length * s.toll inner < s.toll base :=
      mul_pow_lt_pow (names_of_sight onward).2 (height_lt_of_sight onward)
    simp only [onwardFrames, List.singleton_append, weight]
    omega

theorem visiting_of {c : Scanner} {e : Entry}
    (visiting : c.cursor.position = .onEntry e ∨
      c.cursor.position = .onRoot e ∧ e.kind ≠ .directory ∧ c.cursor.toPrune = none) : Visiting c e := by
  rcases visiting with visiting | ⟨visiting, _⟩
  · exact .inr visiting
  · exact .inl visiting

/-- From an entry on, a run makes known what is below it and then the rest, if
    the rest is made known once the first half is over. -/
theorem tells_of_standing (later : Account) {steps : Nat} {c : Scanner} {place : Place} {e : Entry}
    (standing : s.Standing c place e)
    (visiting : c.cursor.position = .onEntry e ∨
      c.cursor.position = .onRoot e ∧ e.kind ≠ .directory ∧ c.cursor.toPrune = none)
    (goesOn : ∀ c', s.Rested place (e.depth + 1) c c' →
      (s.goOn steps (s.proceed c')).Tells ((s.accountOnward (s.sight place).2).followedBy later)) :
    (s.run (steps + 1) c).Tells ((Account.telling (s.sight place).1.tail).followedBy
      ((s.accountOnward (s.sight place).2).followedBy later)) := by
  obtain ⟨events, ⟨f, fails, failed⟩ | ⟨c', attended, rested⟩⟩ := attend_eq standing visiting
  · rw [run_eq (visiting_of visiting), failed, fails]
    refine ⟨(events_notices _).trans (events.trans ?_), rfl⟩
    simp [accountOnward, Account.failing, Account.telling, Account.followedBy]
  · rw [run_eq (visiting_of visiting), attended, ← events, ← events_notices]
    exact (goesOn c' rested).after _

theorem telling_head_tail (events : List Event) :
    (Account.telling (events.take 1)).followedBy (Account.telling events.tail) = .telling events := by
  cases events <;> rfl

theorem tells_silent {steps : Nat} {progress : Progress} (ends : progress.after = .inr .complete)
    (quiet : progress.items.filterMap Item.event? = []) : (s.goOn steps progress).Tells .silent := by
  rw [goOn, ends]
  exact ⟨quiet, rfl⟩

/-- From a state between the halves on, a run makes known what the frames still
    have to say, if it is given as many steps as they weigh. -/
theorem tells_of_ready {steps : Nat} {c : Scanner} {frames : List Frame} (ready : s.Ready c frames)
    (enough : s.weight frames ≤ steps) : (s.goOn steps (s.proceed c)).Tells (s.remaining frames) := by
  -- An entry takes one step and makes what is left lighter by one at least, so the steps last.
  induction steps generalizing c frames with
  | zero =>
    rcases proceed_cases ready with ⟨ends, quiet, nothing⟩ | ⟨f, outer, n, e, c', _, _, _, _, _, _, _, _, _, lighter⟩
    · rw [nothing]
      exact tells_silent ends quiet
    · have positive := toll_pos (s := s) f.base
      omega
  | succ steps ih =>
    rcases proceed_cases ready with ⟨ends, quiet, nothing⟩ |
        ⟨f, outer, n, e, c', goes, tells, standing, position, streams, active, aligned, finished, same, lighter⟩
    · rw [nothing]
      exact tells_silent ends quiet
    · have below := tells_of_standing (s.remaining (f :: outer)) standing (.inl position) fun c'' rested => by
        have lower := weight_onward (s := s) f.base n (e.depth + 1) c''.stack.items (f :: outer)
        rw [← remaining_onward (e.depth + 1) c''.stack.items _ rested.goes]
        exact ih (ready_of_rested rested streams active aligned finished) (by omega)
      have whole := below.after (s.proceed c).items
      rw [tells, ← Account.followedBy_assoc, telling_head_tail, ← Account.followedBy_assoc, ← account, ← same] at whole
      rw [goOn, goes]
      exact whole

theorem height_le (base : Place) :
    s.height base ≤ s.walk.system.table.length * (s.walk.system.table.length + 1) + s.walk.system.table.length :=
  FileSystem.room_le ..

/-- The steps that a scan may take are enough for a directory and two more. -/
theorem mul_pow_add_two_le_stepBound {names height : Nat} (few : names ≤ s.walk.system.table.length)
    (low : height ≤ s.walk.system.table.length * (s.walk.system.table.length + 1) + s.walk.system.table.length) :
    names * (s.walk.system.table.length + 1) ^ height + 2 ≤ s.stepBound := by
  simp only [stepBound, Nat.pow_eq]
  generalize s.walk.system.table.length = N at low few ⊢
  have one : 1 ≤ (N + 1) ^ height := Nat.one_le_pow _ _ (Nat.succ_pos _)
  have square : height + 1 ≤ (N + 2) * (N + 2) := by
    rw [Nat.mul_succ] at low
    rw [Nat.add_mul, Nat.mul_add]
    omega
  calc names * (N + 1) ^ height + 2
      ≤ N * (N + 1) ^ height + 2 * (N + 1) ^ height := Nat.add_le_add (Nat.mul_le_mul_right _ few) (by omega)
    _ = (N + 1) ^ height * (N + 2) := by rw [← Nat.add_mul, Nat.mul_comm]
    _ ≤ (N + 2) ^ height * (N + 2) := Nat.mul_le_mul_right _ (Nat.pow_le_pow_left (Nat.le_succ _) _)
    _ = (N + 2) ^ (height + 1) := (Nat.pow_succ ..).symm
    _ ≤ (N + 2) ^ ((N + 2) * (N + 2)) := Nat.pow_le_pow_right (Nat.succ_pos _) square

theorem weight_le_stepBound (f : Frame) (short : f.pending.length ≤ s.walk.system.table.length) :
    s.weight [f] + 2 ≤ s.stepBound := mul_pow_add_two_le_stepBound short (height_le f.base)

theorem bears_rootPlace (absolute : s.walk.root.isAbsolute = true) : (s.rootPlace absolute).Bears [] :=
  ⟨by simp, rfl, rfl⟩

/-- The root as the first entry, with its directory open if it is one. -/
theorem enterRoot_cases (absolute : s.walk.root.isAbsolute = true) :
    (∃ f, s.rootFailure? = some f ∧ s.walk.enterRoot = .error f) ∨
      s.rootFailure? = none ∧ ∃ node kind, s.Admits (s.rootPlace absolute) node kind ∧
        s.walk.enterRoot = .ok (.ofNode (s.rootPlace absolute).path kind node 0,
          if kind = .directory then (onwardFrames 1 [] (s.opened (s.rootPlace absolute))).map Frame.stream
          else []) := by
  unfold Walk.enterRoot
  simp only [rootFailure?, ← Node.kind?_eq]
  cases asked : s.walk.system.lstat s.walk.root with
  | error why => exact .inl ⟨_, rfl, rfl⟩
  | ok node =>
    simp only
    cases known : node.kind? with
    | none => exact .inl ⟨.reported (.rootNotOpened s.walk.root none), rfl, rfl⟩
    | some kind =>
      have admits : s.Admits (s.rootPlace absolute) node kind := ⟨asked, known, Walk.not_omits_root⟩
      cases kind with
      | directory =>
        cases reads : s.walk.system.list s.walk.root with
        | error why =>
          exact .inl ⟨.reported (.rootNotOpened s.walk.root (some why)), rfl,
            by simp [Walk.openStream, reads, bind, Except.bind]⟩
        | ok names =>
          refine .inr ⟨rfl, node, .directory, admits, ?_⟩
          simp [Walk.openStream, reads, bind, Except.bind, Scan.opened_eq, rootPlace, onwardFrames, Frame.stream]
      | regularFile => exact .inr ⟨rfl, node, .regularFile, admits, rfl⟩
      | symbolicLink => exact .inr ⟨rfl, node, .symbolicLink, admits, rfl⟩

theorem aligned_root (absolute : s.walk.root.isAbsolute = true) (depth : Nat) (active : List Redirection)
    (bears : ∀ inner names, (s.sight (s.rootPlace absolute)).2 = .descends inner names → inner.Bears active) :
    Aligned s.walk.root (onwardFrames depth active (s.sight (s.rootPlace absolute)).2) active := by
  cases onward : (s.sight (s.rootPlace absolute)).2 with
  | stays | fails f => exact .bottom _
  | descends inner names =>
    have below : inner.path.Under s.walk.root := path_of_sight onward ▸ Path.under_refl _
    exact Aligned.top (f := ⟨inner, depth, names, active⟩) ⟨below, (names_of_sight onward).1, bears _ _ onward⟩
      (by simp) (.bottom _)

theorem weight_root_le (absolute : s.walk.root.isAbsolute = true) (depth : Nat) (active : List Redirection) :
    s.weight (onwardFrames depth active (s.sight (s.rootPlace absolute)).2) + 2 ≤ s.stepBound := by
  cases onward : (s.sight (s.rootPlace absolute)).2 with
  | stays | fails f =>
    simpa [weight, onwardFrames] using weight_le_stepBound (s := s) ⟨s.rootPlace absolute, 0, [], []⟩ (Nat.zero_le _)
  | descends inner names =>
    have short := (names_of_sight onward).2
    exact weight_le_stepBound ⟨inner, depth, names, active⟩ short

/-- From the root on, a run makes known what is below it. -/
theorem tells_of_root (absolute : s.walk.root.isAbsolute = true) {steps : Nat} {c : Scanner} {node : Node}
    {kind : EntryKind} (enough : s.stepBound ≤ steps + 2) (admits : s.Admits (s.rootPlace absolute) node kind)
    (standing : s.Standing c (s.rootPlace absolute) (.ofNode (s.rootPlace absolute).path kind node 0))
    (empty : c.stack.items = [])
    (streams : c.cursor.streams =
      if kind = .directory then (onwardFrames 1 [] (s.opened (s.rootPlace absolute))).map Frame.stream else [])
    (position : c.cursor.position = .onRoot (.ofNode (s.rootPlace absolute).path kind node 0)) :
    (s.run (steps + 1) c).Tells ((Account.telling (s.sight (s.rootPlace absolute)).1.tail).followedBy
      (s.accountOnward (s.sight (s.rootPlace absolute)).2)) := by
  have seen : s.reported? (s.rootPlace absolute) = some (node, kind) := by
    rw [reported?_of_admits admits, if_neg (by simp [Revisited, rootPlace])]
  have frames (depth : Nat) (active : List Redirection) :
      s.weight (onwardFrames depth active (s.sight (s.rootPlace absolute)).2) ≤ steps := by
    have light := weight_root_le absolute depth active
    omega
  have turn := standing.turn
  simp only [seen] at turn
  obtain ⟨_, prune, waiting⟩ := turn
  by_cases directory : kind = .directory
  · -- The directory of the root is open already, and nothing else was asked for.
    have opens : s.sight (s.rootPlace absolute) =
        ([.record (s.recordAt (s.rootPlace absolute) node .directory)], s.opened (s.rootPlace absolute)) := by
      simp [sight, seen, directory]
    have attended : s.attend c = ([], .ok { c with cursor := { c.cursor with toFollow := none } }) := by
      simp [attend, decideWaiting, waiting, directory, Walk.resume, position, Walk.descendIfFollowed, standing.follow]
    rw [opens] at frames
    have ready : s.Ready { c with cursor := { c.cursor with toFollow := none } }
        (onwardFrames 1 [] (s.opened (s.rootPlace absolute)) ++ []) := by
      refine ⟨?_, ?_, rfl, prune, by simp [waiting, directory]⟩
      · rw [streams, if_pos directory, List.append_nil]
      · have aligned := aligned_root absolute 1 [] fun inner names onward => by
          rw [opens] at onward
          exact (opened_eq_descends onward).1 ▸ bears_rootPlace absolute
        rw [opens] at aligned
        rw [List.append_nil, empty]
        exact aligned
    have light := frames 1 []
    rw [← List.append_nil (onwardFrames ..)] at light
    have tells := tells_of_ready ready light
    rw [remaining_onward 1 [] _ (opened_ne_fails _), show s.remaining [] = .silent from rfl,
      Account.followedBy_silent] at tells
    rw [run_eq (.inl position), attended, opens]
    exact tells
  · rw [← Account.followedBy_silent (s.accountOnward _)]
    refine tells_of_standing _ standing (.inr ⟨position, directory, prune⟩) fun c' rested => ?_
    have ready : s.Ready c' (onwardFrames 1 c'.stack.items (s.sight (s.rootPlace absolute)).2 ++ []) := by
      refine ⟨?_, ?_, rested.follow, rested.prune, rested.waiting⟩
      · rw [rested.streams, streams, if_neg directory, List.map_append]
        rfl
      · rw [List.append_nil]
        exact aligned_root absolute 1 _ rested.bears
    rw [← show s.remaining [] = .silent from rfl, ← remaining_onward 1 c'.stack.items _ rested.goes]
    have light := frames 1 c'.stack.items
    rw [← List.append_nil (onwardFrames ..)] at light
    exact tells_of_ready ready light

theorem step_begin_error {f : Failure} (fails : s.walk.enterRoot = .error f) :
    s.step begin = ⟨[], .inr (.failed f)⟩ := by
  simp [step, begin, decideWaiting, Walk.next, fails]

theorem step_begin_ok {e : Entry} {streams : List Stream} (enters : s.walk.enterRoot = .ok (e, streams)) :
    s.step begin = s.handle { begin with cursor := { begin.cursor with streams, position := .onRoot e } } e := by
  simp [step, begin, decideWaiting, Walk.next, enters]

/-- A scan makes known what its account says, in this order, and ends as it does. -/
theorem tells_inventory (absolute : s.walk.root.isAbsolute = true) : s.trace.Tells (s.inventory absolute) := by
  obtain ⟨steps, bound⟩ : ∃ steps, s.stepBound = steps + 2 :=
    ⟨s.stepBound - 2, by have := weight_root_le absolute 0 []; omega⟩
  rw [trace, bound, run_succ]
  rcases enterRoot_cases absolute with ⟨f, unopened, fails⟩ | ⟨opens, node, kind, admits, enters⟩
  · rw [step_begin_error fails, inventory, unopened]
    exact ⟨rfl, rfl⟩
  · obtain ⟨tells, c, goes, standing, active, streams, position⟩ := handle_cases
      (c := { begin with cursor := { begin.cursor with
        streams :=
          if kind = .directory then (onwardFrames 1 [] (s.opened (s.rootPlace absolute))).map Frame.stream else [],
        position := .onRoot (.ofNode (s.rootPlace absolute).path kind node 0) } })
      0 (bears_rootPlace absolute) rfl admits rfl rfl rfl
    have below := tells_of_root absolute (Nat.le_of_eq bound) admits standing active streams position
    rw [step_begin_ok enters, inventory, opens, account, ← telling_head_tail, ← tells, Account.followedBy_assoc]
    unfold goOn
    rw [goes]
    exact below.after _

/-- The records of a scan and the failure that it ends with are those of the
    recursion from its root, with the options that the scan is given. -/
theorem trace_eq_inventory (fs : FileSystem) (root : Path) (options : ScanOptions)
    (absolute : root.isAbsolute = true) :
    let given : Scan :=
      { walk := { system := fs, root := root, sorted := options.sorted, excludes := options.excludes },
        localRoot := options.localRoot.getD root }
    (ofOptions fs root options).trace.records = (given.inventory absolute).records ∧
      (ofOptions fs root options).trace.ending = (given.inventory absolute).ending := by
  have tells := tells_inventory (s := ofOptions fs root options) absolute
  exact ⟨tells.records, tells.2⟩

end Scan

/-- A directory `/s` with a link to `/l`, from where one link leads on to `/m` and
    one back to `/s`. -/
def FileSystem.linkedTree : FileSystem :=
  let node (path : String) (content : Content) : NodeSpec := ⟨.ofText path.toList, content, none, ⟨0, 0, 0⟩, []⟩
  .ofSpecs [node "/s/f" (.regular []), node "/s/k" (.link "/l".toList), node "/l/g" (.regular []),
    node "/l/on" (.link "../m".toList), node "/l/back" (.link "/s".toList), node "/m/h" (.regular [])] ⟨.slash, []⟩

namespace Scan

/-- The tree from `/s` on, with links entered anywhere. -/
def ofLinkedTree : Scan := ofOptions .linkedTree (.ofText "/s".toList) ⟨some ⟨.slash, []⟩, false, fun _ _ => false⟩

theorem trace_eq_inventory_ofLinkedTree :
    let given : Scan := ⟨⟨.linkedTree, .ofText "/s".toList, false, fun _ _ => false⟩, ⟨.slash, []⟩⟩
    (ofLinkedTree.trace.records.map fun r => (r.path.text, r.target)) =
        [("/s".toList, []), ("/s/f".toList, []), ("/s/k".toList, "/l".toList), ("/s/k/g".toList, "/l/g".toList),
          ("/s/k/on".toList, "/m".toList), ("/s/k/on/h".toList, "/m/h".toList), ("/s/k/back".toList, "/s".toList)] ∧
      ofLinkedTree.trace.records = (given.inventory (by decide)).records ∧
      ofLinkedTree.trace.ending = (given.inventory (by decide)).ending := by
  intro given
  refine ⟨by decide +kernel, ?_⟩
  exact trace_eq_inventory _ _ _ _

end Scan
end Inventory
