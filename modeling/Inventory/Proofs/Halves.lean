import Inventory.Proofs.Frames

/-!
A step of a scan has two halves: `Scan.attend` decides about the link that was reported
last and goes below the last entry, and `Scan.proceed` fetches the next entry and handles
it. The second makes known the record at a place (`Scan.handle_cases`), the first what
else there is: that a link is entered, and what the walk goes on with
(`Scan.attend_eq`).
-/
namespace Inventory

def Notice.event? : Notice → Option Event
  | .entered link target _ => some (.entered link target)
  | _ => none

def Item.event? : Item → Option Event
  | .record r => some (.record r)
  | .notice m => m.event?

@[simp] theorem events_notices (notices : List Notice) :
    (notices.map Item.notice).filterMap Item.event? = notices.filterMap Notice.event? := by
  rw [List.filterMap_map]
  rfl

theorem events_reconcileNotices (stack : RedirectionStack) (p : Path) :
    (stack.reconcileNotices p).filterMap Notice.event? = [] := by
  simp [RedirectionStack.reconcileNotices, Notice.event?]

theorem events_resolveNotices (fs : FileSystem) (p : Path) :
    (fs.resolveNotices p).filterMap Notice.event? = [] := by
  unfold FileSystem.resolveNotices
  split <;> rfl

namespace Trace

def events (t : Trace) : List Event := t.items.filterMap Item.event?

/-- A trace makes known what an account says, and ends as it does. -/
def Tells (t : Trace) (a : Account) : Prop := t.events = a.events ∧ t.ending = a.ending

/-- A trace with more items before it. -/
def after (items : List Item) (t : Trace) : Trace := ⟨items ++ t.items, t.ending⟩

theorem records_eq (t : Trace) : t.records = t.events.filterMap Event.record? := by
  rw [records, events, List.filterMap_filterMap]
  congr 1
  funext item
  cases item with
  | record r => rfl
  | notice m => cases m <;> rfl

theorem Tells.records {t : Trace} {a : Account} (tells : t.Tells a) : t.records = a.records := by
  rw [records_eq, tells.1, Account.records]

theorem Tells.after {t : Trace} {a : Account} (tells : t.Tells a) (items : List Item) :
    (t.after items).Tells ((Account.telling (items.filterMap Item.event?)).followedBy a) := by
  obtain ⟨events, ending⟩ := tells
  refine ⟨?_, ending⟩
  rw [Trace.events, Trace.after, List.filterMap_append, ← Trace.events, events]
  rfl

end Trace

namespace Scan

variable {s : Scan}

theorem sight_of_unreported {place : Place} (unreported : s.reported? place = none) : s.sight place = ([], .stays) := by
  simp [sight, unreported]

theorem account_of_unreported {place : Place} (unreported : s.reported? place = none) : s.account place = .silent := by
  simp [account, sight_of_unreported unreported, accountOnward, Account.telling, Account.silent, Account.followedBy]

theorem opened_ne_fails (base : Place) (f : Failure) : s.opened base ≠ .fails f := by
  unfold opened
  split <;> simp

theorem ordered_perm (w : Walk) (names : List Name) : (w.ordered names).Perm names := by
  unfold Walk.ordered
  split
  · exact List.mergeSort_perm ..
  · exact List.Perm.refl _

/-- The names below a place are distinct, and there are no more of them than there are nodes. -/
theorem names_of_sight {place inner : Place} {names : List Name}
    (descends : (s.sight place).2 = .descends inner names) :
    names.Nodup ∧ names.length ≤ s.walk.system.table.length := by
  obtain ⟨⟨listed, reads, rfl⟩, _⟩ := sight_eq_descends descends
  obtain ⟨l, node, _, _, _, rfl⟩ := FileSystem.list_eq_ok_iff.1 reads
  have perm := ordered_perm s.walk (s.walk.system.names l)
  refine ⟨perm.nodup_iff.2 (FileSystem.nodup_names l), ?_⟩
  rw [perm.length_eq]
  exact FileSystem.length_names_le l

/-- The first half: the decision that is left, and the way below the last entry. -/
def attend (s : Scan) (c : Scanner) : List Notice × Except Failure Scanner :=
  let decided := s.decideWaiting c
  match decided.2 with
  | .error f => (decided.1, .error f)
  | .ok c =>
    let resumed := s.walk.resume c.cursor
    (decided.1 ++ resumed.1, .ok { c with cursor := resumed.2 })

/-- The second half: the next entry is fetched and handled. -/
def proceed (s : Scan) (c : Scanner) : Progress :=
  let found := s.walk.pull c.cursor.streams
  match found.2 with
  | .error f => ⟨found.1.map .notice, .inr (.failed f)⟩
  | .ok none => ⟨found.1.map .notice ++ [.notice (.scanned c.count s.walk.root)], .inr .complete⟩
  | .ok (some (e, streams)) =>
    let progress := s.handle { c with cursor := { c.cursor with streams, position := .onEntry e } } e
    ⟨found.1.map .notice ++ progress.items, progress.after⟩

/-- The cursor stands on an entry. -/
def Visiting (c : Scanner) (e : Entry) : Prop := c.cursor.position = .onRoot e ∨ c.cursor.position = .onEntry e

/-- The gate only asks the cursor; it does not move it. -/
theorem position_pass (g : Gate) (c : Cursor) (stack : RedirectionStack) (e : Entry) (r : LinkResolution) :
    (g.pass c stack e r).cursor.position = c.position := by
  unfold Gate.pass Cursor.follow
  by_cases link : e.kind = .symbolicLink <;> simp only [link, if_true, if_false] <;> split <;> rfl

theorem position_decideWaiting {c c' : Scanner} (decided : (s.decideWaiting c).2 = .ok c') :
    c'.cursor.position = c.cursor.position := by
  unfold decideWaiting at decided
  split at decided
  · cases decided
    rfl
  · simp only at decided
    split at decided
    · cases decided
    · cases decided
      exact position_pass ..

theorem next_of_visiting (w : Walk) {c : Cursor} {e : Entry}
    (visiting : c.position = .onRoot e ∨ c.position = .onEntry e) :
    w.next c =
      let resumed := w.resume c
      let found := w.pull resumed.2.streams
      let notices := resumed.1 ++ found.1
      match found.2 with
      | .error f => ⟨notices, resumed.2.stop, .error f⟩
      | .ok none => ⟨notices, resumed.2.stop, .ok none⟩
      | .ok (some (e, streams)) => ⟨notices, { resumed.2 with streams, position := .onEntry e }, .ok (some e)⟩ := by
  obtain ⟨streams, toFollow, toPrune, position⟩ := c
  rcases visiting with visiting | visiting <;> cases visiting <;> rfl

theorem step_eq {c : Scanner} {e : Entry} (visiting : Visiting c e) :
    s.step c = match (s.attend c).2 with
      | .error f => ⟨(s.attend c).1.map .notice, .inr (.failed f)⟩
      | .ok ready => ⟨(s.attend c).1.map .notice ++ (s.proceed ready).items, (s.proceed ready).after⟩ := by
  cases decided : (s.decideWaiting c).2 with
  | error f => simp only [step, attend, decided]
  | ok c' =>
    have next := next_of_visiting (c := c'.cursor) s.walk (by rwa [position_decideWaiting decided])
    simp only [step, attend, decided, next, proceed]
    generalize s.walk.resume c'.cursor = resumed
    generalize s.walk.pull resumed.2.streams = found
    obtain ⟨notices, _ | _ | ⟨e, streams⟩⟩ := found <;> simp [List.append_assoc]

/-- At most so many steps after one that was taken. -/
def goOn (s : Scan) (steps : Nat) (progress : Progress) : Trace :=
  match progress.after with
  | .inr ending => ⟨progress.items, ending⟩
  | .inl c => (s.run steps c).after progress.items

theorem run_succ (steps : Nat) (c : Scanner) : s.run (steps + 1) c = s.goOn steps (s.step c) := by
  rw [run, goOn]
  cases (s.step c).after <;> rfl

theorem goOn_append (steps : Nat) (items : List Item) (progress : Progress) :
    s.goOn steps ⟨items ++ progress.items, progress.after⟩ = (s.goOn steps progress).after items := by
  unfold goOn
  cases progress.after <;> simp [Trace.after, List.append_assoc]

/-- A run goes on with its first half, and then with its second. -/
theorem run_eq {c : Scanner} {e : Entry} (visiting : Visiting c e) (steps : Nat) :
    s.run (steps + 1) c = match (s.attend c).2 with
      | .error f => ⟨(s.attend c).1.map .notice, .failed f⟩
      | .ok ready => (s.goOn steps (s.proceed ready)).after ((s.attend c).1.map .notice) := by
  rw [run_succ, step_eq visiting]
  cases (s.attend c).2 with
  | error f => rfl
  | ok ready => exact goOn_append ..

/-! ## The first half -/

theorem mayEnter_iff {stack : RedirectionStack} {e : Entry} {link : Place} (path : e.path = link.path)
    (bears : link.Bears stack.items) {target : Path} :
    s.MayEnter link target ↔
      target.Under (s.walk.system.canonical s.localRoot) ∧ ¬ target.Under (s.walk.system.canonical s.walk.root) ∧
        ¬ s.gate.Encloses stack e target := by
  rw [MayEnter, Gate.Encloses, bears.destinations, path]
  simp only [List.forall_mem_map, not_or, not_and, not_exists, gate_system, gate_searchRoot]
  tauto

/-- The gate enters a link just if there is an entrance, and tells of it. -/
theorem pass_eq (c : Cursor) {stack : RedirectionStack} {e : Entry} {link : Place} (path : e.path = link.path)
    (kind : e.kind = .symbolicLink) (bears : link.Bears stack.items) :
    let passage := s.gate.pass c stack e (s.walk.system.resolveLink e.path)
    match s.entrance link with
    | .error f => passage.notices = [] ∧ passage.entered = .error f
    | .ok none => passage.notices.filterMap Notice.event? = [] ∧ passage.cursor = c ∧ passage.stack = stack ∧
        passage.entered = .ok false
    | .ok (some target) => passage.notices.filterMap Notice.event? = [.entered link.path target] ∧
        passage.cursor = { c with toFollow := some e.path } ∧
        passage.stack = stack.push ⟨e.path, target⟩ ∧ passage.entered = .ok true := by
  rw [entrance, target?_eq, ← path]
  cases resolved : (s.walk.system.resolveLink e.path).target with
  | none => simp [Gate.pass, Gate.judge, resolved, Verdict.notices]
  | some target =>
    obtain ⟨_, _, same⟩ := FileSystem.resolveLink_target resolved
    simp only [same]
    by_cases may : s.MayEnter link target
    · obtain ⟨inside, apart, open'⟩ := (mayEnter_iff path bears).1 may
      rw [if_pos may]
      cases asked : s.walk.system.stat target with
      | error why => simp [Gate.pass, Gate.judge, inside, apart, open', asked]
      | ok node =>
        cases directory : node.isDirectory with
        | true =>
          simp [Gate.pass, Gate.judge, inside, apart, open', asked, directory, Cursor.follow, kind, Notice.event?,
            RedirectionStack.pushNotice]
        | false => simp [Gate.pass, Gate.judge, inside, apart, open', asked, directory, Verdict.notices]
    · rw [if_neg may]
      rw [mayEnter_iff path bears] at may
      by_cases inside : target.Under (s.walk.system.canonical s.localRoot)
      · by_cases scanned : target.Under (s.walk.system.canonical s.walk.root)
        · simp [Gate.pass, Gate.judge, inside, scanned, Verdict.notices, Notice.event?]
        · have encloses : s.gate.Encloses stack e target := by
            by_contra apart
            exact may ⟨inside, scanned, apart⟩
          simp [Gate.pass, Gate.judge, inside, scanned, encloses, Verdict.notices, Notice.event?]
      · simp [Gate.pass, Gate.judge, inside, Verdict.notices, Notice.event?]

/-- The scan has just handled the entry at a place: it was reported, or passed
    over as one that is visited elsewhere. -/
structure Standing (s : Scan) (c : Scanner) (place : Place) (e : Entry) : Prop where
  path : e.path = place.path
  bears : place.Bears c.stack.items
  follow : c.cursor.toFollow = none
  turn : match s.reported? place with
    | none => c.waiting = none ∧ c.cursor.toPrune = some e.path
    | some (_, kind) => e.kind = kind ∧ c.cursor.toPrune = none ∧
        c.waiting = if kind = .symbolicLink then some (e, s.walk.system.resolveLink e.path) else none

/-- The frame that is opened where a walk goes on. -/
def onwardFrames (depth : Nat) (active : List Redirection) : Onward → List Frame
  | .descends base names => [⟨base, depth, names, active⟩]
  | _ => []

/-- The first half has carried out all that was asked for: it may have left a
    redirection of the link there, and it has opened what the walk goes on with. -/
structure Rested (s : Scan) (place : Place) (depth : Nat) (c c' : Scanner) : Prop where
  goes : ∀ f, (s.sight place).2 ≠ .fails f
  left : ∃ spent, c'.stack.items = spent ++ c.stack.items ∧ ∀ r ∈ spent, r.source = place.path
  streams : c'.cursor.streams =
    (onwardFrames depth c'.stack.items (s.sight place).2).map Frame.stream ++ c.cursor.streams
  bears : ∀ inner names, (s.sight place).2 = .descends inner names → inner.Bears c'.stack.items
  follow : c'.cursor.toFollow = none
  prune : c'.cursor.toPrune = none
  waiting : c'.waiting = none

theorem descend_eq (c : Cursor) {e : Entry} {base : Place} (path : e.path = base.path) (active : List Redirection) :
    (s.walk.descend c e).1.filterMap Notice.event? = [] ∧
      (s.walk.descend c e).2 =
        { c with streams := (onwardFrames (e.depth + 1) active (s.opened base)).map Frame.stream ++ c.streams } := by
  unfold Walk.descend Walk.openStream
  rw [path, Scan.opened_eq]
  cases s.walk.system.list base.path with
  | error why => exact ⟨rfl, rfl⟩
  | ok names => exact ⟨rfl, rfl⟩

theorem resume_eq {c : Cursor} {e : Entry}
    (visiting : c.position = .onEntry e ∨ c.position = .onRoot e ∧ e.kind ≠ .directory ∧ c.toPrune = none) :
    s.walk.resume c =
      if e.kind = .directory ∧ c.toPrune ≠ some e.path then s.walk.descend { c with toPrune := none } e
      else s.walk.descendIfFollowed { c with toPrune := none } e := by
  rcases visiting with visiting | ⟨visiting, other, prune⟩
  · simp only [Walk.resume, visiting]
  · obtain ⟨streams, toFollow, toPrune, position⟩ := c
    simp only at prune visiting
    simp [Walk.resume, visiting, other, prune]

theorem rested_of_stays {c : Scanner} {place : Place} (stays : (s.sight place).2 = .stays) (depth : Nat) :
    s.Rested place depth c
      { c with cursor := { c.cursor with toFollow := none, toPrune := none }, waiting := none } where
  goes f := by rw [stays]; simp
  left := ⟨[], rfl, by simp⟩
  streams := by rw [stays]; rfl
  bears inner names onward := by rw [stays] at onward; cases onward
  follow := rfl
  prune := rfl
  waiting := rfl

theorem rested_of_opened {c : Scanner} {place base : Place} (opens : (s.sight place).2 = s.opened base) (e : Entry)
    (spent : List Redirection) (sources : ∀ r ∈ spent, r.source = place.path)
    (bears : base.Bears (spent ++ c.stack.items)) :
    let streams := (onwardFrames (e.depth + 1) (spent ++ c.stack.items) (s.opened base)).map Frame.stream ++
      c.cursor.streams
    s.Rested place (e.depth + 1) c
      { c with
        cursor := { c.cursor with streams, toFollow := none, toPrune := none },
        stack := ⟨spent ++ c.stack.items⟩, waiting := none } where
  goes := opens ▸ opened_ne_fails base
  left := ⟨spent, rfl, sources⟩
  streams := by rw [opens]
  bears inner names onward := by
    rw [opens] at onward
    exact (opened_eq_descends onward).1 ▸ bears
  follow := rfl
  prune := rfl
  waiting := rfl

/-- The first half enters a link, or leaves it, or fails on it. -/
theorem attend_link {c : Scanner} {link : Place} {e : Entry} {node : Node} (path : e.path = link.path)
    (bears : link.Bears c.stack.items) (follow : c.cursor.toFollow = none)
    (seen : s.reported? link = some (node, .symbolicLink)) (kind : e.kind = .symbolicLink)
    (waiting : c.waiting = some (e, s.walk.system.resolveLink e.path))
    (visiting : c.cursor.position = .onEntry e ∨
      c.cursor.position = .onRoot e ∧ e.kind ≠ .directory ∧ c.cursor.toPrune = none) :
    (s.attend c).1.filterMap Notice.event? = (s.sight link).1.tail ∧
      ((∃ f, (s.sight link).2 = .fails f ∧ (s.attend c).2 = .error f) ∨
        ∃ c', (s.attend c).2 = .ok c' ∧ s.Rested link (e.depth + 1) c c') := by
  have decision := pass_eq (s := s) c.cursor path kind bears
  simp only at decision
  have other : ¬ e.kind = .directory := by simp [kind]
  cases gate : s.entrance link with
  | error f =>
    obtain ⟨quiet, fails⟩ := by simpa only [gate] using decision
    have view : s.sight link = ([.record (s.recordAt link node .symbolicLink)], .fails f) := by simp [sight, seen, gate]
    have attended : s.attend c = ([], .error f) := by simp [attend, decideWaiting, waiting, quiet, fails]
    rw [attended, view]
    exact ⟨rfl, .inl ⟨f, rfl, rfl⟩⟩
  | ok entrance =>
    cases entrance with
    | none =>
      obtain ⟨quiet, cursor, stack, passes⟩ := by simpa only [gate] using decision
      have view : s.sight link = ([.record (s.recordAt link node .symbolicLink)], .stays) := by simp [sight, seen, gate]
      refine ⟨?_, .inr ⟨_, ?_, rested_of_stays (by rw [view]) _⟩⟩
      · rw [view]
        simp [attend, decideWaiting, waiting, passes, cursor, resume_eq visiting, other, Walk.descendIfFollowed, follow,
          quiet]
      · simp [attend, decideWaiting, waiting, passes, cursor, stack, resume_eq visiting, other, Walk.descendIfFollowed,
          follow]
    | some target =>
      obtain ⟨tells, cursor, stack, passes⟩ := by simpa only [gate] using decision
      have view : s.sight link = ([.record (s.recordAt link node .symbolicLink), .entered link.path target],
          s.opened (link.through target)) := by simp [sight, seen, gate]
      have held : (link.through target).Bears ([⟨e.path, target⟩] ++ c.stack.items) := path ▸ bears.through target
      have rested := rested_of_opened (c := c) (by rw [view]) e [⟨e.path, target⟩] (by simp [path]) held
      obtain ⟨quiet, streams⟩ := descend_eq (s := s) { c.cursor with toFollow := none, toPrune := none }
        (show e.path = (link.through target).path from path) ([⟨e.path, target⟩] ++ c.stack.items)
      have asked : s.walk.resume { c.cursor with toFollow := some e.path } =
          s.walk.descend { c.cursor with toFollow := none, toPrune := none } e := by
        rw [resume_eq (by simpa using visiting)]
        simp [other, Walk.descendIfFollowed]
      refine ⟨?_, .inr ⟨_, ?_, rested⟩⟩
      · rw [view]
        simp [attend, decideWaiting, waiting, passes, cursor, asked, tells, quiet]
      · simp [attend, decideWaiting, waiting, passes, cursor, stack, asked, streams, RedirectionStack.push]

/-- The first half does what the recursion says of the last entry. -/
theorem attend_eq {c : Scanner} {place : Place} {e : Entry} (standing : s.Standing c place e)
    (visiting : c.cursor.position = .onEntry e ∨
      c.cursor.position = .onRoot e ∧ e.kind ≠ .directory ∧ c.cursor.toPrune = none) :
    (s.attend c).1.filterMap Notice.event? = (s.sight place).1.tail ∧
      ((∃ f, (s.sight place).2 = .fails f ∧ (s.attend c).2 = .error f) ∨
        ∃ c', (s.attend c).2 = .ok c' ∧ s.Rested place (e.depth + 1) c c') := by
  obtain ⟨path, bears, follow, turn⟩ := standing
  -- An entry with nothing to decide about and nothing to open is left as it is.
  have left (waiting : c.waiting = none) (closed : ¬ (e.kind = .directory ∧ c.cursor.toPrune ≠ some e.path)) :
      s.attend c =
        ([], .ok { c with cursor := { c.cursor with toFollow := none, toPrune := none }, waiting := none }) := by
    simp [attend, decideWaiting, waiting, resume_eq visiting, closed, Walk.descendIfFollowed, follow]
  cases seen : s.reported? place with
  | none =>
    simp only [seen] at turn
    obtain ⟨waiting, prune⟩ := turn
    rw [left waiting (by simp [prune]), sight_of_unreported seen]
    exact ⟨rfl, .inr ⟨_, rfl, rested_of_stays (by rw [sight_of_unreported seen]) _⟩⟩
  | some found =>
    obtain ⟨node, kind⟩ := found
    simp only [seen] at turn
    obtain ⟨same, prune, waiting⟩ := turn
    cases kind with
    | regularFile =>
      have stays : s.sight place = ([.record (s.recordAt place node .regularFile)], .stays) := by simp [sight, seen]
      rw [left waiting (by simp [same]), stays]
      exact ⟨rfl, .inr ⟨_, rfl, rested_of_stays (by rw [stays]) _⟩⟩
    | directory =>
      have opens : s.sight place = ([.record (s.recordAt place node .directory)], s.opened place) := by
        simp [sight, seen]
      obtain ⟨quiet, streams⟩ := descend_eq (s := s) { c.cursor with toPrune := none } path c.stack.items
      have attended : s.attend c = ((s.walk.descend { c.cursor with toPrune := none } e).1,
          .ok { c with cursor := (s.walk.descend { c.cursor with toPrune := none } e).2 }) := by
        simp [attend, decideWaiting, waiting, resume_eq visiting, same, prune]
      rw [attended, streams, opens]
      refine ⟨quiet, .inr ⟨_, rfl, ?_⟩⟩
      have rested := rested_of_opened (c := c) (by rw [opens]) e [] (by simp) bears
      simpa [follow, waiting] using rested
    | symbolicLink => exact attend_link path bears follow seen same waiting visiting

/-! ## The second half -/

/-- The node at a place is handed out by the walk. -/
def Admits (s : Scan) (place : Place) (node : Node) (kind : EntryKind) : Prop :=
  s.walk.system.lstat place.path = .ok node ∧ node.kind? = some kind ∧ ¬ s.walk.Omits place.path kind

theorem reported?_of_admits {place : Place} {node : Node} {kind : EntryKind} (admits : s.Admits place node kind) :
    s.reported? place = if s.Revisited place then none else some (node, kind) := by
  obtain ⟨asked, known, kept⟩ := admits
  simp [reported?_eq, asked, known, kept]

/-- A name is handed out, or it is passed over in silence. -/
theorem visit_cases {base : Place} (below : base.path.Under s.walk.root) (depth : Nat) (n : Name) :
    (∃ why, s.walk.visit base.path depth n = .passedOver why ∧ why.event? = none ∧
        s.reported? (base.child n) = none) ∨
      ∃ node kind, s.walk.visit base.path depth n = .entry (.ofNode (base.child n).path kind node depth) ∧
        s.Admits (base.child n) node kind := by
  have under : (base.child n).path.Under s.walk.root := (Path.child_under _ n).trans below
  obtain ⟨rest, relative⟩ := Option.isSome_iff_exists.1 ((Path.relativeTo?_isSome _ _).2 under)
  have omits (kind : EntryKind) : s.walk.Omits (base.child n).path kind ↔ s.walk.excludes rest (kind = .directory) = true :=
    Walk.omits_child_iff below relative
  unfold Walk.visit
  simp only [show base.path.child n = (base.child n).path from rfl, relative]
  cases asked : s.walk.system.lstat (base.child n).path with
  | error why => exact .inl ⟨_, rfl, rfl, by simp [reported?_eq, asked]⟩
  | ok node =>
    cases known : node.kind? with
    | none =>
      have unreported : s.reported? (base.child n) = none := by simp [reported?_eq, asked, known]
      exact .inl ⟨.unsupported (base.child n).path, by simp only [known], rfl, unreported⟩
    | some kind =>
      simp only
      by_cases cut : s.walk.excludes rest (decide (kind = .directory)) = true
      · have unreported : s.reported? (base.child n) = none := by
          simp [reported?_eq, asked, known, (omits kind).2 cut]
        exact .inl ⟨.excluded (base.child n).path, by simp only [known, if_pos cut], rfl, unreported⟩
      · exact .inr ⟨node, kind, by simp only [known, if_neg cut], asked, known, mt (omits kind).1 cut⟩

/-- What the frames still have to say. -/
def remaining (s : Scan) : List Frame → Account
  | [] => .silent
  | f :: outer => (s.accountBelow f.base f.pending).followedBy (s.remaining outer)

/-- A bound for the entries that come of one name in an open directory. -/
def toll (s : Scan) (base : Place) : Nat := Nat.pow (s.walk.system.table.length + 1) (s.height base)

/-- A bound for the entries that come of the frames. -/
def weight (s : Scan) : List Frame → Nat
  | [] => 0
  | f :: outer => f.pending.length * s.toll f.base + s.weight outer

/-- The first entry of a frame, if it has one. -/
theorem pullFrom_cases {f : Frame} {outer : List Frame} {items : List Redirection}
    (aligned : Aligned s.walk.root (f :: outer) items) :
    let found := s.walk.pullFrom f.base.path f.depth f.pending
    found.1.filterMap Notice.event? = [] ∧
      ((found.2 = .ok none ∧ s.accountBelow f.base f.pending = .silent) ∨
        ∃ n rest node kind, Aligned s.walk.root (f.withPending (n :: rest) :: outer) items ∧
          found.2 = .ok (some (.ofNode (f.base.child n).path kind node f.depth, rest)) ∧
          s.Admits (f.base.child n) node kind ∧
          s.accountBelow f.base f.pending = s.accountBelow f.base (n :: rest) ∧
          (n :: rest).length ≤ f.pending.length) := by
  generalize names : f.pending = pending
  induction pending generalizing f with
  | nil => exact ⟨rfl, .inl ⟨rfl, accountBelow_nil s f.base⟩⟩
  | cons n rest ih =>
    rcases visit_cases aligned.sound.below f.depth n with
      ⟨why, passed, quiet, unreported⟩ | ⟨node, kind, visited, admits⟩
    · have silent : s.accountBelow f.base (n :: rest) = s.accountBelow f.base rest := by
        rw [accountBelow_cons, account_of_unreported unreported, Account.silent_followedBy]
      obtain ⟨quiet', later⟩ := ih (f := f.withPending rest) (aligned.advance names) rfl
      simp only [Walk.pullFrom, passed, silent]
      refine ⟨(List.filterMap_cons_none quiet).trans quiet', ?_⟩
      rcases later with ⟨empty, nothing⟩ | ⟨m, more, node, kind, aligned', found, admits, same, shorter⟩
      · exact .inl ⟨empty, nothing⟩
      · exact .inr ⟨m, more, node, kind, aligned', found, admits, same, Nat.le_succ_of_le shorter⟩
    · simp only [Walk.pullFrom, visited]
      refine ⟨rfl, .inr ⟨n, rest, node, kind, ?_, rfl, admits, rfl, Nat.le_refl _⟩⟩
      rw [Frame.withPending, ← names]
      exact aligned

/-- The first entry of the frames, innermost first, if they have one. -/
theorem pull_cases {frames : List Frame} {items : List Redirection} (aligned : Aligned s.walk.root frames items) :
    let found := s.walk.pull (frames.map Frame.stream)
    found.1.filterMap Notice.event? = [] ∧
      ((found.2 = .ok none ∧ s.remaining frames = .silent) ∨
        ∃ f outer n rest node kind, Aligned s.walk.root (f :: outer) items ∧ f.pending = n :: rest ∧
          found.2 = .ok (some (.ofNode (f.base.child n).path kind node f.depth,
            (f.withPending rest :: outer).map Frame.stream)) ∧
          s.Admits (f.base.child n) node kind ∧ s.remaining frames = s.remaining (f :: outer) ∧
          s.weight (f :: outer) ≤ s.weight frames) := by
  induction frames with
  | nil => exact ⟨rfl, .inl ⟨rfl, rfl⟩⟩
  | cons f outer ih =>
    obtain ⟨quiet, inner⟩ := pullFrom_cases aligned
    simp only at quiet inner ih
    simp only [List.map_cons, Walk.pull, Frame.stream]
    rcases inner with ⟨empty, nothing⟩ | ⟨n, rest, node, kind, aligned', found, admits, same, shorter⟩
    · obtain ⟨quiet', later⟩ := ih aligned.pop
      have pulled : s.walk.pullFrom f.base.path f.depth f.pending =
          ((s.walk.pullFrom f.base.path f.depth f.pending).1, .ok none) := Prod.ext rfl empty
      have gone : s.remaining (f :: outer) = s.remaining outer := by
        rw [remaining, nothing, Account.silent_followedBy]
      rw [pulled, gone]
      refine ⟨by rw [List.filterMap_append, quiet, quiet', List.append_nil], ?_⟩
      rcases later with
        ⟨empty', nothing'⟩ | ⟨g, more, n, rest, node, kind, aligned', turn, found, admits, same, lighter⟩
      · exact .inl ⟨empty', nothing'⟩
      · exact .inr ⟨g, more, n, rest, node, kind, aligned', turn, found, admits, same,
          Nat.le_trans lighter (Nat.le_add_left _ _)⟩
    · have pulled : s.walk.pullFrom f.base.path f.depth f.pending =
          ((s.walk.pullFrom f.base.path f.depth f.pending).1,
            .ok (some (.ofNode (f.base.child n).path kind node f.depth, rest))) := Prod.ext rfl found
      rw [pulled]
      refine ⟨quiet, .inr ⟨f.withPending (n :: rest), outer, n, rest, node, kind, aligned', rfl, rfl, admits, ?_, ?_⟩⟩
      · rw [remaining, remaining, same]
        rfl
      · exact Nat.add_le_add_right (Nat.mul_le_mul_right _ shorter) _

theorem revisits_eq {place : Place} {active : List Redirection} {e : Entry} (path : e.path = place.path)
    (bears : place.Bears active) : s.gate.revisits ⟨active⟩ e = .ok (decide (s.Revisited place)) := by
  have known := bears.location
  unfold Gate.revisits RedirectionStack.current?
  cases active with
  | nil => simp [Revisited, known]
  | cons r more =>
    have applies := bears.above r List.mem_cons_self
    obtain ⟨q, relocated⟩ := Option.isSome_iff_exists.1 ((r.relocate?_isSome place.path).2 applies)
    rw [List.head?_cons, Option.bind_some, relocated] at known
    have there : r.relocate e.path = .ok q := Redirection.relocate_eq_ok_iff.2 (path ▸ relocated)
    have inside : q.Under s.gate.searchRoot ↔ s.Revisited place := by simp [Revisited, known]
    simp only [List.head?_cons, there, Except.map, decide_eq_decide.2 inside]

theorem report_eq {place : Place} {active : List Redirection} {node : Node} {kind : EntryKind} (depth : Nat)
    (bears : place.Bears active) :
    let e := Entry.ofNode place.path kind node depth
    Scanner.report s.walk.system ⟨active⟩ e = (s.recordAt place node kind,
      if kind = .symbolicLink then some (e, s.walk.system.resolveLink e.path) else none) := by
  have known := bears.location
  by_cases link : kind = .symbolicLink
  · simp [Scanner.report, recordAt_eq, Entry.ofNode, link]
  · simp [Scanner.report, recordAt_eq, Entry.ofNode, link, Gate.location?, RedirectionStack.current?, known]

theorem sight_head {place : Place} {node : Node} {kind : EntryKind} (seen : s.reported? place = some (node, kind)) :
    (s.sight place).1.take 1 = [.record (s.recordAt place node kind)] := by
  cases kind with
  | regularFile | directory => simp [sight, seen]
  | symbolicLink =>
    cases gate : s.entrance place with
    | error f => simp [sight, seen, gate]
    | ok entered => cases entered <;> simp [sight, seen, gate]

/-- The entry that was fetched is reported, unless it is visited elsewhere. -/
theorem handle_cases {c : Scanner} {place : Place} {active : List Redirection} {node : Node} {kind : EntryKind}
    (depth : Nat) (bears : place.Bears active) (reconciled : c.stack.reconcile place.path = ⟨active⟩)
    (admits : s.Admits place node kind) (follow : c.cursor.toFollow = none) (prune : c.cursor.toPrune = none)
    (waiting : c.waiting = none) :
    let e := Entry.ofNode place.path kind node depth
    (s.handle c e).items.filterMap Item.event? = (s.sight place).1.take 1 ∧
      ∃ c', (s.handle c e).after = .inl c' ∧ s.Standing c' place e ∧ c'.stack.items = active ∧
        c'.cursor.streams = c.cursor.streams ∧ c'.cursor.position = c.cursor.position := by
  intro e
  have path : e.path = place.path := rfl
  rw [← path] at reconciled
  have revisits := revisits_eq (s := s) path bears
  have reports := reported?_of_admits admits
  by_cases revisited : s.Revisited place
  · rw [if_pos revisited] at reports
    have handled : s.handle c e =
        ⟨(c.stack.reconcileNotices e.path ++ [Notice.revisited e.path]).map .notice,
          .inl { c with cursor := c.cursor.prune e, stack := ⟨active⟩ }⟩ := by
      simp only [handle, reconciled, revisits, revisited, decide_true]
    rw [handled, sight_of_unreported reports]
    refine ⟨?_, _, rfl, ⟨path, bears, follow, ?_⟩, rfl, rfl, rfl⟩
    · rw [events_notices, List.filterMap_append, events_reconcileNotices]
      rfl
    · simp only [reports]
      exact ⟨waiting, rfl⟩
  · rw [if_neg revisited] at reports
    have reported : Scanner.report s.walk.system ⟨active⟩ e = (s.recordAt place node kind,
        if kind = .symbolicLink then some (e, s.walk.system.resolveLink e.path) else none) := report_eq depth bears
    have handled : s.handle c e =
        ⟨(c.stack.reconcileNotices e.path ++
            if kind = .symbolicLink then s.walk.system.resolveNotices e.path else []).map .notice ++
          [.record (s.recordAt place node kind)],
        .inl { c with
          stack := ⟨active⟩, count := c.count + 1,
          waiting := if kind = .symbolicLink then some (e, s.walk.system.resolveLink e.path) else none }⟩ := by
      simp only [handle, reconciled, revisits, revisited, decide_false, reported]
      rfl
    rw [handled, sight_head reports]
    refine ⟨?_, _, rfl, ⟨path, bears, follow, ?_⟩, rfl, rfl, rfl⟩
    · rw [List.filterMap_append, events_notices, List.filterMap_append, events_reconcileNotices]
      split
      · rw [events_resolveNotices]
        rfl
      · rfl
    · simp only [reports]
      exact ⟨rfl, prune, trivial⟩

end Scan
end Inventory
