import Inventory.Proofs.Tour

namespace Inventory
namespace Scan

variable {s : Scan}

/-- The scan has handled a stop, and around it directories are open. The
    directory of the root is open already when the root is visited. -/
structure Handled (s : Scan) (c : Scanner) (stop : Stop) (outer : List Opened) : Prop where
  stack : c.stack = ⟨stop.active⟩
  follow : c.cursor.toFollow = none
  turn : s.Reports stop ∧ c.cursor.toPrune = none ∧
      c.waiting = (Scanner.report s.walk.system ⟨stop.active⟩ stop.entry).2 ∨
    ¬ s.Reports stop ∧ c.cursor.toPrune = some stop.entry.path ∧ c.waiting = none
  place : c.cursor.position = .onEntry stop.entry ∧ c.cursor.streams = outer.map Opened.stream ∨
    c.cursor.position = .onRoot stop.entry ∧ s.Reports stop ∧ outer = [] ∧
      c.cursor.streams =
        if stop.entry.kind = .directory then (s.openedAt stop.entry stop.active).map Opened.stream else []

theorem Handled.visiting {c : Scanner} {stop : Stop} {outer : List Opened} (handled : s.Handled c stop outer) :
    Visiting c stop.entry := by
  rcases handled.place with ⟨onEntry, _⟩ | ⟨onRoot, _⟩
  · exact .inr onEntry
  · exact .inl onRoot

theorem event?_of_passedOver {w : Walk} {p : Path} {depth : Nat} {n : Name} {why : Notice}
    (passed : w.visit p depth n = .passedOver why) : why.event? = none := by
  unfold Walk.visit at passed
  simp only at passed
  split at passed
  · cases passed
    rfl
  · split at passed
    · cases passed
      rfl
    · split at passed
      · cases passed
      · split at passed
        · cases passed
          rfl
        · cases passed

theorem events_pullFrom (w : Walk) (p : Path) (depth : Nat) (names : List Name) :
    (w.pullFrom p depth names).1.filterMap Notice.event? = [] := by
  induction names with
  | nil => rfl
  | cons n names ih =>
    unfold Walk.pullFrom
    split
    · rfl
    · rfl
    · rename_i why passed
      exact (List.filterMap_cons_none (event?_of_passedOver passed)).trans ih

/-- What the walk passes over is no event. -/
theorem events_pull (w : Walk) (streams : List Stream) : (w.pull streams).1.filterMap Notice.event? = [] := by
  induction streams with
  | nil => rfl
  | cons st outer ih =>
    have quiet := events_pullFrom w st.path st.depth st.pending
    unfold Walk.pull
    split
    · rename_i pulled
      rwa [pulled] at quiet
    · rename_i pulled
      rwa [pulled] at quiet
    · rename_i pulled
      rw [pulled] at quiet
      simp only [List.filterMap_append, quiet, ih, List.append_nil]

/-- Going below an entry opens its directory if it can be opened. -/
theorem descend_openedAt (c : Cursor) (e : Entry) (active : List Redirection) :
    (s.walk.descend c e).1.filterMap Notice.event? = [] ∧
      (s.walk.descend c e).2 = { c with streams := (s.openedAt e active).map Opened.stream ++ c.streams } := by
  unfold Walk.descend openedAt
  cases s.walk.openStream e.path (e.depth + 1) with
  | error why => exact ⟨rfl, rfl⟩
  | ok st => exact ⟨rfl, rfl⟩

theorem waiting_report (fs : FileSystem) (stack : RedirectionStack) (e : Entry) :
    (Scanner.report fs stack e).2 = if e.kind = .symbolicLink then some (e, fs.resolveLink e.path) else none := by
  unfold Scanner.report
  split <;> rfl

/-- Where nothing is to be opened, the walk goes on with what is open. -/
theorem resume_quiet {c : Cursor} {e : Entry}
    (visiting : c.position = .onEntry e ∨ c.position = .onRoot e ∧ e.kind ≠ .directory ∧ c.toPrune = none)
    (closed : e.kind ≠ .directory ∨ c.toPrune = some e.path) (follow : c.toFollow = none) :
    s.walk.resume c = ([], { c with toFollow := none, toPrune := none }) := by
  have stays : ¬ (e.kind = .directory ∧ c.toPrune ≠ some e.path) := by tauto
  rw [resume_eq visiting, if_neg stays]
  simp [Walk.descendIfFollowed, follow]

/-- The decision at a stop was taken, and what is to be opened there was opened. -/
structure Decided (s : Scan) (c : Scanner) (stop : Stop) (opened outer : List Opened) (d : Scanner) : Prop where
  decided : (s.decideWaiting c).2 = .ok d
  tells : ((s.decideWaiting c).1 ++ (s.walk.resume d.cursor).1).filterMap Notice.event? = (s.told stop).tail
  streams : (s.walk.resume d.cursor).2.streams = (opened ++ outer).map Opened.stream
  prune : (s.walk.resume d.cursor).2.toPrune = none
  held : ∀ x ∈ opened, x.active = d.stack.items ∧ x.stream.path = stop.entry.path

namespace Handled

variable {c : Scanner} {stop : Stop} {outer : List Opened}

/-- At what is no directory, a request to follow is looked at. -/
theorem asks (handled : s.Handled c stop outer) (reports : s.Reports stop) (other : stop.entry.kind ≠ .directory) :
    c.cursor.toPrune = none ∧ c.cursor.streams = outer.map Opened.stream ∧
      (c.cursor.position = .onEntry stop.entry ∨
        c.cursor.position = .onRoot stop.entry ∧ stop.entry.kind ≠ .directory ∧ c.cursor.toPrune = none) := by
  have prune : c.cursor.toPrune = none := by
    rcases handled.turn with ⟨_, prune, _⟩ | ⟨unreported, _⟩
    · exact prune
    · exact absurd reports unreported
  rcases handled.place with ⟨onEntry, streams⟩ | ⟨onRoot, _, rfl, streams⟩
  · exact ⟨prune, streams, .inl onEntry⟩
  · exact ⟨prune, by rw [streams, if_neg other]; rfl, .inr ⟨onRoot, other, prune⟩⟩

theorem waits (handled : s.Handled c stop outer) (reports : s.Reports stop) :
    c.waiting = if stop.entry.kind = .symbolicLink then
      some (stop.entry, s.walk.system.resolveLink stop.entry.path) else none := by
  rcases handled.turn with ⟨_, _, waits⟩ | ⟨unreported, _⟩
  · rw [waits, waiting_report]
  · exact absurd reports unreported

theorem of_unreported (handled : s.Handled c stop outer) (unreported : ¬ s.Reports stop) :
    s.Decided c stop [] outer c := by
  obtain ⟨told, _⟩ := onward_of_unreported unreported
  rcases handled.turn with ⟨reports, _⟩ | ⟨_, prune, waits⟩
  · exact absurd reports unreported
  · have decided : s.decideWaiting c = ([], .ok c) := by simp [decideWaiting, waits]
    rcases handled.place with ⟨onEntry, streams⟩ | ⟨_, reports, _⟩
    · have resumed := resume_quiet (s := s) (.inl onEntry) (.inr prune) handled.follow
      refine ⟨by rw [decided], ?_, ?_, by rw [resumed], by simp⟩
      · rw [decided, resumed, told]
        rfl
      · rw [resumed]
        exact streams
    · exact absurd reports unreported

theorem of_regularFile (handled : s.Handled c stop outer) (reports : s.Reports stop)
    (regular : stop.entry.kind = .regularFile) : s.Decided c stop [] outer c := by
  obtain ⟨_, streams, asked⟩ := handled.asks reports (by simp [regular])
  have waits : c.waiting = none := by simp [handled.waits reports, regular]
  have decided : s.decideWaiting c = ([], .ok c) := by simp [decideWaiting, waits]
  have resumed := resume_quiet (s := s) asked (.inl (by simp [regular])) handled.follow
  refine ⟨by rw [decided], ?_, ?_, by rw [resumed], by simp⟩
  · rw [decided, resumed, told_of_reports reports, verdict_of_plain (by simp [regular])]
    rfl
  · rw [resumed]
    exact streams

theorem of_directory (handled : s.Handled c stop outer) (reports : s.Reports stop)
    (directory : stop.entry.kind = .directory) :
    s.Decided c stop (s.openedAt stop.entry stop.active) outer c := by
  have waits : c.waiting = none := by simp [handled.waits reports, directory]
  have decided : s.decideWaiting c = ([], .ok c) := by simp [decideWaiting, waits]
  have told : (s.told stop).tail = [] := by
    rw [told_of_reports reports, verdict_of_plain (by simp [directory])]
    rfl
  have held : ∀ x ∈ s.openedAt stop.entry stop.active, x.active = c.stack.items ∧ x.stream.path = stop.entry.path := by
    intro x inside
    obtain ⟨opens, active⟩ := mem_openedAt inside
    exact ⟨by rw [active, handled.stack], path_of_openStream opens⟩
  rcases handled.turn with ⟨_, prune, _⟩ | ⟨unreported, _⟩
  · rcases handled.place with ⟨onEntry, streams⟩ | ⟨onRoot, _, rfl, streams⟩
    · obtain ⟨quiet, goes⟩ := descend_openedAt (s := s) { c.cursor with toPrune := none } stop.entry stop.active
      have resumed : s.walk.resume c.cursor = s.walk.descend { c.cursor with toPrune := none } stop.entry := by
        rw [resume_eq (.inl onEntry), if_pos ⟨directory, by simp [prune]⟩]
      refine ⟨by rw [decided], ?_, ?_, by rw [resumed, goes], held⟩
      · rw [decided, resumed, told]
        exact quiet
      · rw [resumed, goes, List.map_append, ← streams]
    · have resumed : s.walk.resume c.cursor = ([], { c.cursor with toFollow := none }) := by
        simp [Walk.resume, onRoot, Walk.descendIfFollowed, handled.follow]
      refine ⟨by rw [decided], ?_, ?_, ?_, held⟩
      · rw [decided, resumed, told]
        rfl
      · rw [resumed, List.append_nil]
        exact streams.trans (if_pos directory)
      · rw [resumed]
        exact prune
  · exact absurd reports unreported

/-- At a link the gate decides, and a link that it lets through is opened. -/
theorem of_link (handled : s.Handled c stop outer) (reports : s.Reports stop)
    (link : stop.entry.kind = .symbolicLink) :
    match s.verdict stop with
    | .unreadable target why => (s.decideWaiting c).2 = .error (.reported (.targetNotRead target why))
    | .enter target =>
      s.Decided c stop (s.openedAt stop.entry (⟨stop.entry.path, target⟩ :: stop.active)) outer
        { c with
          cursor := { c.cursor with toFollow := some stop.entry.path },
          stack := c.stack.push ⟨stop.entry.path, target⟩, waiting := none }
    | _ => s.Decided c stop [] outer { c with waiting := none } := by
  obtain ⟨prune, streams, asked⟩ := handled.asks reports (by simp [link])
  have waits := (handled.waits reports).trans (if_pos link)
  have passes := Gate.pass_of_link s.gate c.stack (s.walk.system.resolveLink stop.entry.path) c.cursor link
  have said : s.verdict stop = s.gate.judge c.stack stop.entry (s.walk.system.resolveLink stop.entry.path) := by
    rw [verdict, if_pos link, handled.stack]
  have told := told_of_reports reports
  rw [← said] at passes
  cases verdict : s.verdict stop with
  | unreadable target why => simp [decideWaiting, waits, passes, verdict]
  | enter target =>
    have decided : s.decideWaiting c = ([c.stack.pushNotice ⟨stop.entry.path, target⟩],
        .ok { c with
          cursor := { c.cursor with toFollow := some stop.entry.path },
          stack := c.stack.push ⟨stop.entry.path, target⟩, waiting := none }) := by
      simp [decideWaiting, waits, passes, verdict]
    obtain ⟨quiet, goes⟩ := descend_openedAt (s := s) { c.cursor with toFollow := none, toPrune := none } stop.entry
      (⟨stop.entry.path, target⟩ :: stop.active)
    have resumed : s.walk.resume { c.cursor with toFollow := some stop.entry.path } =
        s.walk.descend { c.cursor with toFollow := none, toPrune := none } stop.entry := by
      rw [resume_eq (by simpa using asked)]
      simp [link, Walk.descendIfFollowed]
    refine ⟨by rw [decided], ?_, ?_, ?_, fun x inside => ?_⟩
    · rw [decided, resumed, List.filterMap_append, quiet, told, verdict]
      rfl
    · rw [resumed, goes, List.map_append, ← streams]
    · rw [resumed, goes]
    · obtain ⟨opens, active⟩ := mem_openedAt inside
      exact ⟨by rw [active, handled.stack]; rfl, path_of_openStream opens⟩
  | absent | outside target | alreadyScanned target | encloses target | notDirectory target =>
    have resumed := resume_quiet (s := s) asked (.inl (by simp [link])) handled.follow
    refine ⟨by simp [decideWaiting, waits, passes, verdict], ?_, ?_, by rw [resumed], by simp⟩
    · rw [resumed, told, verdict]
      simp [decideWaiting, waits, passes, verdict, Verdict.notices, Notice.event?]
    · rw [resumed]
      exact streams

/-- From a stop the walk goes on as the stop says. -/
theorem goesOn (handled : s.Handled c stop outer) :
    match s.onward stop with
    | .error f => (s.decideWaiting c).2 = .error f
    | .ok opened => ∃ d, s.Decided c stop opened outer d := by
  by_cases reports : s.Reports stop
  · cases kind : stop.entry.kind with
    | regularFile =>
      rw [onward_of_regularFile reports kind]
      exact ⟨c, handled.of_regularFile reports kind⟩
    | directory =>
      rw [onward_of_directory reports kind]
      exact ⟨c, handled.of_directory reports kind⟩
    | symbolicLink =>
      have link := handled.of_link reports kind
      rw [onward_of_link reports kind]
      cases verdict : s.verdict stop with
      | unreadable target why =>
        rw [verdict] at link
        exact link
      | enter target | absent | outside target | alreadyScanned target | encloses target | notDirectory target =>
        rw [verdict] at link
        exact ⟨_, link⟩
  · rw [(onward_of_unreported reports).2]
    exact ⟨c, handled.of_unreported reports⟩

end Handled

/-- The next stop is handled: its record is made known if it is reported. -/
theorem handled_of_handle {c : Scanner} (stop : Stop) (outer : List Opened)
    (reconciled : c.stack.reconcile stop.entry.path = ⟨stop.active⟩) (follow : c.cursor.toFollow = none)
    (prune : c.cursor.toPrune = none) (waits : c.waiting = none)
    (place : c.cursor.position = .onEntry stop.entry ∧ c.cursor.streams = outer.map Opened.stream ∨
      c.cursor.position = .onRoot stop.entry ∧ s.Reports stop ∧ outer = [] ∧ c.cursor.streams =
        if stop.entry.kind = .directory then (s.openedAt stop.entry stop.active).map Opened.stream else []) :
    ∃ c', (s.handle c stop.entry).after = .inl c' ∧ s.Handled c' stop outer ∧
      (s.handle c stop.entry).items.filterMap Item.event? = (s.told stop).take 1 := by
  obtain ⟨revisited, known⟩ := revisits_reconcile s.gate c.stack stop.entry
  rw [reconciled] at known
  cases revisited with
  | true =>
    have unreported : ¬ s.Reports stop := by simp [Reports, known]
    simp only [handle, reconciled, known]
    refine ⟨_, rfl, ⟨rfl, follow, .inr ⟨unreported, rfl, waits⟩, ?_⟩, ?_⟩
    · rcases place with here | ⟨_, reports, _⟩
      · exact .inl here
      · exact absurd reports unreported
    · rw [events_notices, List.filterMap_append, events_reconcileNotices, (onward_of_unreported unreported).1]
      rfl
  | false =>
    have reports : s.Reports stop := known
    simp only [handle, reconciled, known]
    refine ⟨_, rfl, ⟨rfl, follow, .inl ⟨reports, prune, rfl⟩, place⟩, ?_⟩
    rw [told_of_reports reports, List.filterMap_append, events_notices, List.filterMap_append, events_reconcileNotices]
    split
    · rw [events_resolveNotices]
      rfl
    · rfl

theorem take_one_append_tail {α : Type} (l : List α) : l.take 1 ++ l.tail = l := by
  cases l <;> rfl

/-- What is entered at an entry does not hold in the directories around it. -/
theorem holds_letThrough {c : Scanner} {e : Entry} {entered : List Redirection} {d : Opened}
    (inForce : s.InForce e c entered) (outside : e.kind = .symbolicLink → ¬ d.stream.path.Under e.path)
    (holds : d.Holds entered) : d.Holds (entered ++ s.letThrough c) := by
  have none : (s.letThrough c).filter (·.AppliesTo d.stream.path) = [] := by
    refine List.filter_eq_nil_iff.2 fun r among applies => ?_
    unfold Scan.letThrough at among
    split at among
    · cases among
    · rename_i link resolution waits
      obtain ⟨rfl, kind, _⟩ := inForce.waiting _ _ waits
      split at among
      · obtain rfl := List.mem_singleton.1 among
        exact outside kind (of_decide_eq_true applies)
      · cases among
  rw [Opened.Holds, List.filter_append, none, List.append_nil]
  exact holds

theorem step_of_decided {c d : Scanner} (decided : (s.decideWaiting c).2 = .ok d) :
    let next := s.walk.next d.cursor
    let before := ((s.decideWaiting c).1 ++ next.notices).map Item.notice
    s.step c = match next.outcome with
      | .error f => ⟨before, .inr (.failed f)⟩
      | .ok none => ⟨before ++ [.notice (.scanned d.count s.walk.root)], .inr .complete⟩
      | .ok (some e) =>
        ⟨before ++ (s.handle { d with cursor := next.cursor } e).items,
          (s.handle { d with cursor := next.cursor } e).after⟩ := by
  cases outcome : (s.walk.next d.cursor).outcome with
  | error f => simp only [Scan.step, decided, outcome]
  | ok handed =>
    cases handed with
    | none => simp only [Scan.step, decided, outcome]
    | some e => simp only [Scan.step, decided, outcome]

/-- When the decision at a stop was taken, each open directory holds what was
    entered at or above it. -/
theorem Decided.holds {c d : Scanner} {stop : Stop} {outer opened : List Opened} {entered : List Redirection}
    (decided : s.Decided c stop opened outer d) (handled : s.Handled c stop outer)
    (inForce : s.InForce stop.entry c entered) (holds : ∀ x ∈ outer, x.Holds entered) :
    ∀ x ∈ opened ++ outer, x.Holds (entered ++ s.letThrough c) := by
  intro x inside
  rcases List.mem_append.1 inside with new | old
  · obtain ⟨active, path⟩ := decided.held x new
    rw [Opened.Holds, active, path]
    exact (inForce.decided decided.decided).stack
  · refine holds_letThrough inForce (fun link under => ?_) (holds x old)
    have open' : x.stream ∈ c.cursor.streams := by
      rcases handled.place with ⟨_, streams⟩ | ⟨_, _, rfl, _⟩
      · rw [streams]
        exact List.mem_map_of_mem old
      · cases old
    have here := Path.under_antisymm under (inForce.ledger.around _ open').above
    rw [(inForce.closed _ open' here).2] at link
    cases link

theorem Among.holds {left dirs : List Opened} {entered : List Redirection} (among : Among left dirs)
    (holds : ∀ x ∈ dirs, x.Holds entered) : ∀ x ∈ left, x.Holds entered := by
  intro x inside
  obtain ⟨y, there, path, active⟩ := among x inside
  rw [Opened.Holds, path, active]
  exact holds y there

/-- For the next entry, the stack is brought down to what holds in the innermost
    directory that is left open. -/
theorem reconcile_of_holds {d : Scanner} {last e : Entry} {entered : List Redirection} {x : Opened}
    {later : List Stream} (inForce : s.InForce last d entered)
    (handed : (s.walk.next d.cursor).outcome = .ok (some e))
    (streams : (s.walk.next d.cursor).cursor.streams = x.stream :: later) (holds : x.Holds entered) :
    d.stack.reconcile e.path = ⟨x.active⟩ := by
  obtain ⟨_, st, _, _, n, names, _, _, _, path, cursor⟩ := inForce.next_cases handed
  have base : x.stream.path = st.path := by
    rw [cursor] at streams
    rw [← (List.cons.inj streams).1]
  obtain ⟨reconciled, first⟩ := inForce.handed handed
  have held : (d.stack.reconcile e.path).toList = x.active.reverse := by
    rw [reconciled, holds, path, base]
    refine List.filter_congr fun r among => decide_eq_decide.2 ⟨fun applies => ?_, fun applies => ?_⟩
    · rcases Path.under_child_cases applies with same | upper
      · exact absurd (same.trans path.symm) (first r among)
      · exact upper
    · exact (Path.child_under st.path n).trans applies
  rw [RedirectionStack.toList, List.reverse_inj] at held
  rw [← held]

/-- From a stop, a step comes to the next one, or ends. -/
theorem Handled.step {c : Scanner} {stop : Stop} {outer opened : List Opened} {entered : List Redirection}
    (handled : s.Handled c stop outer) (inForce : s.InForce stop.entry c entered)
    (holds : ∀ d ∈ outer, d.Holds entered) (goes : s.onward stop = .ok opened) :
    match (s.walk.pull ((opened ++ outer).map Opened.stream)).2 with
    | .error f => (s.step c).after = .inr (.failed f)
    | .ok none => (s.step c).after = .inr .complete ∧
        (s.step c).items.filterMap Item.event? = (s.told stop).tail
    | .ok (some (e, streams)) => ∀ d later, streams = (d :: later).map Opened.stream →
        Among (d :: later) (opened ++ outer) → ∃ c' entered', (s.step c).after = .inl c' ∧
          s.Handled c' ⟨e, d.active⟩ (d :: later) ∧ s.InForce e c' entered' ∧ (∀ d' ∈ d :: later, d'.Holds entered') ∧
          (s.step c).items.filterMap Item.event? = (s.told stop).tail ++ (s.told ⟨e, d.active⟩).take 1 := by
  have onward := handled.goesOn
  rw [goes] at onward
  obtain ⟨d, whole⟩ := onward
  have all := whole.holds handled inForce holds
  obtain ⟨decided, tells, streams, prune, _⟩ := whole
  have now := inForce.decided decided
  have quiet := events_pull s.walk ((opened ++ outer).map Opened.stream)
  have next := next_of_visiting s.walk now.visiting
  simp only [streams] at next
  have stepped := step_of_decided decided
  simp only at stepped
  generalize pulled : s.walk.pull ((opened ++ outer).map Opened.stream) = found at next quiet ⊢
  obtain ⟨notices, f | _ | ⟨e, left⟩⟩ := found
  · rw [stepped, next]
  · rw [stepped, next]
    refine ⟨rfl, ?_⟩
    simp only at quiet
    rw [List.filterMap_append, events_notices, ← List.append_assoc, List.filterMap_append, tells, quiet]
    simp [Item.event?, Notice.event?]
  · rintro x later rfl among
    have handed : (s.walk.next d.cursor).outcome = .ok (some e) := by rw [next]
    have left := among.holds all
    have stack := reconcile_of_holds now handed (by rw [next]; rfl) (left x List.mem_cons_self)
    have waits := waiting_decideWaiting decided
    obtain ⟨c', goes', handled', tells'⟩ := handled_of_handle (s := s)
      (c := { d with cursor := (s.walk.next d.cursor).cursor }) ⟨e, x.active⟩ (x :: later) stack
      (by rw [next]; exact now.resumed.2) (by rw [next]; exact prune) waits (.inl (by rw [next]; exact ⟨rfl, rfl⟩))
    refine ⟨c', _, ?_, handled', now.visited waits handed goes', left, ?_⟩
    · rw [stepped, handed]
      exact goes'
    · rw [stepped, handed]
      simp only at tells' ⊢
      rw [List.filterMap_append, events_notices, tells', next]
      simp only at quiet ⊢
      rw [← List.append_assoc, List.filterMap_append, tells, quiet, List.append_nil]

theorem events_run (steps : Nat) {c c' : Scanner} (goes : (s.step c).after = .inl c') :
    (s.run (steps + 1) c).ending = (s.run steps c').ending ∧
      (s.run (steps + 1) c).events = (s.step c).items.filterMap Item.event? ++ (s.run steps c').events := by
  rw [run, goes]
  exact ⟨rfl, List.filterMap_append⟩

theorem ending_run (steps : Nat) {c : Scanner} {ending : Ending} (ends : (s.step c).after = .inr ending) :
    (s.run (steps + 1) c).ending = ending ∧
      (s.run (steps + 1) c).events = (s.step c).items.filterMap Item.event? := by
  rw [run, ends]
  exact ⟨rfl, rfl⟩

/-- A run that completes from a stop on makes a tour. -/
theorem exists_tour {steps : Nat} {c : Scanner} {stop : Stop} {outer : List Opened} {entered : List Redirection}
    (handled : s.Handled c stop outer) (inForce : s.InForce stop.entry c entered)
    (holds : ∀ d ∈ outer, d.Holds entered) (completes : (s.run steps c).ending = .complete) :
    ∃ opened more, s.onward stop = .ok opened ∧ s.Tour (opened ++ outer) more ∧ more.length < steps ∧
      (s.run steps c).events = (s.told stop).tail ++ more.flatMap s.told := by
  induction steps generalizing c stop outer entered with
  | zero => cases completes
  | succ steps ih =>
    cases goes : s.onward stop with
    | error f =>
      have failed := handled.goesOn
      rw [goes] at failed
      have ends : (s.step c).after = .inr (.failed f) := by simp only [Scan.step, failed]
      rw [(ending_run steps ends).1] at completes
      cases completes
    | ok opened =>
      have stepped := handled.step inForce holds goes
      have tours := tour_iff s (opened ++ outer)
      generalize (s.walk.pull ((opened ++ outer).map Opened.stream)).2 = found at stepped tours
      obtain f | _ | ⟨e, streams⟩ := found
      · rw [(ending_run steps stepped).1] at completes
        cases completes
      · obtain ⟨ends, tells⟩ := stepped
        refine ⟨opened, [], rfl, (tours []).2 rfl, Nat.succ_pos _, ?_⟩
        rw [(ending_run steps ends).2, tells]
        simp
      · obtain ⟨d, later, rfl, among, tours⟩ := tours
        obtain ⟨c', entered', goes', handled', inForce', holds', tells⟩ := stepped d later rfl among
        obtain ⟨ending, events⟩ := events_run steps goes'
        obtain ⟨opened', more, onward', tour, few, rest⟩ := ih handled' inForce' holds' (ending ▸ completes)
        refine ⟨opened, ⟨e, d.active⟩ :: more, rfl, (tours _).2 ⟨opened', more, rfl, onward', tour⟩,
          Nat.succ_lt_succ few, ?_⟩
        rw [events, tells, rest, List.flatMap_cons, List.append_assoc, ← List.append_assoc ((s.told _).take 1),
          take_one_append_tail]

/-- A run with enough steps makes the tour from a stop on, and completes. -/
theorem run_of_tour {steps : Nat} {c : Scanner} {stop : Stop} {outer opened : List Opened} {more : List Stop}
    {entered : List Redirection} (handled : s.Handled c stop outer) (inForce : s.InForce stop.entry c entered)
    (holds : ∀ d ∈ outer, d.Holds entered) (goes : s.onward stop = .ok opened) (tour : s.Tour (opened ++ outer) more)
    (enough : more.length < steps) :
    (s.run steps c).ending = .complete ∧ (s.run steps c).events = (s.told stop).tail ++ more.flatMap s.told := by
  induction steps generalizing c stop outer opened more entered with
  | zero => cases enough
  | succ steps ih =>
    have stepped := handled.step inForce holds goes
    have tours := tour_iff s (opened ++ outer)
    generalize (s.walk.pull ((opened ++ outer).map Opened.stream)).2 = found at stepped tours
    obtain f | _ | ⟨e, streams⟩ := found
    · exact absurd tour (tours more)
    · obtain ⟨ends, tells⟩ := stepped
      obtain rfl := (tours more).1 tour
      obtain ⟨ending, events⟩ := ending_run steps ends
      exact ⟨ending, by rw [events, tells]; simp⟩
    · obtain ⟨d, later, rfl, among, tours⟩ := tours
      obtain ⟨c', entered', goes', handled', inForce', holds', tells⟩ := stepped d later rfl among
      obtain ⟨ending, events⟩ := events_run steps goes'
      obtain ⟨opened', more', rfl, onward', tour'⟩ := (tours more).1 tour
      obtain ⟨completes, rest⟩ := ih handled' inForce' holds' onward' tour' (Nat.lt_of_succ_lt_succ enough)
      refine ⟨ending.trans completes, ?_⟩
      rw [events, tells, rest, List.flatMap_cons, List.append_assoc, ← List.append_assoc ((s.told _).take 1),
        take_one_append_tail]

/-- The tour from the root on, with the root as the first stop. -/
def Course (s : Scan) (stops : List Stop) : Prop :=
  ∃ e streams opened more, s.walk.enterRoot = .ok (e, streams) ∧ s.onward ⟨e, []⟩ = .ok opened ∧
    s.Tour opened more ∧ stops = ⟨e, []⟩ :: more

theorem reports_root (s : Scan) (e : Entry) : s.Reports ⟨e, []⟩ := rfl

/-- The first step handles the root. -/
theorem handled_root {e : Entry} {streams : List Stream} (enters : s.walk.enterRoot = .ok (e, streams)) :
    ∃ c, (s.step begin).after = .inl c ∧ s.Handled c ⟨e, []⟩ [] ∧ s.InForce e c [] ∧
      (s.step begin).items.filterMap Item.event? = (s.told ⟨e, []⟩).take 1 := by
  have next : s.walk.next begin.cursor = ⟨[], ⟨streams, none, none, .onRoot e⟩, .ok (some e)⟩ := by
    simp [begin, Walk.next, enters, Cursor.fresh]
  have place : streams = if e.kind = .directory then (s.openedAt e []).map Opened.stream else [] := by
    obtain ⟨node, kind, asked, known, rfl, ⟨rfl, st, opens, rfl⟩ | ⟨other, rfl⟩⟩ := Walk.enterRoot_eq_ok enters
    · have opens' : s.walk.openStream s.walk.root (0 + 1) = .ok st := opens
      simp [openedAt, Entry.ofNode, opens']
    · simp [Entry.ofNode, other]
  obtain ⟨c, goes, handled, tells⟩ := handled_of_handle (s := s)
    (c := { begin with cursor := (s.walk.next begin.cursor).cursor }) ⟨e, []⟩ [] rfl (by rw [next]) (by rw [next]) rfl
    (.inr (by rw [next]; exact ⟨rfl, reports_root s e, rfl, place⟩))
  have stepped := step_of_decided (s := s) (c := begin) (d := begin) rfl
  rw [next] at stepped goes tells
  refine ⟨c, by rw [stepped]; exact goes, handled, ?_, ?_⟩
  · refine inForce_of_root (by rw [next]) ?_
    rw [next]
    exact goes
  · rw [stepped]
    simpa [decideWaiting, begin] using tells

/-- A scan that completes makes known what its course says. -/
theorem exists_course (completes : s.trace.ending = .complete) :
    ∃ stops, s.Course stops ∧ stops.length < s.stepBound ∧ s.trace.events = stops.flatMap s.told := by
  unfold trace at completes ⊢
  generalize s.stepBound = steps at completes ⊢
  cases steps with
  | zero => cases completes
  | succ steps =>
    cases enters : s.walk.enterRoot with
    | error f =>
      have ends : (s.step begin).after = .inr (.failed f) := by rw [step_begin_error enters]
      rw [(ending_run steps ends).1] at completes
      cases completes
    | ok root =>
      obtain ⟨e, streams⟩ := root
      obtain ⟨c, goes, handled, inForce, tells⟩ := handled_root enters
      obtain ⟨ending, events⟩ := events_run steps goes
      obtain ⟨opened, more, onward, tour, few, rest⟩ := exists_tour handled inForce (by simp) (ending ▸ completes)
      rw [List.append_nil] at tour
      refine ⟨⟨e, []⟩ :: more, ⟨e, streams, opened, more, enters, onward, tour, rfl⟩, Nat.succ_lt_succ few, ?_⟩
      rw [events, tells, rest, ← List.append_assoc, take_one_append_tail, List.flatMap_cons]

/-- A course that is short enough is made known by the scan, which completes. -/
theorem trace_of_course {stops : List Stop} (course : s.Course stops) (short : stops.length < s.stepBound) :
    s.trace.ending = .complete ∧ s.trace.events = stops.flatMap s.told := by
  obtain ⟨e, streams, opened, more, enters, onward, tour, rfl⟩ := course
  unfold trace
  generalize s.stepBound = steps at short ⊢
  cases steps with
  | zero => cases short
  | succ steps =>
    obtain ⟨c, goes, handled, inForce, tells⟩ := handled_root enters
    obtain ⟨ending, events⟩ := events_run steps goes
    rw [← List.append_nil opened] at tour
    obtain ⟨completes, rest⟩ := run_of_tour handled inForce (by simp) onward tour (Nat.lt_of_succ_lt_succ short)
    refine ⟨ending.trans completes, ?_⟩
    rw [events, tells, rest, ← List.append_assoc, take_one_append_tail, List.flatMap_cons]

end Scan
end Inventory
