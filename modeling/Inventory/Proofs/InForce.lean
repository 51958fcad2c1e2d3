import Inventory.Proofs.Ledger
import Inventory.Proofs.Simulation

namespace Inventory

namespace Gate

variable {g : Gate} {stack : RedirectionStack} {e : Entry} {r : LinkResolution}

theorem judge_eq_enter {target : Path} (verdict : g.judge stack e r = .enter target) :
    r.present = true ∧ r.target = some target ∧ target.Under g.localRoot ∧ ¬ target.Under g.searchRoot ∧
      ¬ g.Encloses stack e target ∧ ∃ node, g.system.stat target = .ok node ∧ node.isDirectory = true := by
  unfold judge at verdict
  split at verdict
  · rename_i target' present leads
    by_cases inside : target'.Under g.localRoot <;> simp only [inside, not_true, not_false_eq_true, if_true, if_false,
      reduceCtorEq] at verdict
    by_cases scanned : target'.Under g.searchRoot <;> simp only [scanned, if_true, if_false, reduceCtorEq] at verdict
    by_cases encloses : g.Encloses stack e target' <;> simp only [encloses, if_true, if_false, reduceCtorEq] at verdict
    split at verdict
    · cases verdict
    · rename_i node asked
      split at verdict
      · rename_i directory
        cases verdict
        exact ⟨present, leads, inside, scanned, encloses, node, asked, directory⟩
      · cases verdict
  · cases verdict

variable (g stack r) in
/-- A link is passed as the verdict says. -/
theorem pass_of_link (c : Cursor) (link : e.kind = .symbolicLink) :
    g.pass c stack e r = match g.judge stack e r with
      | .unreadable target why => ⟨[], c, stack, .error (.reported (.targetNotRead target why))⟩
      | .enter target => ⟨[stack.pushNotice ⟨e.path, target⟩], { c with toFollow := some e.path },
          stack.push ⟨e.path, target⟩, .ok true⟩
      | verdict => ⟨verdict.notices e.path, c, stack, .ok false⟩ := by
  unfold pass
  cases g.judge stack e r <;> simp [Cursor.follow, link]

end Gate

namespace Scan

variable {s : Scan} {c c' : Scanner} {e : Entry} {entered : List Redirection}

/-- The redirection of the link that waits, if the gate lets it through. -/
def letThrough (s : Scan) (c : Scanner) : List Redirection :=
  match c.waiting with
  | none => []
  | some (e, r) =>
    match (s.gate.pass c.cursor c.stack e r).entered, r.target with
    | .ok true, some target => [⟨e.path, target⟩]
    | _, _ => []

/-- The states of a scan, before and after it decides about a link, with the
    redirections of all links that were entered, in order. -/
inductive Reaches (s : Scan) : Scanner → List Redirection → Prop where
  | begin : Reaches s begin []
  | decide {c c' : Scanner} {entered : List Redirection} (reached : Reaches s c entered)
      (decided : (s.decideWaiting c).2 = .ok c') : Reaches s c' (entered ++ s.letThrough c)
  | visit {c c' : Scanner} {entered : List Redirection} {e : Entry} (reached : Reaches s c entered)
      (ready : c.waiting = none) (handed : (s.walk.next c.cursor).outcome = .ok (some e))
      (handled : (s.handle { c with cursor := (s.walk.next c.cursor).cursor } e).after = .inl c') :
      Reaches s c' entered

theorem waiting_decideWaiting (decided : (s.decideWaiting c).2 = .ok c') : c'.waiting = none := by
  unfold decideWaiting at decided
  split at decided
  · rename_i nothing
    cases decided
    exact nothing
  · simp only at decided
    split at decided
    · cases decided
    · cases decided
      rfl

/-- Each step of a scan is a decision and a visit. -/
theorem Reaches.step (reached : s.Reaches c entered) (goes : (s.step c).after = .inl c') :
    s.Reaches c' (entered ++ s.letThrough c) := by
  unfold Scan.step at goes
  cases decided : (s.decideWaiting c).2 with
  | error f => simp [decided] at goes
  | ok d =>
    simp only [decided] at goes
    split at goes
    · cases goes
    · cases goes
    · rename_i e handed
      exact (reached.decide decided).visit (waiting_decideWaiting decided) handed goes

/-- The state after so many steps with the redirections of all links that were
    entered, if the scan gets so far. -/
def after (s : Scan) : Nat → Option (Scanner × List Redirection)
  | 0 => some (begin, [])
  | steps + 1 =>
    match s.after steps with
    | none => none
    | some (c, entered) =>
      match (s.step c).after with
      | .inl c' => some (c', entered ++ s.letThrough c)
      | .inr _ => none

theorem reaches_after {steps : Nat} (goes : s.after steps = some (c, entered)) : s.Reaches c entered := by
  induction steps generalizing c entered with
  | zero =>
    cases goes
    exact .begin
  | succ steps ih =>
    unfold after at goes
    split at goes
    · cases goes
    · rename_i c' entered' before
      split at goes
      · rename_i c'' stepped
        cases goes
        exact (ih before).step stepped
      · cases goes

/-- A link that was entered leads to a directory between the roots. -/
structure Entered (s : Scan) (r : Redirection) : Prop where
  link : ∃ node, s.walk.system.lstat r.source = .ok node ∧ node.kind? = some .symbolicLink
  leads : (s.walk.system.resolveLink r.source).target = some r.destination
  below : r.source.Under s.walk.root
  inside : r.destination.Under (s.walk.system.canonical s.localRoot)
  outside : ¬ r.destination.Under (s.walk.system.canonical s.walk.root)
  directory : ∃ node, s.walk.system.stat r.destination = .ok node ∧ node.isDirectory = true

/-- The scan stands on an entry, and the stack holds what was entered at or above it. -/
structure InForce (s : Scan) (e : Entry) (c : Scanner) (entered : List Redirection) : Prop where
  visiting : Visiting c e
  under : e.path.Under s.walk.root
  asked : ∃ node, s.walk.system.lstat e.path = .ok node ∧ node.kind? = some e.kind
  ledger : Ledger s.walk.root e.path c.cursor.streams entered
  /-- Only the directory of the root is opened before it is visited. -/
  closed : ∀ st ∈ c.cursor.streams, st.path = e.path → c.cursor.position = .onRoot e ∧ e.kind = .directory
  stack : c.stack.toList = entered.filter (·.AppliesTo e.path)
  waiting : ∀ link r, c.waiting = some (link, r) → link = e ∧ e.kind = .symbolicLink ∧
    r = s.walk.system.resolveLink e.path ∧ ∀ r ∈ entered, r.source ≠ e.path
  follow : c.cursor.toFollow = none ∨ c.cursor.toFollow = some e.path ∧ e.kind = .symbolicLink
  history : ∀ r ∈ entered, s.Entered r

/-- A decision about a link leaves all as it is, or lets the link through. -/
theorem decideWaiting_cases (links : ∀ e r, c.waiting = some (e, r) → e.kind = .symbolicLink)
    (decided : (s.decideWaiting c).2 = .ok c') :
    (s.letThrough c = [] ∧ c' = { c with waiting := none }) ∨
      ∃ e r target, c.waiting = some (e, r) ∧ s.gate.judge c.stack e r = .enter target ∧
        s.letThrough c = [⟨e.path, target⟩] ∧
        c' = { c with
          cursor := { c.cursor with toFollow := some e.path }, stack := c.stack.push ⟨e.path, target⟩,
          waiting := none } := by
  cases waits : c.waiting with
  | none =>
    simp only [decideWaiting, waits] at decided
    cases decided
    refine .inl ⟨by simp [letThrough, waits], ?_⟩
    rw [← waits]
  | some link =>
    obtain ⟨e, r⟩ := link
    have passes := Gate.pass_of_link s.gate c.stack r c.cursor (links e r waits)
    simp only [decideWaiting, waits] at decided
    cases verdict : s.gate.judge c.stack e r with
    | unreadable target why =>
      rw [verdict] at passes
      simp [passes] at decided
    | enter target =>
      have leads := (Gate.judge_eq_enter verdict).2.1
      rw [verdict] at passes
      simp only [passes] at decided
      cases decided
      exact .inr ⟨e, r, target, rfl, verdict, by simp [letThrough, waits, passes, leads], rfl⟩
    | absent | outside target | alreadyScanned target | encloses target | notDirectory target =>
      rw [verdict] at passes
      simp only [passes] at decided
      cases decided
      exact .inl ⟨by simp [letThrough, waits, passes], rfl⟩

theorem mem_items_iff {stack : RedirectionStack} {r : Redirection} : r ∈ stack.items ↔ r ∈ stack.toList := by
  simp [RedirectionStack.toList]

namespace InForce

theorem decided (inForce : s.InForce e c entered) (decided : (s.decideWaiting c).2 = .ok c') :
    s.InForce e c' (entered ++ s.letThrough c) := by
  have links : ∀ link r, c.waiting = some (link, r) → link.kind = .symbolicLink := fun link r waits => by
    obtain ⟨rfl, kind, _⟩ := inForce.waiting link r waits
    exact kind
  rcases decideWaiting_cases links decided with ⟨nothing, rfl⟩ | ⟨link, r, target, waits, verdict, through, rfl⟩
  · rw [nothing, List.append_nil]
    exact { inForce with waiting := by simp }
  · obtain ⟨rfl, kind, rfl, first⟩ := inForce.waiting link r waits
    obtain ⟨_, leads, inside, outside, apart, directory⟩ := Gate.judge_eq_enter verdict
    have unenclosed : ∀ r ∈ entered, r.AppliesTo link.path → ¬ r.destination.Under target := by
      intro r among applies below
      have held : r ∈ c.stack.items := by
        rw [mem_items_iff, inForce.stack]
        exact List.mem_filter.2 ⟨among, decide_eq_true applies⟩
      exact apart (.inr ⟨r, held, below⟩)
    obtain ⟨node, asked, known⟩ := inForce.asked
    rw [through]
    refine ⟨inForce.visiting, inForce.under, inForce.asked, inForce.ledger.entering first unenclosed, inForce.closed,
      ?_, by simp, .inr ⟨rfl, kind⟩, fun r among => ?_⟩
    · rw [RedirectionStack.toList_push, inForce.stack, List.filter_append]
      simp [Redirection.AppliesTo, Path.under_refl]
    · rcases List.mem_append.1 among with before | now
      · exact inForce.history r before
      · obtain rfl := List.mem_singleton.1 now
        exact ⟨⟨node, asked, kind ▸ known⟩, leads, inForce.under, inside, outside, directory⟩

/-- A directory that was not open is opened where the walk stands. -/
theorem descended (inForce : s.InForce e c entered) {used : Cursor} (same : used.streams = c.cursor.streams)
    (quiet : used.toFollow = none) (closed : ∀ st ∈ c.cursor.streams, st.path ≠ e.path) :
    Ledger s.walk.root e.path (s.walk.descend used e).2.streams entered ∧
      (s.walk.descend used e).2.toFollow = none := by
  rcases s.walk.descend_cases used e with stays | ⟨st, opened, goes⟩
  · rw [stays, same]
    exact ⟨inForce.ledger, quiet⟩
  · have distinct := (Walk.pending_of_openStream opened).1
    obtain ⟨listed, _, rfl⟩ := Walk.openStream_eq_ok_iff.1 opened
    rw [goes, same]
    exact ⟨inForce.ledger.opening inForce.under distinct closed _, quiet⟩

/-- Only a link is followed, and its directory was not open. -/
theorem followed (inForce : s.InForce e c entered) {used : Cursor} (same : used.streams = c.cursor.streams)
    (follow : used.toFollow = c.cursor.toFollow) :
    Ledger s.walk.root e.path (s.walk.descendIfFollowed used e).2.streams entered ∧
      (s.walk.descendIfFollowed used e).2.toFollow = none := by
  unfold Walk.descendIfFollowed
  by_cases asked : used.toFollow = some e.path
  · simp only [asked, if_true]
    refine inForce.descended same rfl fun st inside here => ?_
    rcases inForce.follow with nothing | ⟨_, link⟩
    · rw [← follow, asked] at nothing
      cases nothing
    · rw [(inForce.closed st inside here).2] at link
      cases link
  · simp only [asked, if_false]
    exact ⟨same ▸ inForce.ledger, trivial⟩

/-- When the walk goes on, it opens the directory where it stands, or a link there. -/
theorem resumed (inForce : s.InForce e c entered) :
    Ledger s.walk.root e.path (s.walk.resume c.cursor).2.streams entered ∧
      (s.walk.resume c.cursor).2.toFollow = none := by
  rcases inForce.visiting with onRoot | onEntry
  · simp only [Walk.resume, onRoot]
    exact inForce.followed rfl rfl
  · simp only [Walk.resume, onEntry]
    split
    · rename_i directory
      refine inForce.descended rfl ?_ fun st inside here => ?_
      · rcases inForce.follow with nothing | ⟨_, link⟩
        · exact nothing
        · rw [directory.1] at link
          cases link
      · rw [(inForce.closed st inside here).1] at onEntry
        cases onEntry
    · exact inForce.followed rfl rfl

/-- For a child whose turn has come, the stack is brought down to what was
    entered above the child. -/
theorem reconcile (inForce : s.InForce e c entered) {streams : List Stream}
    (ledger : Ledger s.walk.root e.path streams entered) {st : Stream} (inside : st ∈ streams) {n : Name}
    (turn : n ∈ st.pending) :
    (c.stack.reconcile (st.path.child n)).toList = entered.filter (·.AppliesTo (st.path.child n)) := by
  have nested := (inForce.ledger.chain e.path).imp fun surrounds => Redirection.Surrounds.below surrounds
  rw [← inForce.stack] at nested
  obtain ⟨_, _, above, _, fresh⟩ := ledger.around st inside
  rw [RedirectionStack.toList_reconcile _ nested, inForce.stack, List.filter_filter]
  refine List.filter_congr fun r among => ?_
  by_cases applies : r.AppliesTo (st.path.child n)
  · have here : r.AppliesTo e.path := by
      rcases Path.under_child_cases applies with same | upper
      · exact absurd (same ▸ Path.under_refl _) (fresh n turn r among)
      · exact above.trans upper
    simp [applies, here]
  · simp [applies]

end InForce

/-- What is left of a state by the visit of an entry. -/
theorem handle_eq_inl (handled : (s.handle c e).after = .inl c') :
    c'.stack = c.stack.reconcile e.path ∧ c'.cursor.streams = c.cursor.streams ∧
      c'.cursor.position = c.cursor.position ∧ c'.cursor.toFollow = c.cursor.toFollow ∧
      (c'.waiting = c.waiting ∨ c'.waiting = none ∨
        e.kind = .symbolicLink ∧ c'.waiting = some (e, s.walk.system.resolveLink e.path)) := by
  unfold handle at handled
  simp only at handled
  split at handled
  · cases handled
  · cases handled
    exact ⟨rfl, rfl, rfl, rfl, .inl rfl⟩
  · cases handled
    refine ⟨rfl, rfl, rfl, rfl, ?_⟩
    unfold Scanner.report
    by_cases link : e.kind = .symbolicLink
    · simp [link]
    · simp [link]

theorem inForce_of_root (handed : (s.walk.next begin.cursor).outcome = .ok (some e))
    (handled : (s.handle { begin with cursor := (s.walk.next begin.cursor).cursor } e).after = .inl c') :
    s.InForce e c' [] := by
  obtain ⟨stack, streams, position, follow, waiting⟩ := handle_eq_inl handled
  cases enters : s.walk.enterRoot with
  | error f => simp [begin, Walk.next, enters] at handed
  | ok opened =>
    obtain ⟨e', opened⟩ := opened
    have same : e' = e := by simpa [begin, Walk.next, enters] using handed
    subst same
    obtain ⟨node, kind, asked, known, rfl, ways⟩ := Walk.enterRoot_eq_ok enters
    have here : (s.walk.next begin.cursor).cursor =
        ⟨opened, none, none, .onRoot (.ofNode s.walk.root kind node 0)⟩ := by
      simp [begin, Walk.next, enters, Cursor.fresh]
    simp only [here] at stack streams position follow
    have ledger : Ledger s.walk.root s.walk.root opened [] := by
      rcases ways with ⟨_, st, opens, rfl⟩ | ⟨_, rfl⟩
      · have distinct := (Walk.pending_of_openStream opens).1
        obtain ⟨listed, _, rfl⟩ := Walk.openStream_eq_ok_iff.1 opens
        exact (Ledger.start s.walk.root).opening (Path.under_refl _) distinct (by simp) 1
      · exact Ledger.start s.walk.root
    refine ⟨.inl position, Path.under_refl _, ⟨node, asked, known⟩, streams ▸ ledger, fun st inside _ => ?_, ?_, ?_,
      .inl follow, by simp⟩
    · rw [streams] at inside
      rcases ways with ⟨directory, _⟩ | ⟨_, rfl⟩
      · exact ⟨position, directory⟩
      · cases inside
    · rw [stack]
      rfl
    · intro link r waits
      rcases waiting with left | nothing | ⟨kind', now⟩
      · rw [left] at waits
        cases waits
      · rw [nothing] at waits
        cases waits
      · rw [now] at waits
        cases waits
        exact ⟨rfl, kind', rfl, by simp⟩

/-- From an entry on which a scan stands, the walk goes on to a child of an open
    directory that it did not come to before. -/
theorem InForce.next_cases (inForce : s.InForce e c entered) {e' : Entry}
    (handed : (s.walk.next c.cursor).outcome = .ok (some e')) :
    ∃ inner st outer skipped n rest, (s.walk.resume c.cursor).2.streams = inner ++ st :: outer ∧
      st.pending = skipped ++ n :: rest ∧ s.walk.visit st.path st.depth n = .entry e' ∧ e'.path = st.path.child n ∧
      (s.walk.next c.cursor).cursor = { (s.walk.resume c.cursor).2 with
        streams := { st with pending := rest } :: outer, position := .onEntry e' } := by
  have next := next_of_visiting s.walk inForce.visiting
  simp only at next
  rw [next] at handed ⊢
  cases found : (s.walk.pull (s.walk.resume c.cursor).2.streams).2 with
  | error f => simp [found] at handed
  | ok first =>
    cases first with
    | none => simp [found] at handed
    | some first =>
      obtain ⟨e'', later⟩ := first
      have same : e'' = e' := by simpa [found] using handed
      subst same
      obtain ⟨inner, st, outer, skipped, n, rest, open', turn, visited, rfl⟩ := Walk.pull_eq_some found
      obtain ⟨node, kind, _, _, _, _, _, rfl⟩ := Walk.visit_eq_entry visited
      exact ⟨inner, st, outer, skipped, n, rest, open', turn, visited, rfl, rfl⟩

theorem InForce.visited (inForce : s.InForce e c entered) (ready : c.waiting = none) {e' : Entry}
    (handed : (s.walk.next c.cursor).outcome = .ok (some e'))
    (handled : (s.handle { c with cursor := (s.walk.next c.cursor).cursor } e').after = .inl c') :
    s.InForce e' c' entered := by
  obtain ⟨inner, st, outer, skipped, n, rest, open', turn, visited, path, here⟩ := inForce.next_cases handed
  obtain ⟨stack, streams, position, follow, waiting⟩ := handle_eq_inl handled
  simp only [here, path] at stack streams position follow
  obtain ⟨ledger, quiet⟩ := inForce.resumed
  have reconciled := inForce.reconcile ledger (show st ∈ _ by simp [open']) (show n ∈ _ by simp [turn])
  rw [open'] at ledger
  have around := ledger.around st (by simp)
  have fresh := around.fresh n (by simp [turn])
  have ledger := ledger.visiting turn
  obtain ⟨node, kind, below, asked, known, _, _, rfl⟩ := Walk.visit_eq_entry visited
  refine ⟨.inr position, (Path.child_under _ n).trans around.below, ⟨node, asked, known⟩, streams ▸ ledger,
    fun st' inside same => ?_, stack ▸ reconciled, fun link r waits => ?_, .inl (follow.trans quiet), inForce.history⟩
  · rw [streams] at inside
    have above : st.path.Under st'.path := by
      rcases List.mem_cons.1 inside with rfl | inside
      · exact Path.under_refl _
      · exact ((List.pairwise_cons.1 ledger.nested).1 st' inside).1
    rw [same] at above
    exact absurd above (Path.not_under_child st.path n)
  · rcases waiting with left | nothing | ⟨kind', now⟩
    · rw [left, ready] at waits
      cases waits
    · rw [nothing] at waits
      cases waits
    · rw [now] at waits
      cases waits
      exact ⟨rfl, kind', rfl, fun r among same => fresh r among (same ▸ Path.under_refl _)⟩

/-- For the next entry, the stack is brought down to what was entered above it. -/
theorem InForce.handed (inForce : s.InForce e c entered) {e' : Entry}
    (handed : (s.walk.next c.cursor).outcome = .ok (some e')) :
    (c.stack.reconcile e'.path).toList = entered.filter (·.AppliesTo e'.path) ∧ ∀ r ∈ entered, r.source ≠ e'.path := by
  obtain ⟨inner, st, outer, skipped, n, rest, open', turn, _, path, _⟩ := inForce.next_cases handed
  obtain ⟨ledger, _⟩ := inForce.resumed
  have inside : st ∈ (s.walk.resume c.cursor).2.streams := by simp [open']
  have turn : n ∈ st.pending := by simp [turn]
  rw [path]
  refine ⟨inForce.reconcile ledger inside turn, fun r among same => ?_⟩
  exact (ledger.around st inside).fresh n turn r among (same ▸ Path.under_refl _)

/-- In each state of a scan the stack holds what was entered at or above the last entry. -/
theorem inForce_of_reaches (reached : s.Reaches c entered) :
    (c = begin ∧ entered = []) ∨ ∃ e, s.InForce e c entered := by
  induction reached with
  | begin => exact .inl ⟨rfl, rfl⟩
  | @decide c c' entered _ decided ih =>
    rcases ih with ⟨rfl, rfl⟩ | ⟨e, inForce⟩
    · cases decided
      exact .inl ⟨rfl, rfl⟩
    · exact .inr ⟨e, inForce.decided decided⟩
  | @visit c c' entered e _ ready handed handled ih =>
    rcases ih with ⟨rfl, rfl⟩ | ⟨_, inForce⟩
    · exact .inr ⟨e, inForce_of_root handed handled⟩
    · exact .inr ⟨e, inForce.visited ready handed handled⟩

/-- A stack that is up to date for an entry says where the entry lies. -/
theorem revisits_reconcile (g : Gate) (stack : RedirectionStack) (e : Entry) :
    ∃ revisited, g.revisits (stack.reconcile e.path) e = .ok revisited := by
  unfold Gate.revisits
  cases top : (stack.reconcile e.path).current? with
  | none => exact ⟨false, rfl⟩
  | some r =>
    have applies := List.head?_dropWhile_not (fun r : Redirection => decide (¬ r.AppliesTo e.path)) stack.items
    rw [show (stack.items.dropWhile _).head? = some r from top] at applies
    obtain ⟨q, relocated⟩ := Option.isSome_iff_exists.1 ((r.relocate?_isSome e.path).2 (by simpa using applies))
    simp only [Redirection.relocate_eq_ok_iff.2 relocated]
    exact ⟨_, rfl⟩

/-- The visit of an entry brings the stack up to date for it. -/
theorem exists_handle (s : Scan) (c : Scanner) (e : Entry) :
    ∃ c', (s.handle c e).after = .inl c' ∧ c'.stack = c.stack.reconcile e.path := by
  obtain ⟨revisited, known⟩ := revisits_reconcile s.gate c.stack e
  cases revisited <;> simp only [handle, known] <;> exact ⟨_, rfl, rfl⟩

/-- When a scan visits an entry, it brings its stack down to the redirections of
    just the entered links above the entry, outermost first, and the current one
    is that of the innermost. Each leads from the path of a link to its target. -/
theorem stack_at_entry (fs : FileSystem) (root : Path) (options : ScanOptions) {c : Scanner}
    {entered : List Redirection} {e : Entry} (reached : (ofOptions fs root options).Reaches c entered)
    (handed : ((ofOptions fs root options).walk.next c.cursor).outcome = .ok (some e)) :
    let above := entered.filter fun r => r.AppliesTo e.path ∧ r.source ≠ e.path
    let visited := (ofOptions fs root options).handle
      { c with cursor := ((ofOptions fs root options).walk.next c.cursor).cursor } e
    (∃ c', visited.after = .inl c' ∧ c'.stack.toList = above ∧ c'.stack.current? = above.getLast?) ∧
      above.Pairwise (fun outer inner => inner.source.Under outer.source ∧ inner.source ≠ outer.source) ∧
      ∀ r ∈ entered, (∃ node, fs.lstat r.source = .ok node ∧ node.kind? = some .symbolicLink) ∧
        (fs.resolveLink r.source).target = some r.destination := by
  intro above visited
  obtain ⟨c', goes, stack⟩ := exists_handle (ofOptions fs root options)
    { c with cursor := ((ofOptions fs root options).walk.next c.cursor).cursor } e
  suffices facts : (c.stack.reconcile e.path).toList = entered.filter (·.AppliesTo e.path) ∧
      (∀ r ∈ entered, r.source ≠ e.path) ∧ (entered.filter (·.AppliesTo e.path)).Pairwise Redirection.Surrounds ∧
      ∀ r ∈ entered, (ofOptions fs root options).Entered r by
    obtain ⟨reconciled, first, chain, history⟩ := facts
    have same : above = entered.filter (·.AppliesTo e.path) :=
      List.filter_congr fun r among => by simp [first r among]
    refine ⟨⟨c', goes, ?_, ?_⟩, ?_, fun r among => ⟨(history r among).link, (history r among).leads⟩⟩
    · rw [stack, same]
      exact reconciled
    · rw [stack, same, ← reconciled, RedirectionStack.toList, List.getLast?_reverse]
      rfl
    · rw [same]
      exact chain.imp fun surrounds => ⟨surrounds.below, surrounds.proper⟩
  rcases inForce_of_reaches reached with ⟨rfl, rfl⟩ | ⟨last, inForce⟩
  · exact ⟨rfl, by simp, by simp, by simp⟩
  · obtain ⟨reconciled, first⟩ := inForce.handed handed
    exact ⟨reconciled, first, inForce.ledger.chain e.path, inForce.history⟩

/-- When `/s/k/back` is visited after `/s/k/on/h`, the link `/s/k/on` is left and
    `/s/k` is not. -/
theorem stack_at_entry_ofLinkedTree :
    ∃ c entered e, ofLinkedTree.Reaches c entered ∧
      (ofLinkedTree.walk.next c.cursor).outcome = .ok (some e) ∧ e.path = .ofText "/s/k/back".toList ∧
      c.stack.toList = [⟨.ofText "/s/k".toList, .ofText "/l".toList⟩,
        ⟨.ofText "/s/k/on".toList, .ofText "/m".toList⟩] ∧
      ∃ c', (ofLinkedTree.handle { c with cursor := (ofLinkedTree.walk.next c.cursor).cursor } e).after = .inl c' ∧
        c'.stack.toList = [⟨.ofText "/s/k".toList, .ofText "/l".toList⟩] := by
  have seen : ((ofLinkedTree.after 6).any fun state =>
      match (ofLinkedTree.walk.next state.1.cursor).outcome with
      | .ok (some e) => e.path = .ofText "/s/k/back".toList ∧
          state.1.stack.toList = [⟨.ofText "/s/k".toList, .ofText "/l".toList⟩,
            ⟨.ofText "/s/k/on".toList, .ofText "/m".toList⟩] ∧
          (state.2.filter fun r => r.AppliesTo e.path ∧ r.source ≠ e.path) =
            [⟨.ofText "/s/k".toList, .ofText "/l".toList⟩]
      | .ok none | .error _ => false) = true := by decide +kernel
  cases goes : ofLinkedTree.after 6 with
  | none => simp [goes] at seen
  | some state =>
    obtain ⟨c, entered⟩ := state
    rw [goes, Option.any_some] at seen
    split at seen
    · rename_i e handed
      obtain ⟨path, before, above⟩ := of_decide_eq_true seen
      obtain ⟨⟨c', visited, held, _⟩, _⟩ := stack_at_entry _ _ _ (reaches_after goes) handed
      exact ⟨c, entered, e, reaches_after goes, handed, path, before, c', visited, held.trans above⟩
    · cases seen
    · cases seen

end Scan
end Inventory
