import Inventory.Proofs.Halves

namespace Inventory

/-- One redirection goes on inside of another: its source is properly below, and
    its destination is not above the other destination. -/
structure Redirection.Surrounds (outer inner : Redirection) : Prop where
  below : inner.source.Under outer.source
  proper : inner.source ≠ outer.source
  apart : ¬ outer.destination.Under inner.destination

namespace RedirectionStack

/-- On a stack of nested sources, those that apply to a path are at the bottom. -/
theorem dropWhile_eq_filter {items : List Redirection} (p : Path)
    (nested : items.Pairwise fun inner outer => inner.source.Under outer.source) :
    items.dropWhile (fun r => ¬ r.AppliesTo p) = items.filter (·.AppliesTo p) := by
  induction items with
  | nil => rfl
  | cons r outer ih =>
    obtain ⟨above, nested⟩ := List.pairwise_cons.1 nested
    by_cases applies : r.AppliesTo p
    · have all : ∀ q ∈ outer, q.AppliesTo p := fun q inside => Path.Under.trans applies (above q inside)
      rw [List.dropWhile_cons_of_neg (by simpa using applies), List.filter_cons_of_pos (by simpa using applies),
        List.filter_eq_self.2 (by simpa using all)]
    · rw [List.dropWhile_cons_of_pos (by simpa using applies), List.filter_cons_of_neg (by simpa using applies)]
      exact ih nested

theorem toList_reconcile {stack : RedirectionStack} (p : Path)
    (nested : stack.toList.Pairwise fun outer inner => inner.source.Under outer.source) :
    (stack.reconcile p).toList = stack.toList.filter (·.AppliesTo p) := by
  have reversed : stack.items.Pairwise fun inner outer => inner.source.Under outer.source := by
    simpa [toList, List.pairwise_reverse] using nested
  rw [toList, reconcile, dropWhile_eq_filter p reversed, toList, List.filter_reverse]

end RedirectionStack

namespace Walk

variable {w : Walk}

theorem visit_eq_entry {directory : Path} {depth : Nat} {n : Name} {e : Entry}
    (handed : w.visit directory depth n = .entry e) :
    ∃ node kind below, w.system.lstat (directory.child n) = .ok node ∧ node.kind? = some kind ∧
      (directory.child n).relativeTo? w.root = some below ∧ w.excludes below (kind = .directory) = false ∧
      e = .ofNode (directory.child n) kind node depth := by
  unfold visit at handed
  simp only at handed
  split at handed
  · cases handed
  · rename_i node asked
    split at handed
    · cases handed
    · rename_i kind known
      split at handed
      · cases handed
      · rename_i below relative
        split at handed
        · cases handed
        · rename_i kept
          cases handed
          exact ⟨node, kind, below, asked, known, relative, by simpa using kept, rfl⟩

/-- The names of a directory that come before the first entry are passed over. -/
theorem pullFrom_eq_some {directory : Path} {depth : Nat} {names rest : List Name} {e : Entry}
    (found : (w.pullFrom directory depth names).2 = .ok (some (e, rest))) :
    ∃ skipped n, names = skipped ++ n :: rest ∧ w.visit directory depth n = .entry e := by
  induction names with
  | nil => cases found
  | cons n names ih =>
    unfold pullFrom at found
    split at found
    · rename_i handed
      cases found
      exact ⟨[], n, rfl, handed⟩
    · cases found
    · obtain ⟨skipped, m, rfl, handed⟩ := ih found
      exact ⟨n :: skipped, m, rfl, handed⟩

/-- The next entry is a child of an open directory; those inside of it are used up. -/
theorem pull_eq_some {streams later : List Stream} {e : Entry} (found : (w.pull streams).2 = .ok (some (e, later))) :
    ∃ inner st outer skipped n rest, streams = inner ++ st :: outer ∧ st.pending = skipped ++ n :: rest ∧
      w.visit st.path st.depth n = .entry e ∧ later = { st with pending := rest } :: outer := by
  induction streams with
  | nil => cases found
  | cons st outer ih =>
    unfold pull at found
    split at found
    · rename_i notices e' rest pulled
      cases found
      have front : (w.pullFrom st.path st.depth st.pending).2 = .ok (some (e, rest)) := by rw [pulled]
      obtain ⟨skipped, n, turn, handed⟩ := pullFrom_eq_some front
      exact ⟨[], st, outer, skipped, n, rest, rfl, turn, handed, rfl⟩
    · cases found
    · obtain ⟨inner, st', outer', skipped, n, rest, rfl, turn, handed, same⟩ := ih found
      exact ⟨st :: inner, st', outer', skipped, n, rest, rfl, turn, handed, same⟩

end Walk

theorem FileSystem.names_of_list {fs : FileSystem} {p : Path} {names : List Name} (reads : fs.list p = .ok names) :
    names.Nodup ∧ names.length ≤ fs.table.length := by
  obtain ⟨l, _, _, _, _, rfl⟩ := list_eq_ok_iff.1 reads
  exact ⟨nodup_names l, length_names_le l⟩

namespace Walk

variable {w : Walk}

theorem openStream_eq_ok_iff {p : Path} {depth : Nat} {st : Stream} :
    w.openStream p depth = .ok st ↔ ∃ listed, w.system.list p = .ok listed ∧ st = ⟨p, depth, w.ordered listed⟩ := by
  unfold openStream
  cases w.system.list p <;> simp [bind, Except.bind, eq_comm]

theorem pending_of_openStream {p : Path} {depth : Nat} {st : Stream} (opened : w.openStream p depth = .ok st) :
    st.pending.Nodup ∧ st.pending.length ≤ w.system.table.length := by
  obtain ⟨listed, reads, rfl⟩ := openStream_eq_ok_iff.1 opened
  obtain ⟨distinct, few⟩ := FileSystem.names_of_list reads
  have perm := Scan.ordered_perm w listed
  exact ⟨perm.nodup_iff.2 distinct, perm.length_eq ▸ few⟩

/-- Going below an entry opens its directory, or does nothing. -/
theorem descend_cases (w : Walk) (c : Cursor) (e : Entry) :
    (w.descend c e).2 = c ∨
      ∃ st, w.openStream e.path (e.depth + 1) = .ok st ∧ (w.descend c e).2 = { c with streams := st :: c.streams } := by
  unfold descend
  cases opened : w.openStream e.path (e.depth + 1) with
  | error why => exact .inl rfl
  | ok st => exact .inr ⟨st, rfl, rfl⟩

/-- The root is handed out with its directory open if it is one. -/
theorem enterRoot_eq_ok {e : Entry} {streams : List Stream} (enters : w.enterRoot = .ok (e, streams)) :
    ∃ node kind, w.system.lstat w.root = .ok node ∧ node.kind? = some kind ∧ e = .ofNode w.root kind node 0 ∧
      (kind = .directory ∧ (∃ st, w.openStream w.root 1 = .ok st ∧ streams = [st]) ∨
        kind ≠ .directory ∧ streams = []) := by
  unfold enterRoot at enters
  split at enters
  · cases enters
  · rename_i node asked
    split at enters
    · cases enters
    · rename_i kind known
      simp only at enters
      by_cases directory : kind = .directory
      · rw [if_pos directory] at enters
        split at enters
        · cases enters
        · rename_i st opened
          cases enters
          exact ⟨node, kind, asked, known, rfl, .inl ⟨directory, st, opened, rfl⟩⟩
      · rw [if_neg directory] at enters
        cases enters
        exact ⟨node, kind, asked, known, rfl, .inr ⟨directory, rfl⟩⟩

end Walk

/-- An open directory that the walk is at or below, with what was entered so
    far: nothing of the children whose turn is still to come. -/
structure Stream.Around (root p : Path) (entered : List Redirection) (st : Stream) : Prop where
  distinct : st.pending.Nodup
  below : st.path.Under root
  above : p.Under st.path
  ahead : ∀ n ∈ st.pending, ¬ p.Under (st.path.child n)
  fresh : ∀ n ∈ st.pending, ∀ r ∈ entered, ¬ r.source.Under (st.path.child n)

/-- The open directories, innermost first, and all redirections that were made
    up to a visit of a path: of those at or above any path each surrounds the
    later ones, and nothing was entered yet below the path. -/
structure Ledger (root p : Path) (streams : List Stream) (entered : List Redirection) : Prop where
  around : ∀ st ∈ streams, st.Around root p entered
  nested : streams.Pairwise fun inner outer => inner.path.Under outer.path ∧ inner.path ≠ outer.path
  leaf : ∀ r ∈ entered, r.source.Under p → r.source = p
  chain : ∀ q, (entered.filter (·.AppliesTo q)).Pairwise Redirection.Surrounds

namespace Ledger

variable {root p : Path} {streams : List Stream} {entered : List Redirection}

theorem start (root : Path) : Ledger root root [] [] where
  around := by simp
  nested := .nil
  leaf := by simp
  chain := by simp

/-- A directory is opened where the walk is. -/
theorem opening (ledger : Ledger root p streams entered) (below : p.Under root) {names : List Name}
    (distinct : names.Nodup) (closed : ∀ st ∈ streams, st.path ≠ p) (depth : Nat) :
    Ledger root p (⟨p, depth, names⟩ :: streams) entered where
  around st inside := by
    rcases List.mem_cons.1 inside with rfl | inside
    · refine ⟨distinct, below, Path.under_refl p, fun n _ => Path.not_under_child p n, fun n _ r among under => ?_⟩
      have here := ledger.leaf r among (under.trans (Path.child_under p n))
      exact Path.not_under_child p n (here ▸ under)
    · exact ledger.around st inside
  nested := List.pairwise_cons.2
    ⟨fun st inside => ⟨(ledger.around st inside).above, (closed st inside).symm⟩, ledger.nested⟩
  leaf := ledger.leaf
  chain := ledger.chain

/-- The link where the walk is, is entered. -/
theorem entering (ledger : Ledger root p streams entered) {target : Path}
    (first : ∀ r ∈ entered, r.source ≠ p)
    (apart : ∀ r ∈ entered, r.AppliesTo p → ¬ r.destination.Under target) :
    Ledger root p streams (entered ++ [⟨p, target⟩]) where
  around st inside := by
    obtain ⟨distinct, below, above, ahead, fresh⟩ := ledger.around st inside
    refine ⟨distinct, below, above, ahead, fun n later r among => ?_⟩
    rcases List.mem_append.1 among with before | now
    · exact fresh n later r before
    · rw [List.mem_singleton.1 now]
      exact ahead n later
  nested := ledger.nested
  leaf r among under := by
    rcases List.mem_append.1 among with before | now
    · exact ledger.leaf r before under
    · rw [List.mem_singleton.1 now]
  chain q := by
    rw [List.filter_append, List.pairwise_append]
    refine ⟨ledger.chain q, List.Pairwise.filter _ (List.pairwise_singleton ..), fun r among r' now => ?_⟩
    obtain ⟨before, applies⟩ := List.mem_filter.1 among
    obtain ⟨here, applies'⟩ := List.mem_filter.1 now
    obtain rfl := List.mem_singleton.1 here
    replace applies : q.Under r.source := of_decide_eq_true applies
    replace applies' : q.Under p := of_decide_eq_true applies'
    -- Of the two sources above one path, that of the earlier link is the upper one.
    have upper : p.Under r.source := by
      rcases Path.Under.comparable applies applies' with lower | upper
      · exact absurd (ledger.leaf r before lower) (first r before)
      · exact upper
    exact ⟨upper, (first r before).symm, apart r before upper⟩

/-- The next entry is a child of an open directory, and those inside of it are closed. -/
theorem visiting {inner outer : List Stream} {st : Stream} {skipped rest : List Name} {n : Name}
    (ledger : Ledger root p (inner ++ st :: outer) entered) (turn : st.pending = skipped ++ n :: rest) :
    Ledger root (st.path.child n) ({ st with pending := rest } :: outer) entered := by
  obtain ⟨around, nested, _, chain⟩ := ledger
  have outside := (List.pairwise_cons.1 (List.pairwise_append.1 nested).2.1)
  have here := around st (by simp)
  have tail : ∀ m ∈ rest, m ∈ st.pending := fun m later => by simp [turn, later]
  have distinct := (List.nodup_append.1 (turn ▸ here.distinct)).2.1
  refine ⟨fun st' inside => ?_, ?_, fun r among under => ?_, chain⟩
  · rcases List.mem_cons.1 inside with rfl | inside
    · refine ⟨(List.nodup_cons.1 distinct).2, here.below, Path.child_under _ n, fun m later under => ?_,
        fun m later => here.fresh m (tail m later)⟩
      have same : n = m := Path.eq_of_child_under (Path.under_refl _) under
      exact (List.nodup_cons.1 distinct).1 (same ▸ later)
    · obtain ⟨under, proper⟩ := outside.1 st' inside
      obtain ⟨distinct', below', above', ahead', fresh'⟩ := around st' (by simp [inside])
      refine ⟨distinct', below', (Path.child_under _ n).trans under, fun m later further => ?_, fresh'⟩
      rcases Path.under_child_cases further with same | further
      · exact proper (Path.child_left_cancel same.symm)
      · exact ahead' m later (here.above.trans further)
  · exact List.pairwise_cons.2 outside
  · exact absurd under (here.fresh n (by simp [turn]) r among)

end Ledger

end Inventory
