import Inventory.Proofs.Ledger

namespace Inventory

inductive StackCall where
  | reconcile (p : Path)
  | push (r : Redirection)
deriving DecidableEq

namespace StackCall

/-- The path that the stack is brought up to date for. -/
def path? : StackCall → Option Path
  | reconcile p => some p
  | push _ => none

/-- Calls from the first on, in which each push comes right after a `reconcile` for its source. -/
inductive Disciplined : List StackCall → Prop where
  | none : Disciplined []
  | visit {calls : List StackCall} (before : Disciplined calls) (p : Path) : Disciplined (calls ++ [reconcile p])
  | enter {calls : List StackCall} (before : Disciplined calls) (r : Redirection) :
      Disciplined (calls ++ [reconcile r.source, push r])

/-- The redirections that are pushed and apply to all paths that the stack is brought up to
    date for afterwards, in the order in which they are pushed. -/
def lasting : List StackCall → List Redirection
  | [] => []
  | reconcile _ :: later => lasting later
  | push r :: later => if ∀ p ∈ later.filterMap path?, r.AppliesTo p then r :: lasting later else lasting later

theorem append_enter (calls : List StackCall) (r : Redirection) :
    calls ++ [reconcile r.source, push r] = (calls ++ [reconcile r.source]) ++ [push r] := by
  simp

theorem Disciplined.of_prefix {calls done : List StackCall} (disciplined : Disciplined calls) (part : done <+: calls) :
    Disciplined done := by
  induction disciplined with
  | none => exact List.prefix_nil.1 part ▸ .none
  | visit before p ih =>
    rcases List.prefix_concat_iff.1 part with rfl | part
    · exact before.visit p
    · exact ih part
  | enter before r ih =>
    rw [append_enter, List.prefix_concat_iff, List.prefix_concat_iff] at part
    rcases part with rfl | rfl | part
    · exact append_enter _ r ▸ before.enter r
    · exact before.visit r.source
    · exact ih part

theorem lasting_push (calls : List StackCall) (r : Redirection) :
    lasting (calls ++ [push r]) = lasting calls ++ [r] := by
  induction calls with
  | nil => simp [lasting]
  | cons call calls ih =>
    cases call with
    | reconcile p => exact ih
    | push r' =>
      have paths : (calls ++ [push r]).filterMap path? = calls.filterMap path? := by simp [path?]
      simp only [List.cons_append, lasting, paths, ih]
      split <;> rfl

theorem lasting_reconcile (calls : List StackCall) (p : Path) :
    lasting (calls ++ [reconcile p]) = (lasting calls).filter (·.AppliesTo p) := by
  induction calls with
  | nil => rfl
  | cons call calls ih =>
    cases call with
    | reconcile q => exact ih
    | push r =>
      have paths : (calls ++ [reconcile p]).filterMap path? = calls.filterMap path? ++ [p] := by simp [path?]
      simp only [List.cons_append, lasting, paths, ih, List.forall_mem_append, List.forall_mem_singleton]
      by_cases before : ∀ q ∈ calls.filterMap path?, r.AppliesTo q
      · by_cases now : r.AppliesTo p
        · rw [if_pos ⟨before, now⟩, if_pos before, List.filter_cons_of_pos (by simpa using now)]
        · rw [if_neg (now ·.2), if_pos before, List.filter_cons_of_neg (by simpa using now)]
      · rw [if_neg (before ·.1), if_neg before]

end StackCall

namespace RedirectionStack

open StackCall

def obey (s : RedirectionStack) : StackCall → RedirectionStack
  | .reconcile p => s.reconcile p
  | .push r => s.push r

/-- The stack after calls, empty at first. -/
def ofCalls (calls : List StackCall) : RedirectionStack := calls.foldl obey .empty

/-- Each source is at or below all sources under it on the stack. -/
def Nested (s : RedirectionStack) : Prop := s.toList.Pairwise fun outer inner => inner.source.Under outer.source

theorem ofCalls_concat (calls : List StackCall) (call : StackCall) :
    ofCalls (calls ++ [call]) = (ofCalls calls).obey call := by
  simp [ofCalls]

theorem ext_toList {s s' : RedirectionStack} (same : s.toList = s'.toList) : s = s' := by
  obtain ⟨items⟩ := s
  obtain ⟨items'⟩ := s'
  exact congrArg mk (List.reverse_inj.1 same)

variable {s : RedirectionStack} {p q : Path}

theorem Nested.reconcile (nested : s.Nested) (p : Path) : (s.reconcile p).Nested := by
  rw [Nested, toList_reconcile p nested]
  exact nested.filter _

/-- What is left for the source of a redirection surrounds it. -/
theorem Nested.push (nested : s.Nested) (r : Redirection) : ((s.reconcile r.source).push r).Nested := by
  rw [Nested, toList_push, toList_reconcile _ nested, List.pairwise_append]
  refine ⟨nested.filter _, List.pairwise_singleton .., fun outer among inner here => ?_⟩
  rw [List.mem_singleton.1 here]
  exact of_decide_eq_true (List.mem_filter.1 among).2

/-- What applies to a path above applies to the path. -/
theorem Nested.reconcile_reconcile (nested : s.Nested) (under : p.Under q) :
    (s.reconcile q).reconcile p = s.reconcile q := by
  apply ext_toList
  rw [toList_reconcile p (nested.reconcile q), toList_reconcile q nested, List.filter_filter]
  refine List.filter_congr fun r _ => ?_
  have further : r.AppliesTo q → r.AppliesTo p := fun applies => under.trans applies
  simpa using further

/-- The redirection on top is the last one, and no source is longer than its source. -/
theorem Nested.current? (nested : s.Nested) {r : Redirection} (top : s.current? = some r) :
    ∃ below, s.toList = below ++ [r] ∧ ∀ x ∈ below, x.source.parts.length ≤ r.source.parts.length := by
  rw [RedirectionStack.current?, ← List.getLast?_reverse] at top
  obtain ⟨below, whole⟩ := List.getLast?_eq_some_iff.1 top
  rw [Nested, toList, whole, List.pairwise_append] at nested
  exact ⟨below, whole, fun x among => (nested.2.2 x among r (by simp)).2.length_le⟩

theorem nested_ofCalls {calls : List StackCall} (disciplined : Disciplined calls) : (ofCalls calls).Nested := by
  induction disciplined with
  | none => exact .nil
  | visit _ p ih =>
    rw [ofCalls_concat]
    exact ih.reconcile p
  | enter _ r ih =>
    rw [append_enter, ofCalls_concat, ofCalls_concat]
    exact ih.push r

theorem toList_ofCalls {calls : List StackCall} (disciplined : Disciplined calls) :
    (ofCalls calls).toList = lasting calls := by
  induction disciplined with
  | none => rfl
  | visit before p ih =>
    rw [ofCalls_concat, lasting_reconcile, ← ih]
    exact toList_reconcile p (nested_ofCalls before)
  | enter before r ih =>
    rw [append_enter, ofCalls_concat, ofCalls_concat, lasting_push, lasting_reconcile, ← ih]
    exact (toList_push ..).trans (congrArg (· ++ [r]) (toList_reconcile r.source (nested_ofCalls before)))

/-- What a stack holds that is used with discipline. After any of the calls its sources lie
    inside one another. To bring it up to date is to keep what applies, is done once for all,
    and is done for a path with what is done for a path above it. It holds what is lasting in
    the calls, and the redirection on top is the last of these, with no longer source among them. -/
theorem stack_of_calls {calls : List StackCall} (disciplined : Disciplined calls) :
    let s := ofCalls calls
    (∀ done, done <+: calls → (ofCalls done).Nested) ∧
      (∀ p, (s.reconcile p).toList = s.toList.filter (·.AppliesTo p)) ∧
      (∀ p, (s.reconcile p).reconcile p = s.reconcile p) ∧
      (∀ p q : Path, p.Under q → (s.reconcile q).reconcile p = s.reconcile q) ∧
      s.toList = lasting calls ∧
      (s.current? = none ↔ lasting calls = []) ∧
      ∀ r, s.current? = some r → ∃ below, lasting calls = below ++ [r] ∧
        ∀ x ∈ below, x.source.parts.length ≤ r.source.parts.length := by
  intro s
  have nested : s.Nested := nested_ofCalls disciplined
  have holds : s.toList = lasting calls := toList_ofCalls disciplined
  refine ⟨?_, fun p => toList_reconcile p nested, fun p => nested.reconcile_reconcile (Path.under_refl p),
    fun p q under => nested.reconcile_reconcile under, holds, ?_, fun r top => holds ▸ nested.current? top⟩
  · exact fun done part => nested_ofCalls (disciplined.of_prefix part)
  · rw [← holds, current?, List.head?_eq_none_iff, toList, List.reverse_eq_nil_iff]

/-- A directory is entered twice through one path; a link below is entered and left again. -/
theorem stack_of_calls_twice :
    let redirection (source destination : String) : Redirection :=
      ⟨.ofText source.toList, .ofText destination.toList⟩
    let first := redirection "/a" "/t"
    let second := redirection "/a" "/u"
    let inner := redirection "/a/b" "/v"
    let calls : List StackCall := [.reconcile first.source, .push first, .reconcile second.source, .push second,
      .reconcile inner.source, .push inner, .reconcile (.ofText "/a/bc".toList)]
    (ofCalls calls).toList = [first, second] ∧ (ofCalls calls).current? = some second := by
  intro redirection first second inner calls
  have disciplined : Disciplined calls := .visit (.enter (.enter (.enter .none first) second) inner) _
  obtain ⟨_, _, _, _, holds, _⟩ := stack_of_calls disciplined
  exact ⟨by rw [holds]; decide +kernel, by decide +kernel⟩

end RedirectionStack
end Inventory
