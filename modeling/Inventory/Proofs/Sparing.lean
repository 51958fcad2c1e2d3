import Inventory.Proofs.Extension

namespace Inventory

namespace Node

/-- The node where no such call is set to fail. -/
def sparing (n : Node) (call : Call) : Node := { n with faults := n.faults.filter fun f => f.1 ≠ call }

theorem fault?_sparing (n : Node) (call other : Call) :
    (n.sparing call).fault? other = if other = call then none else n.fault? other := by
  unfold sparing fault?
  induction n.faults with
  | nil => simp
  | cons f rest ih =>
    obtain ⟨c, why⟩ := f
    by_cases spared : c = call
    · subst spared
      simp only [List.filter_cons, ne_eq, not_true_eq_false, decide_false, Bool.false_eq_true, if_false, ih]
      by_cases same : other = c
      · rw [if_pos same, if_pos same]
      · have differs : (other == c) = false := by simpa using same
        rw [if_neg same, if_neg same, List.lookup_cons, differs]
    · simp only [List.filter_cons, ne_eq, spared, not_false_eq_true, decide_true, if_true, List.lookup_cons, ih]
      by_cases same : other = call
      · have differs : (other == c) = false := beq_false_of_ne fun again => spared (again.symm.trans same)
        rw [if_pos same, if_pos same, differs]
      · rw [if_neg same, if_neg same]

theorem passesAs_sparing (n : Node) {call : Call} (walks : call ≠ .search) : (n.sparing call).PassesAs n :=
  ⟨rfl, rfl, by rw [fault?_sparing, if_neg walks.symm]⟩

@[simp] theorem kind?_sparing (n : Node) (call : Call) : (n.sparing call).kind? = n.kind? := rfl

@[simp] theorem isDirectory_sparing (n : Node) (call : Call) : (n.sparing call).isDirectory = n.isDirectory := rfl

end Node

namespace Table

theorem lookup_map (change : Node → Node) (t : Table) (l : Location) :
    List.lookup l (t.map fun e => (e.1, change e.2)) = (t.lookup l).map change := by
  induction t with
  | nil => rfl
  | cons e t ih =>
    rw [List.map_cons, List.lookup_cons, List.lookup_cons, ih]
    split <;> rfl

theorem hasDirectory_map {change : Node → Node} (kept : ∀ n, (change n).isDirectory = n.isDirectory) (t : Table)
    (l : Location) : hasDirectory (t.map fun e => (e.1, change e.2)) l = t.hasDirectory l := by
  unfold hasDirectory
  rw [lookup_map]
  cases t.lookup l with
  | none => rfl
  | some n => exact kept n

end Table

namespace FileSystem

/-- The same file system where no such call is set to fail. -/
def sparing (fs : FileSystem) (call : Call) : FileSystem where
  table := fs.table.map fun e => (e.1, e.2.sparing call)
  distinct := by
    rw [Table.locations, List.map_map]
    exact fs.distinct
  rooted := by
    rw [Table.hasDirectory_map fun n => n.isDirectory_sparing call]
    exact fs.rooted
  enclosed := by
    intro e inside i above
    obtain ⟨e₀, inside₀, rfl⟩ := List.mem_map.1 inside
    rw [Table.hasDirectory_map fun n => n.isDirectory_sparing call]
    exact fs.enclosed e₀ inside₀ i above
  workingDirectory := fs.workingDirectory
  grounded := fs.grounded

variable {fs : FileSystem}

theorem node?_sparing (fs : FileSystem) (call : Call) (l : Location) :
    (fs.sparing call).node? l = (fs.node? l).map (·.sparing call) :=
  Table.lookup_map (·.sparing call) fs.table l

theorem spares_sparing (fs : FileSystem) (call : Call) : (fs.sparing call).Spares call := by
  intro l node found
  rw [node?_sparing] at found
  obtain ⟨n, _, rfl⟩ := Option.map_eq_some_iff.1 found
  rw [Node.fault?_sparing, if_pos rfl]

theorem names_sparing (fs : FileSystem) (call : Call) (l : Location) : (fs.sparing call).names l = fs.names l := by
  simp only [names, sparing, List.filterMap_map]
  rfl

section Walks

variable {call : Call} (walks : call ≠ .search)

include walks

theorem extends_sparing (fs : FileSystem) : fs.Extends (fs.sparing call) where
  node := fun l n found => ⟨n.sparing call, by rw [node?_sparing, found]; rfl, n.passesAs_sparing walks⟩
  workingDirectory := rfl

theorem sparing_extends (fs : FileSystem) : (fs.sparing call).Extends fs where
  node := by
    intro l n found
    rw [node?_sparing] at found
    obtain ⟨n, here, rfl⟩ := Option.map_eq_some_iff.1 found
    obtain ⟨link, directory, search⟩ := n.passesAs_sparing walks
    exact ⟨n, here, link.symm, directory.symm, search.symm⟩
  workingDirectory := rfl

theorem locate_sparing {follow : Bool} {p : Path} {l : Location} :
    (fs.sparing call).locate follow p = .ok l ↔ fs.locate follow p = .ok l :=
  ⟨(sparing_extends walks fs).locate, (extends_sparing walks fs).locate⟩

end Walks

theorem nodeFor_sparing {call other : Call} (differs : other ≠ call) {l : Location} {node : Node} :
    (fs.sparing call).nodeFor other l = .ok node ↔ ∃ n, fs.nodeFor other l = .ok n ∧ node = n.sparing call := by
  simp only [nodeFor_eq_ok_iff, node?_sparing, Option.map_eq_some_iff]
  constructor
  · rintro ⟨⟨n, found, rfl⟩, free⟩
    rw [Node.fault?_sparing, if_neg differs] at free
    exact ⟨n, ⟨found, free⟩, rfl⟩
  · rintro ⟨n, ⟨found, free⟩, rfl⟩
    exact ⟨⟨n, found, rfl⟩, by rw [Node.fault?_sparing, if_neg differs]; exact free⟩

section Stat

theorem lstat_sparing {p : Path} {node : Node} :
    (fs.sparing .stat).lstat p = .ok node ↔ ∃ n, fs.lstat p = .ok n ∧ node = n.sparing .stat := by
  have walks : Call.stat ≠ .search := by decide
  have asks : Call.lstat ≠ .stat := by decide
  simp only [lstat_eq_ok_iff, locate_sparing walks, nodeFor_sparing asks]
  constructor
  · rintro ⟨l, named, n, there, rfl⟩
    exact ⟨n, ⟨l, named, there⟩, rfl⟩
  · rintro ⟨n, ⟨l, named, there⟩, rfl⟩
    exact ⟨l, named, n, there, rfl⟩

/-- Both say no, or both show the node. -/
theorem lstat_sparing_cases (fs : FileSystem) (p : Path) :
    (∃ e e', fs.lstat p = .error e ∧ (fs.sparing .stat).lstat p = .error e') ∨
      ∃ n, fs.lstat p = .ok n ∧ (fs.sparing .stat).lstat p = .ok (n.sparing .stat) := by
  cases asked : fs.lstat p with
  | ok n => exact .inr ⟨n, rfl, lstat_sparing.2 ⟨n, asked, rfl⟩⟩
  | error e =>
    cases asked' : (fs.sparing .stat).lstat p with
    | error e' => exact .inl ⟨e, e', rfl, rfl⟩
    | ok node =>
      obtain ⟨n, there, _⟩ := lstat_sparing.1 asked'
      rw [asked] at there
      cases there

theorem list_sparing {p : Path} {names : List Name} :
    (fs.sparing .stat).list p = .ok names ↔ fs.list p = .ok names := by
  have walks : Call.stat ≠ .search := by decide
  have opens : Call.openNode ≠ .stat := by decide
  simp only [list_eq_ok_iff, locate_sparing walks, names_sparing, nodeFor_sparing opens]
  constructor
  · rintro ⟨l, _, named, ⟨n, there, rfl⟩, directory, rfl⟩
    exact ⟨l, n, named, there, directory, rfl⟩
  · rintro ⟨l, n, named, there, directory, rfl⟩
    exact ⟨l, _, named, ⟨n, there, rfl⟩, directory, rfl⟩

theorem canAccess_iff {p : Path} :
    fs.canAccess p = true ↔ ∃ l node, fs.locate true p = .ok l ∧ fs.nodeFor .access l = .ok node := by
  unfold canAccess
  cases fs.locate true p with
  | error why => simp
  | ok l => cases known : fs.nodeFor .access l <;> simp [known, Except.toBool]

theorem canAccess_sparing (fs : FileSystem) (p : Path) : (fs.sparing .stat).canAccess p = fs.canAccess p := by
  have walks : Call.stat ≠ .search := by decide
  have asks : Call.access ≠ .stat := by decide
  rw [Bool.eq_iff_iff]
  simp only [canAccess_iff, locate_sparing walks, nodeFor_sparing asks]
  constructor
  · rintro ⟨l, _, named, n, there, rfl⟩
    exact ⟨l, n, named, there⟩
  · rintro ⟨l, n, named, there⟩
    exact ⟨l, _, named, n, there, rfl⟩

/-- What a `stat` call said before, it still says. -/
theorem stat_sparing {p : Path} {node : Node} (asked : fs.stat p = .ok node) :
    (fs.sparing .stat).stat p = .ok (node.sparing .stat) := by
  obtain ⟨l, named, there⟩ := stat_eq_ok_iff.1 asked
  obtain ⟨found, _⟩ := nodeFor_eq_ok_iff.1 there
  have found' : (fs.sparing .stat).node? l = some (node.sparing .stat) := by rw [node?_sparing, found]; rfl
  have free := spares_sparing fs .stat l _ found'
  exact stat_eq_ok_iff.2 ⟨l, (locate_sparing (by decide)).2 named, nodeFor_eq_ok_iff.2 ⟨found', free⟩⟩

end Stat
end FileSystem

namespace Canonical

/-- The same outcome, but for the reason why a path could not be asked about. -/
inductive Outcome.Like : Outcome → Outcome → Prop where
  | same (o : Outcome) : Like o o
  | failed (p : Path) (e e' : Errno) : Like (.failed p e) (.failed p e')

theorem settle_sparing (fs : FileSystem) (policy : Policy) {opened : List Path}
    {inner inner' : List Path → Path → Text → Outcome}
    (alike : ∀ opened here t, (inner opened here t).Like (inner' opened here t)) (here : Path) (pieces : List Text) :
    (settle fs policy opened inner here pieces).Like (settle (fs.sparing .stat) policy opened inner' here pieces) := by
  induction pieces generalizing here with
  | nil => exact .same _
  | cons piece rest ih =>
    simp only [settle]
    cases Component.ofText? piece with
    | none => exact ih here
    | some c =>
      cases c with
      | up => exact ih here.above
      | name n =>
        simp only
        rcases fs.lstat_sparing_cases (here.child n) with ⟨e, e', asked, asked'⟩ | ⟨node, asked, asked'⟩
        · rw [asked, asked']
          cases policy with
          | strict => exact .failed _ e e'
          | lenient => exact ih _
        · rw [asked, asked']
          have content : (node.sparing .stat).content = node.content := rfl
          simp only [content]
          cases node.content with
          | link target =>
            by_cases again : here.child n ∈ opened
            · simp only [again, if_true]
              cases policy with
              | strict => exact .failed ..
              | lenient => exact .same _
            · simp only [again, if_false]
              have inside := alike (here.child n :: opened) here target
              generalize inner (here.child n :: opened) here target = o at inside ⊢
              generalize inner' (here.child n :: opened) here target = o' at inside ⊢
              cases inside with
              | failed p e e' => exact .failed p e e'
              | same =>
                cases o with
                | settled p => exact ih p
                | looping p | failed p e | endless => exact .same _
          | directory | regular data | fifo | socket | characterDevice | blockDevice => exact ih _

theorem expand_sparing (fs : FileSystem) (policy : Policy) (depth : Nat) (opened : List Path) (here : Path) (t : Text) :
    (expand fs policy depth opened here t).Like (expand (fs.sparing .stat) policy depth opened here t) := by
  induction depth generalizing opened here t with
  | zero => exact .same _
  | succ depth ih => exact settle_sparing fs policy ih _ _

theorem outcome_sparing (fs : FileSystem) (policy : Policy) (p : Path) :
    (outcome fs policy p).Like (outcome (fs.sparing .stat) policy p) := by
  have depth : nesting (fs.sparing .stat) = nesting fs := by simp [nesting, FileSystem.sparing]
  rw [outcome, outcome, depth]
  exact settle_sparing fs policy (expand_sparing fs policy _) _ _

end Canonical

namespace FileSystem

theorem canonical_sparing (fs : FileSystem) (p : Path) : (fs.sparing .stat).canonical p = fs.canonical p := by
  have alike := Canonical.outcome_sparing fs .lenient p
  have directory : (fs.sparing .stat).workingDirectory = fs.workingDirectory := rfl
  simp only [canonical, directory]
  generalize Canonical.outcome fs .lenient p = o at alike ⊢
  generalize Canonical.outcome (fs.sparing .stat) .lenient p = o' at alike ⊢
  cases alike <;> rfl

theorem resolveLink_sparing (fs : FileSystem) (p : Path) : (fs.sparing .stat).resolveLink p = fs.resolveLink p := by
  have alike := Canonical.outcome_sparing fs .strict p
  have directory : (fs.sparing .stat).workingDirectory = fs.workingDirectory := rfl
  simp only [resolveLink, strictForm, directory, canAccess_sparing]
  generalize Canonical.outcome fs .strict p = o at alike ⊢
  generalize Canonical.outcome (fs.sparing .stat) .strict p = o' at alike ⊢
  cases alike <;> rfl

end FileSystem
end Inventory
