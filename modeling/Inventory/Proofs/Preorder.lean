import Inventory.Proofs.Grounding
import Inventory.Proofs.Ledger
import Mathlib.Order.Lattice.Nat

/-!
If it is settled which entries are gone into, the entries of a walk are those of a tree in
preorder (`Walk.preorderFrom`). Links may lead upwards, so the tree is not as deep as the
file system. But it is finite: the system replaces no more than so many links on a path,
and between two of them the path goes down from directory to directory
(`FileSystem.headroom_child_lt`).
-/
namespace Inventory

namespace FileSystem

variable {fs : FileSystem} {p : Path}

/-- How many links the system replaces on a path that leads somewhere. -/
noncomputable def linksOn (fs : FileSystem) (p : Path) : Nat :=
  sInf {links | ∃ w l, fs.startOf p = .ok w ∧ fs.Leads w p.steps links l}

theorem linksOn_eq {w l : Location} {links : Nat} (starts : fs.startOf p = .ok w) (walk : fs.Leads w p.steps links l) :
    fs.linksOn p = links := by
  have only : {links | ∃ w l, fs.startOf p = .ok w ∧ fs.Leads w p.steps links l} = {links} := by
    ext links'
    refine ⟨fun ⟨w', l', starts', walk'⟩ => ?_, fun same => ⟨w, l, starts, same ▸ walk⟩⟩
    obtain rfl := Except.ok.inj (starts.symm.trans starts')
    exact (walk'.unique walk).1
  rw [linksOn, only, csInf_singleton]

/-- A bound for the names that a path can be continued with, through links too. A path
    that leads nowhere cannot be continued. -/
noncomputable def headroom (fs : FileSystem) (p : Path) : Nat :=
  match fs.locate true p with
  | .error _ => 0
  | .ok l => (linkLimit - fs.linksOn p) * (fs.table.length + 1) + (fs.table.length - l.length) + 1

/-- A directory takes up one name, and a link one link. -/
theorem headroom_child_lt {n : Name} {node : Node} (asked : fs.lstat (p.child n) = .ok node) :
    fs.headroom (p.child n) < fs.headroom p := by
  obtain ⟨l, named, there⟩ := lstat_eq_ok_iff.1 asked
  have found := (nodeFor_eq_ok_iff.1 there).1
  obtain ⟨d, above, _, rfl⟩ := locate_child named
  obtain ⟨w, links, starts, _, walk⟩ := leads_of_locate above
  simp only [headroom, above, linksOn_eq starts walk]
  cases below : fs.locate true (p.child n) with
  | error _ => exact Nat.succ_pos _
  | ok l' =>
    obtain ⟨w', links', starts', few, walk'⟩ := leads_of_locate below
    simp only [linksOn_eq starts' walk']
    obtain rfl := Except.ok.inj (starts'.symm.trans starts)
    rw [Path.steps_child] at walk'
    obtain ⟨first, middle, second, front, back, rfl⟩ := walk'.split
    obtain ⟨rfl, rfl⟩ := front.unique walk
    cases content : node.linkTarget? with
    | none =>
      have deep := length_lt_of_node? found
      cases back.of_plain found content
      simp only [List.length_append, List.length_singleton, Nat.add_zero] at deep ⊢
      omega
    | some target =>
      -- However deep the link leads, one link less is left, and that weighs more than any depth.
      obtain ⟨_, inner, _, rest, _, _, _, rfl⟩ := back.of_link found content
      have fewer : linkLimit - (first + (inner + rest + 1)) + 1 ≤ linkLimit - first := by omega
      have room := Nat.mul_le_mul_right (fs.table.length + 1) fewer
      rw [Nat.add_mul] at room
      omega

end FileSystem

namespace Walk

variable {w : Walk} {e c : Entry} {p : Path} {depth : Nat}

/-- The node on a path as an entry, if it can be asked about, is of a kind that is
    reported, and is not excluded. -/
def seenAt? (w : Walk) (p : Path) (depth : Nat) : Option Entry :=
  match w.system.lstat p with
  | .error _ => none
  | .ok node =>
    match node.content.kind? with
    | none => none
    | some kind =>
      if w.Omits p kind then none else some ⟨p, kind, node.size, node.times.stamps, depth⟩

/-- The root as an entry. A directory must be one that can be opened. -/
def rootEntry? (w : Walk) : Option Entry :=
  match w.system.lstat w.root with
  | .error _ => none
  | .ok node =>
    match node.content.kind?, w.system.list w.root with
    | none, _ => none
    | some .directory, .error _ => none
    | some kind, _ => some ⟨w.root, kind, node.size, node.times.stamps, 0⟩

/-- The entries in a directory, or in that which a link leads to: sorted by name, or as they
    are read. -/
def children (w : Walk) (e : Entry) : List Entry :=
  match w.system.list e.path with
  | .error _ => []
  | .ok names => (Name.inTurn w.sorted names).filterMap fun n => w.seenAt? (e.path.child n) (e.depth + 1)

theorem seenAt?_eq (w : Walk) (p : Path) (depth : Nat) :
    w.seenAt? p depth = match w.system.lstat p with
      | .error _ => none
      | .ok node =>
        match node.kind? with
        | none => none
        | some kind =>
          if w.Omits p kind then none else some (.ofNode p kind node depth) := by
  simp only [seenAt?, Node.kind?_eq, Entry.ofNode]

theorem rootEntry?_eq (w : Walk) :
    w.rootEntry? = match w.enterRoot with
      | .error _ => none
      | .ok (e, _) => some e := by
  unfold rootEntry? enterRoot openStream
  cases w.system.lstat w.root with
  | error _ => rfl
  | ok node =>
    simp only [Node.kind?_eq]
    cases node.content.kind? with
    | none => rfl
    | some kind => cases kind <;> cases w.system.list w.root <;> rfl

theorem seenAt?_eq_some (found : w.seenAt? p depth = some e) :
    ∃ node kind, w.system.lstat p = .ok node ∧ node.kind? = some kind ∧ e = .ofNode p kind node depth := by
  rw [seenAt?_eq] at found
  split at found
  · cases found
  · rename_i node asked
    split at found
    · cases found
    · rename_i kind known
      split at found
      · cases found
      · exact ⟨node, kind, asked, known, (Option.some.inj found).symm⟩

/-- Below the root a visit gives the entry or passes over the node. -/
theorem visit_eq {directory : Path} (below : directory.Under w.root) (depth : Nat) (n : Name) :
    match w.seenAt? (directory.child n) depth with
    | some e => w.visit directory depth n = .entry e
    | none => ∃ why, w.visit directory depth n = .passedOver why := by
  obtain ⟨rest, relative⟩ := Option.isSome_iff_exists.1
    ((Path.relativeTo?_isSome _ _).2 ((Path.child_under directory n).trans below))
  cases asked : w.system.lstat (directory.child n) with
  | error _ => simp [seenAt?_eq, visit, asked]
  | ok node =>
    cases known : node.kind? with
    | none => simp [seenAt?_eq, visit, asked, known]
    | some kind =>
      have omits : w.Omits (directory.child n) kind ↔ _ := omits_child_iff below relative
      cases cut : w.excludes rest (kind = .directory) <;> simp [seenAt?_eq, visit, asked, known, relative, omits, cut]

theorem exists_of_mem_children (inside : c ∈ w.children e) :
    ∃ n node, w.system.lstat (e.path.child n) = .ok node ∧ c.path = e.path.child n ∧ c.depth = e.depth + 1 := by
  unfold children at inside
  split at inside
  · simp at inside
  · obtain ⟨n, _, found⟩ := List.mem_filterMap.1 inside
    obtain ⟨node, kind, asked, _, rfl⟩ := seenAt?_eq_some found
    exact ⟨n, node, asked, rfl, rfl⟩

/-- Nothing is below two children. -/
theorem children_apart (w : Walk) (e : Entry) :
    (w.children e).Pairwise fun a b => ∀ q : Path, q.Under a.path → ¬ q.Under b.path := by
  unfold children
  split
  · exact .nil
  · rename_i names reads
    have distinct : (Name.inTurn w.sorted names).Nodup :=
      (Name.inTurn_perm w.sorted names).nodup_iff.2 (FileSystem.names_of_list reads).1
    refine List.Pairwise.filterMap _ (fun m n different a left b right q under under' => different ?_) distinct
    obtain ⟨_, _, _, _, rfl⟩ := seenAt?_eq_some left
    obtain ⟨_, _, _, _, rfl⟩ := seenAt?_eq_some right
    exact Path.eq_of_child_under under under'

theorem headroom_lt_of_child (inside : c ∈ w.children e) :
    w.system.headroom c.path < w.system.headroom e.path := by
  obtain ⟨n, node, asked, path, _⟩ := exists_of_mem_children inside
  exact path ▸ FileSystem.headroom_child_lt asked

/-- An entry and all that is below it, if these entries are gone into. -/
def preorderFrom (w : Walk) (goesOn : Entry → Bool) (e : Entry) : List Entry :=
  e :: if goesOn e then (w.children e).attach.flatMap fun c => w.preorderFrom goesOn c.1 else []
termination_by w.system.headroom e.path
decreasing_by exact headroom_lt_of_child c.2

def below (w : Walk) (goesOn : Entry → Bool) (e : Entry) : List Entry :=
  if goesOn e then (w.children e).flatMap (w.preorderFrom goesOn) else []

/-- The entries of a walk, if these are gone into. -/
def preorder (w : Walk) (goesOn : Entry → Bool) : List Entry :=
  match w.rootEntry? with
  | none => []
  | some e => w.preorderFrom goesOn e

theorem preorder_eq (w : Walk) (goesOn : Entry → Bool) :
    w.preorder goesOn = match w.enterRoot with
      | .error _ => []
      | .ok (e, _) => w.preorderFrom goesOn e := by
  rw [preorder, rootEntry?_eq]
  cases w.enterRoot <;> rfl

theorem preorderFrom_eq (goesOn : Entry → Bool) (e : Entry) : w.preorderFrom goesOn e = e :: w.below goesOn e := by
  rw [preorderFrom, below]
  simp

theorem child_induction (w : Walk) {motive : Entry → Prop}
    (step : ∀ e, (∀ c ∈ w.children e, motive c) → motive e) (e : Entry) : motive e :=
  step e fun c _ => child_induction w step c
termination_by w.system.headroom e.path
decreasing_by exact headroom_lt_of_child ‹_›

variable {goesOn : Entry → Bool} {x : Entry}

theorem mem_below_iff : x ∈ w.below goesOn e ↔ goesOn e = true ∧ ∃ c ∈ w.children e, x ∈ w.preorderFrom goesOn c := by
  unfold below
  split <;> simp_all

theorem under_of_mem_preorderFrom (inside : x ∈ w.preorderFrom goesOn e) : x.path.Under e.path := by
  induction e using child_induction w with
  | step e ih =>
    rw [preorderFrom_eq, List.mem_cons, mem_below_iff] at inside
    rcases inside with rfl | ⟨_, c, child, inside⟩
    · exact Path.under_refl _
    · obtain ⟨n, _, _, path, _⟩ := exists_of_mem_children child
      exact (ih c child inside).trans (path ▸ Path.child_under e.path n)

theorem under_of_mem_below (inside : x ∈ w.below goesOn e) : x.path.Under e.path ∧ ¬ e.path.Under x.path := by
  obtain ⟨_, c, child, inside⟩ := mem_below_iff.1 inside
  obtain ⟨n, _, _, path, _⟩ := exists_of_mem_children child
  have under := path ▸ under_of_mem_preorderFrom inside
  exact ⟨under.trans (Path.child_under _ n), fun above => Path.not_under_child _ n (above.trans under)⟩

theorem depth_of_mem_preorderFrom (inside : x ∈ w.preorderFrom goesOn e) :
    x.depth + e.path.parts.length = e.depth + x.path.parts.length := by
  induction e using child_induction w with
  | step e ih =>
    rw [preorderFrom_eq, List.mem_cons, mem_below_iff] at inside
    rcases inside with rfl | ⟨_, c, child, inside⟩
    · rfl
    · obtain ⟨n, _, _, path, depth⟩ := exists_of_mem_children child
      have deeper := ih c child inside
      rw [path, depth, Path.child, List.length_append, List.length_singleton] at deeper
      omega

/-- Where lists are put one after the other, an element stands in one of them. -/
theorem exists_of_flatMap_eq {α β : Type} {f : α → List β} {l : List α} {before after : List β} {x : β}
    (split : l.flatMap f = before ++ x :: after) :
    ∃ first a later front back, l = first ++ a :: later ∧ f a = front ++ x :: back ∧
      before = first.flatMap f ++ front ∧ after = back ++ later.flatMap f := by
  induction l generalizing before with
  | nil => simp at split
  | cons a l ih =>
    have further {front : List β} (rest : l.flatMap f = front ++ x :: after) (whole : before = f a ++ front) :
        ∃ first b later front back, a :: l = first ++ b :: later ∧ f b = front ++ x :: back ∧
          before = first.flatMap f ++ front ∧ after = back ++ later.flatMap f := by
      obtain ⟨first, b, later, front, back, rfl, here, rfl, rfl⟩ := ih rest
      exact ⟨a :: first, b, later, front, back, rfl, here, by simp [whole], rfl⟩
    rw [List.flatMap_cons, List.append_eq_append_iff] at split
    rcases split with ⟨front, whole, rest⟩ | ⟨back, here, rest⟩
    · exact further rest whole
    · cases back with
      | nil =>
        have rest : l.flatMap f = [] ++ x :: after := rest.symm
        exact further rest (by simpa using here.symm)
      | cons y back =>
        obtain ⟨rfl, rfl⟩ := List.cons.inj rest
        exact ⟨[], a, l, before, back, rfl, here, rfl, rfl⟩

/-- At each entry the preorder falls apart: what is below follows at once, nothing else is
    under the entry, and the entry is the first one or a child of one before that is gone into. -/
theorem preorderFrom_split {before after : List Entry} (split : w.preorderFrom goesOn e = before ++ x :: after) :
    (before = [] ∧ x = e ∨ ∃ u ∈ before, goesOn u = true ∧ x ∈ w.children u) ∧
      ∃ rest, after = w.below goesOn x ++ rest ∧ ∀ u ∈ before ++ rest, ¬ u.path.Under x.path := by
  induction e using child_induction w generalizing before after with
  | step e ih =>
    rw [preorderFrom_eq] at split
    cases before with
    | nil =>
      obtain ⟨rfl, rfl⟩ := List.cons.inj split
      exact ⟨.inl ⟨rfl, rfl⟩, [], by simp⟩
    | cons u before =>
      obtain ⟨rfl, tail⟩ := List.cons.inj split
      have inside : x ∈ w.below goesOn e := tail ▸ List.mem_append_right _ List.mem_cons_self
      have goes := (mem_below_iff.1 inside).1
      rw [below, if_pos goes] at tail
      obtain ⟨first, c, later, front, back, children, here, rfl, rfl⟩ := exists_of_flatMap_eq tail
      have child : c ∈ w.children e := children ▸ List.mem_append_right _ List.mem_cons_self
      obtain ⟨parent, rest, rfl, apart⟩ := ih c child here
      have among : x ∈ w.preorderFrom goesOn c := here ▸ List.mem_append_right _ List.mem_cons_self
      have under := under_of_mem_preorderFrom among
      refine ⟨.inr ?_, rest ++ later.flatMap (w.preorderFrom goesOn), by simp, fun u among => ?_⟩
      · rcases parent with ⟨_, rfl⟩ | ⟨u, among, goes', child'⟩
        · exact ⟨e, by simp, goes, child⟩
        · exact ⟨u, by simp [among], goes', child'⟩
      · have siblings := children ▸ w.children_apart e
        rw [List.pairwise_append, List.pairwise_cons] at siblings
        simp only [List.mem_append, List.mem_cons, List.mem_flatMap] at among
        rcases among with (rfl | ⟨b, earlier, among⟩ | among) | among | ⟨b, later, among⟩
        · exact (under_of_mem_below inside).2
        · exact fun above => siblings.2.2 b earlier c (by simp) _ (under_of_mem_preorderFrom among) (above.trans under)
        · exact apart u (List.mem_append_left _ among)
        · exact apart u (List.mem_append_right _ among)
        · exact fun above => siblings.2.1.1 b later _ (above.trans under) (under_of_mem_preorderFrom among)

/-- Entries as a walk visits them: none twice, each after the one above it and just before
    all that is below it, and as deep as it lies below the root. -/
structure Laid (root : Path) (entries : List Entry) : Prop where
  distinct : (entries.map Entry.path).Nodup
  above : ∀ before e after, entries = before ++ e :: after → e.path ≠ root → ∃ u ∈ before, u.path = e.path.parent
  together : ∀ before e after, entries = before ++ e :: after → ∃ block rest, after = block ++ rest ∧
    (∀ u ∈ block, u.path.Under e.path) ∧ ∀ u ∈ before ++ rest, ¬ u.path.Under e.path
  depth : ∀ e ∈ entries, ∃ below, e.path.relativeTo? root = some below ∧ below.parts.length = e.depth

theorem nodup_preorderFrom (w : Walk) (goesOn : Entry → Bool) (e : Entry) :
    ((w.preorderFrom goesOn e).map Entry.path).Nodup := by
  rw [List.Nodup, List.pairwise_map, List.pairwise_iff_forall_sublist]
  intro a b sub same
  obtain ⟨front, back, split, earlier, later⟩ := List.cons_sublist_iff.1 sub
  obtain ⟨first, last, rfl⟩ := List.append_of_mem (List.singleton_sublist.1 later)
  rw [← List.append_assoc] at split
  obtain ⟨_, rest, _, apart⟩ := preorderFrom_split split
  exact apart a (by simp [earlier]) (same ▸ Path.under_refl _)

theorem laid_preorderFrom (goesOn : Entry → Bool) (path : e.path = p) (top : e.depth = 0) :
    Laid p (w.preorderFrom goesOn e) where
  distinct := nodup_preorderFrom w goesOn e
  above before x after split other := by
    obtain ⟨⟨_, rfl⟩ | ⟨u, among, _, child⟩, _⟩ := preorderFrom_split split
    · exact absurd path other
    · obtain ⟨n, _, _, path, _⟩ := exists_of_mem_children child
      exact ⟨u, among, by rw [path, Path.parent_child]⟩
  together before x after split := by
    obtain ⟨_, rest, rfl, apart⟩ := preorderFrom_split split
    exact ⟨_, rest, rfl, fun u inside => (under_of_mem_below inside).1, apart⟩
  depth x inside := by
    have under := path ▸ under_of_mem_preorderFrom inside
    have deep := depth_of_mem_preorderFrom inside
    have longer := under.2.length_le
    rw [path, top] at deep
    refine ⟨_, if_pos under, ?_⟩
    rw [List.length_drop]
    omega

theorem laid_preorder (w : Walk) (goesOn : Entry → Bool) : Laid w.root (w.preorder goesOn) := by
  rw [preorder_eq]
  split
  · exact ⟨List.nodup_nil, by simp, by simp, by simp⟩
  · rename_i e _ enters
    obtain ⟨_, _, _, _, rfl, _⟩ := enterRoot_eq_ok enters
    exact laid_preorderFrom goesOn rfl rfl

/-- What is laid is laid as far as it was visited. -/
theorem Laid.of_part {root : Path} {entries whole : List Entry} (laid : Laid root whole) (part : entries <+: whole) :
    Laid root entries where
  distinct := laid.distinct.sublist (part.sublist.map _)
  above before e after split := by
    obtain ⟨more, rfl⟩ := part
    exact laid.above before e (after ++ more) (by simp [split])
  together before e after split := by
    obtain ⟨more, rfl⟩ := part
    obtain ⟨block, rest, same, inside, apart⟩ := laid.together before e (after ++ more) (by simp [split])
    rcases List.append_eq_append_iff.1 same with ⟨later, rfl, _⟩ | ⟨between, rfl, rfl⟩
    · exact ⟨after, [], by simp, fun u among => inside u (List.mem_append_left _ among),
        fun u among => apart u (List.mem_append_left _ (by simpa using among))⟩
    · exact ⟨block, between, rfl, inside, fun u among => apart u (by
        rcases List.mem_append.1 among with earlier | later <;> simp [*])⟩
  depth e inside := laid.depth e (part.subset inside)

end Walk
end Inventory
