import Inventory.Proofs.Account

namespace Inventory

namespace FileSystem

variable {fs : FileSystem}

/-- Where the system starts to walk a path. -/
def startOf (fs : FileSystem) (p : Path) : Except Errno Location :=
  if p.isAbsolute then .ok [] else fs.workingLocation

theorem find_eq (fs : FileSystem) (follow : Bool) (p : Path) :
    fs.find follow p = (fs.startOf p).bind fun w => fs.resolve follow linkLimit w (Spelling.ofPath p).steps := by
  have root : (Spelling.ofPath p).fromRoot = p.isAbsolute := by
    unfold Spelling.ofPath
    split
    · rename_i bare
      simp [Path.isAbsolute, bare.1]
    · rfl
  simp only [find, startOf, root]
  split <;> rfl

theorem locate_iff {follow : Bool} {p : Path} {l : Location} :
    fs.locate follow p = .ok l ↔
      ∃ w, fs.startOf p = .ok w ∧ fs.resolve follow linkLimit w (Spelling.ofPath p).steps = .ok (.node l) := by
  simp only [locate, find_eq, bind]
  cases fs.startOf p with
  | error why => simp [Except.bind]
  | ok w => rcases walked : fs.resolve follow linkLimit w (Spelling.ofPath p).steps with _ | (_ | _) <;>
      simp [Except.bind, walked]

theorem firm_workingLocation {w : Location} (working : fs.workingLocation = .ok w) : fs.Firm w := by
  unfold workingLocation at working
  obtain ⟨found, walked, ends⟩ := bind_eq_ok working
  cases found with
  | vacant => cases ends
  | node l =>
    cases ends
    rw [← List.append_nil (Spelling.steps _)] at walked
    obtain ⟨_, there, _, walk, ends⟩ := leads_of_resolve walked fun _ => ⟨rfl, _, rfl⟩
    simp only [resolve_nil, Except.ok.injEq, Found.node.injEq] at ends
    exact ends ▸ walk.firm firm_root

theorem steps_ofPath (p : Path) :
    (Spelling.ofPath p).steps = p.steps ∨ p.steps = [] ∧ (Spelling.ofPath p).steps = [.stay] := by
  unfold Spelling.ofPath
  split
  · rename_i bare
    exact .inr ⟨by simp [Path.steps, bare.2], rfl⟩
  · exact .inl rfl

/-- A path that is followed names the end of a walk from its start. -/
theorem leads_of_locate {p : Path} {l : Location} (followed : fs.locate true p = .ok l) :
    ∃ w links, fs.startOf p = .ok w ∧ links ≤ linkLimit ∧ fs.Leads w p.steps links l := by
  obtain ⟨w, starts, walked⟩ := locate_iff.1 followed
  rw [← List.append_nil (Spelling.steps _)] at walked
  obtain ⟨links, there, few, walk, ends⟩ := leads_of_resolve walked fun _ => ⟨rfl, _, rfl⟩
  simp only [resolve_nil, Except.ok.injEq, Found.node.injEq] at ends
  subst ends
  rcases steps_ofPath p with same | ⟨none, stays⟩
  · exact ⟨w, links, starts, few, same ▸ walk⟩
  · rw [stays] at walk
    cases walk with | stay _ walk => exact ⟨w, links, starts, few, none ▸ walk⟩

theorem locate_of_leads {p : Path} {w l : Location} {links : Nat} (starts : fs.startOf p = .ok w)
    (walk : fs.Leads w (Spelling.ofPath p).steps links l) (few : links ≤ linkLimit) : fs.locate true p = .ok l := by
  have whole := resolve_of_leads walk true (linkLimit - links) [] fun _ => rfl
  rw [List.append_nil, resolve_nil, Nat.sub_add_cancel few] at whole
  exact locate_iff.2 ⟨w, starts, whole⟩

/-- A child lies in the directory that the path above it leads to. -/
theorem locate_child {p : Path} {n : Name} {l : Location} (named : fs.locate false (p.child n) = .ok l) :
    ∃ d, fs.locate true p = .ok d ∧ fs.searchable d = .ok () ∧ l = d ++ [n] := by
  obtain ⟨w, starts, walked⟩ := locate_iff.1 named
  have child : (Spelling.ofPath (p.child n)).steps = p.steps ++ [.child n] := by
    rw [Spelling.ofPath, if_neg (by simp [Path.child])]
    exact Path.steps_child p n
  rw [child] at walked
  obtain ⟨links, d, few, walk, ends⟩ := leads_of_resolve walked (by simp)
  obtain ⟨searched, _, rfl⟩ := resolve_last_eq_ok_iff.1 ends
  refine ⟨d, ?_, searched, rfl⟩
  rcases steps_ofPath p with same | ⟨none, stays⟩
  · exact locate_of_leads starts (same ▸ walk) few
  · rw [none] at walk
    cases walk
    exact locate_of_leads starts (stays ▸ .stay searched (.arrived w)) (Nat.zero_le _)

/-- The node of a directory lies one name deeper than that of the directory above. -/
theorem depthOf_child {p : Path} {n : Name} {node : Node} (asked : fs.lstat (p.child n) = .ok node)
    (directory : node.isDirectory = true) :
    fs.depthOf (p.child n) = fs.depthOf p + 1 ∧ fs.depthOf (p.child n) < fs.table.length := by
  obtain ⟨l, named, there⟩ := lstat_eq_ok_iff.1 asked
  have found := (nodeFor_eq_ok_iff.1 there).1
  obtain ⟨d, above, _, rfl⟩ := locate_child named
  obtain ⟨w, starts, walked⟩ := locate_iff.1 named
  obtain ⟨links, few, walk⟩ := leads_of_resolve_plain walked found (Node.linkTarget?_of_isDirectory directory)
  rw [depthOf_eq (locate_of_leads starts walk few), depthOf_eq above, List.length_append, List.length_singleton]
  exact ⟨rfl, by simpa using length_lt_of_node? found⟩

end FileSystem

/-- From a working location a relative path goes up, or down to what is no link,
    and comes to the location. -/
inductive FileSystem.ComesTo (fs : FileSystem) (w : Location) : Path → Location → Prop
  | here : ComesTo fs w ⟨.relative, []⟩ w
  | up {p : Path} {l : Location} : ComesTo fs w p l → ComesTo fs w ⟨p.root, p.parts ++ [.up]⟩ l.dropLast
  | child {p : Path} {l : Location} {n : Name} : ComesTo fs w p l → fs.Firm (l ++ [n]) →
      ComesTo fs w (p.child n) (l ++ [n])

theorem Path.normal_up (p : Path) : (⟨p.root, p.parts ++ [.up]⟩ : Path).normal = p.normal.above := by
  simp [normal, List.foldl_append]

namespace FileSystem.ComesTo

variable {fs : FileSystem} {w l : Location} {p : Path}

theorem relative (comes : fs.ComesTo w p l) : p.root = .relative := by
  induction comes with
  | here => rfl
  | up _ ih => exact ih
  | child _ _ ih => exact ih

theorem firm (comes : fs.ComesTo w p l) (start : fs.Firm w) : fs.Firm l := by
  induction comes with
  | here => exact start
  | up _ ih => exact ih.dropLast
  | child _ firm _ => exact firm

theorem above (comes : fs.ComesTo w p l) : fs.ComesTo w p.above l.dropLast := by
  cases comes with
  | here => exact .up .here
  | @up p l comes =>
    have goesUp : (⟨p.root, p.parts ++ [.up]⟩ : Path).above = ⟨p.root, p.parts ++ [.up] ++ [.up]⟩ := by
      simp [Path.above, comes.relative]
    exact goesUp ▸ .up (.up comes)
  | @child p l n comes =>
    have back : (p.child n).above = p := by
      rw [← Path.parent_child p n]
      simp [Path.above, Path.child, Path.parent, comes.relative]
    rw [back, List.dropLast_concat]
    exact comes

/-- Taken from the path of the working location, it is the path of the location. -/
theorem absolute_eq (comes : fs.ComesTo w p l) : p.absolute (.ofLocation w) = .ofLocation l := by
  have joined {q : Path} {m : Location} (comes : fs.ComesTo w q m) :
      (Path.ofLocation w).join q = ⟨.slash, (Path.ofLocation w).parts ++ q.parts⟩ := by
    simp [Path.join, comes.relative, Path.ofLocation]
  rw [Path.absolute, joined comes]
  induction comes with
  | here =>
    rw [List.append_nil]
    exact Path.normal_ofLocation w
  | @up p l comes ih =>
    rw [← List.append_assoc, ← Path.above_ofLocation, ← ih]
    exact Path.normal_up ⟨.slash, (Path.ofLocation w).parts ++ p.parts⟩
  | @child p l n comes _ ih =>
    rw [Path.ofLocation_append, ← ih, ← Path.normal_child]
    simp [Path.child]

/-- The system arrives there too. -/
theorem eq_of_leads (comes : fs.ComesTo w p l) {links : Nat} {d : Location} (walk : fs.Leads w p.steps links d) :
    d = l := by
  induction comes generalizing links d with
  | here =>
    cases walk
    rfl
  | @up p l comes ih =>
    rw [show Path.steps _ = p.steps ++ [.up] by simp [Path.steps, Spelling.stepOfComponent]] at walk
    obtain ⟨_, middle, _, front, back, _⟩ := walk.split
    cases back with | up _ back =>
    cases back
    rw [ih front]
  | @child p l n comes firm ih =>
    rw [Path.steps_child] at walk
    obtain ⟨_, middle, _, front, back, _⟩ := walk.split
    obtain ⟨_, node, found, plain⟩ := firm
    rw [ih front] at back
    cases back.of_plain found plain
    rfl

end FileSystem.ComesTo

namespace FileSystem

variable {fs : FileSystem}

/-- The system tells a process its working directory by the path of its location,
    with no link on it. -/
def Physical (fs : FileSystem) : Prop := ∀ w, fs.workingLocation = .ok w → fs.workingDirectory = .ofLocation w

/-- The path stands, in full or from the working directory, for a location that can be walked to. -/
def Grounds (fs : FileSystem) (p : Path) : Prop :=
  (∃ l, p = .ofLocation l ∧ fs.Firm l) ∨ ∃ w l, fs.workingLocation = .ok w ∧ fs.ComesTo w p l

namespace Grounds

variable {p : Path}

theorem above (grounds : fs.Grounds p) : fs.Grounds p.above := by
  rcases grounds with ⟨l, rfl, firm⟩ | ⟨w, l, working, comes⟩
  · exact .inl ⟨l.dropLast, Path.above_ofLocation l, firm.dropLast⟩
  · exact .inr ⟨w, _, working, comes.above⟩

/-- A child of such a path stands for a location too if it was asked about and is
    no link. -/
theorem child (grounds : fs.Grounds p) {n : Name} {node : Node} (asked : fs.lstat (p.child n) = .ok node)
    (plain : node.linkTarget? = none) : fs.Grounds (p.child n) := by
  rcases grounds with ⟨l, rfl, firm⟩ | ⟨w, l, working, comes⟩
  · obtain ⟨searched, there⟩ := (Canonical.lstat_child_iff firm).1 asked
    exact .inl ⟨l ++ [n], (Path.ofLocation_append l n).symm, firm.1.child searched n, node,
      (nodeFor_eq_ok_iff.1 there).1, plain⟩
  · obtain ⟨m, named, there⟩ := lstat_eq_ok_iff.1 asked
    obtain ⟨d, followed, searched, rfl⟩ := locate_child named
    obtain ⟨w', _, starts, _, walk⟩ := leads_of_locate followed
    have same : w' = w := by
      rw [startOf, Path.isAbsolute, comes.relative, working] at starts
      cases starts
      rfl
    rw [same] at walk
    rw [comes.eq_of_leads walk] at there searched
    have passable := (comes.firm (firm_workingLocation working)).1.child searched n
    exact .inr ⟨w, _, working, comes.child ⟨passable, node, (nodeFor_eq_ok_iff.1 there).1, plain⟩⟩

/-- Such a path, in full, spells the location. -/
theorem absolute (grounds : fs.Grounds p) (physical : fs.Physical) :
    ∃ l, p.absolute fs.workingDirectory = .ofLocation l ∧ fs.Firm l := by
  rcases grounds with ⟨l, rfl, firm⟩ | ⟨w, l, working, comes⟩
  · exact ⟨l, Path.absolute_ofLocation l _, firm⟩
  · rw [physical w working]
    exact ⟨l, comes.absolute_eq, comes.firm (firm_workingLocation working)⟩

end Grounds
end FileSystem

namespace Canonical

variable {fs : FileSystem}

theorem settle_grounds {inner : List Path → Path → Text → Outcome}
    (kept : ∀ opened here t q, fs.Grounds here → inner opened here t = .settled q → fs.Grounds q)
    {opened : List Path} {pieces : List Text} {here q : Path} (grounds : fs.Grounds here)
    (settled : settle fs .strict opened inner here pieces = .settled q) : fs.Grounds q := by
  induction pieces generalizing here with
  | nil =>
    cases settled
    exact grounds
  | cons piece rest ih =>
    cases read : Component.ofText? piece with
    | none =>
      rw [settle_skip read] at settled
      exact ih grounds settled
    | some component =>
      cases component with
      | up =>
        rw [settle_up read] at settled
        exact ih grounds.above settled
      | name n =>
        cases asked : fs.lstat (here.child n) with
        | error e =>
          rw [settle_strict_missing read asked] at settled
          cases settled
        | ok node =>
          cases content : node.linkTarget? with
          | none =>
            rw [settle_plain read asked content] at settled
            exact ih (grounds.child asked content) settled
          | some target =>
            by_cases again : here.child n ∈ opened
            · obtain ⟨e, failed⟩ := settle_strict_loop inner rest read asked content again
              rw [failed] at settled
              cases settled
            · rw [settle_link read asked content again] at settled
              split at settled
              · rename_i p expanded
                exact ih (kept _ _ _ _ grounds expanded) settled
              · cases settled
              · cases settled
              · cases settled

theorem expand_grounds (depth : Nat) (opened : List Path) (here : Path) (t : Text) (q : Path)
    (grounds : fs.Grounds here) (expanded : expand fs .strict depth opened here t = .settled q) : fs.Grounds q := by
  induction depth generalizing opened here t q with
  | zero => cases expanded
  | succ depth ih =>
    refine settle_grounds ih ?_ expanded
    split
    · exact .inl ⟨[], rfl, FileSystem.firm_root⟩
    · exact grounds

end Canonical

/-- The strict form of a path that can be asked about spells a location that can
    be walked to. -/
theorem FileSystem.strictForm_grounded {fs : FileSystem} {p q : Path} {node : Node}
    (physical : p.isAbsolute = true ∨ fs.Physical) (asked : fs.lstat p = .ok node) (form : fs.strictForm p = .ok q) :
    ∃ l, q = .ofLocation l ∧ fs.Firm l := by
  by_cases absolute : p.isAbsolute = true
  · obtain ⟨l, same, firm, _⟩ := strictForm_firm absolute form
    exact ⟨l, same, firm⟩
  · obtain ⟨r, settled, rfl⟩ := settled_of_strictForm form
    obtain ⟨l, named, _⟩ := lstat_eq_ok_iff.1 asked
    obtain ⟨w, starts, _⟩ := locate_iff.1 named
    rw [startOf, if_neg absolute] at starts
    rw [Canonical.outcome, if_neg absolute] at settled
    have grounds := Canonical.settle_grounds (Canonical.expand_grounds _) (.inr ⟨w, w, starts, .here⟩) settled
    exact grounds.absolute (physical.resolve_left absolute)

end Inventory
