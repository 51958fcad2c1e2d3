import Inventory.Proofs.Whereabouts

namespace Inventory

namespace FileSystem

variable {fs : FileSystem} {p : Path}

theorem canAccess_ofLocation (spares : fs.Spares .access) {l : Location} (firm : fs.Firm l) :
    fs.canAccess (.ofLocation l) = true := by
  obtain ⟨_, node, found, _⟩ := id firm
  have asked : fs.nodeFor .access l = .ok node := nodeFor_eq_ok_iff.2 ⟨found, spares l node found⟩
  simp [canAccess, locate_followed_ofLocation firm, asked, Except.toBool]

theorem present_of_reads (faultless : fs.Faultless) (absolute : p.isAbsolute = true) {links : Nat}
    {against : List Errno} {l : Location} (reading : fs.Reads [] p.steps links against l) :
    fs.resolveLink p = ⟨some (.ofLocation l), true⟩ := by
  have form : fs.strictForm p = .ok (.ofLocation l) := by
    simp only [strictForm, settled_of_reads faultless absolute reading .strict, Path.absolute_ofLocation]
  simp [resolveLink, form, canAccess_ofLocation (faultless.spares .access) (reading.firm firm_root)]

/-- A path is said to lead to a location just if it reads so. -/
theorem present_iff_reads (faultless : fs.Faultless) (absolute : p.isAbsolute = true) {target : Path} :
    (fs.resolveLink p).target = some target ↔
      ∃ l links against, target = .ofLocation l ∧ fs.Reads [] p.steps links against l := by
  constructor
  · intro present
    obtain ⟨form, _⟩ := resolveLink_target present
    obtain ⟨l, links, against, same, _, reading⟩ := reads_of_strictForm absolute form
    exact ⟨l, links, against, same, reading⟩
  · rintro ⟨l, links, against, rfl, reading⟩
    rw [present_of_reads faultless absolute reading]

/-- What is followed to a location is followed to the node there. -/
theorem Follows.bind {α β : Type} {atHand links : Nat} {against : List Errno} {walked : Except Errno α} {a : α}
    {f : α → Except Errno β} {b : β} (follows : Follows atHand links against walked (.ok a)) (ends : f a = .ok b) :
    Follows atHand links against (walked.bind f) (.ok b) := by
  rcases follows with ⟨none, few, rfl⟩ | ⟨refused, why, cause, rfl⟩
  · exact .inl ⟨none, few, ends⟩
  · exact .inr ⟨refused, why, cause, rfl⟩

/-- A path is reported with the location where it reads, and the system follows it to the
    node there unless it has something against the reading or the reading goes through too
    many links. A path without a reading is reported absent, and the system cannot follow it
    either. -/
theorem existence_reported (fs : FileSystem) (faultless : fs.Faultless) (p : Path) (absolute : p.isAbsolute = true) :
    (∃ l node links against, fs.Reads [] p.steps links against l ∧
        fs.resolveLink p = ⟨some (.ofLocation l), true⟩ ∧ fs.lstat (.ofLocation l) = .ok node ∧
        Follows linkLimit links against (fs.locate true p) (.ok l) ∧
        Follows linkLimit links against (fs.stat p) (.ok node)) ∨
      (¬ ∃ l links against, fs.Reads [] p.steps links against l) ∧
        fs.resolveLink p = .absent ∧ ∃ why, fs.stat p = .error why := by
  by_cases readable : ∃ l links against, fs.Reads [] p.steps links against l
  · obtain ⟨l, links, against, reading⟩ := readable
    have firm := reading.firm firm_root
    obtain ⟨passable, node, found, _⟩ := id firm
    have asked (call : Call) : fs.nodeFor call l = .ok node :=
      nodeFor_eq_ok_iff.2 ⟨found, faultless.fault? found call⟩
    have located := locate_of_reads absolute reading
    refine .inl ⟨l, node, links, against, reading, present_of_reads faultless absolute reading, ?_, located, ?_⟩
    · rw [lstat_of_locate (locate_ofLocation passable found)]
      exact asked .lstat
    · exact located.bind (asked .stat)
  · refine .inr ⟨readable, ?_, ?_⟩
    · apply resolveLink_absent
      rw [Option.eq_none_iff_forall_ne_some]
      intro target present
      obtain ⟨l, links, against, _, reading⟩ := (present_iff_reads faultless absolute).1 present
      exact readable ⟨l, links, against, reading⟩
    · cases asked : fs.stat p with
      | error why => exact ⟨why, rfl⟩
      | ok node =>
        obtain ⟨l, followed, _⟩ := stat_eq_ok_iff.1 asked
        obtain ⟨links, _, walk⟩ := (locate_followed_iff absolute).1 followed
        exact absurd ⟨l, links, [], walk.reads⟩ readable

/-- A link whose way leads through another link and back up from where that leads, and a
    link that goes up from a file. -/
def detourTree : FileSystem :=
  let node (path : String) (content : Content) : NodeSpec := ⟨.ofText path.toList, content, none, ⟨0, 0, 0⟩, []⟩
  .ofSpecs [node "/a/in" (.link "../b/to/../y".toList), node "/b/to" (.link "/c/z/".toList),
    node "/c/z" .directory, node "/c/y" (.regular []), node "/up" (.link "c/y/..".toList)] ⟨.slash, []⟩

theorem faultless_detourTree : detourTree.Faultless := fun _ _ found =>
  (by decide +kernel : ∀ e ∈ detourTree.table, e.2.faults = []) _ (node?_eq_some_iff.1 found)

/-- Going up from a file is read, but not followed. -/
theorem present_unfollowed :
    detourTree.resolveLink (.ofText "/up".toList) = ⟨some (.ofText "/c".toList), true⟩ ∧
      detourTree.stat (.ofText "/up".toList) = .error .notDirectory := by decide +kernel

theorem existence_reported_detourTree :
    ∃ l node links against, (Path.ofLocation l).text = "/c".toList ∧
      detourTree.Reads [] (Path.ofText "/up".toList).steps links against l ∧
      detourTree.lstat (.ofLocation l) = .ok node ∧
      Follows linkLimit links against (detourTree.locate true (.ofText "/up".toList)) (.ok l) ∧
      Follows linkLimit links against (detourTree.stat (.ofText "/up".toList)) (.ok node) := by
  have form : detourTree.resolveLink (.ofText "/up".toList) = ⟨some (.ofText "/c".toList), true⟩ := by decide +kernel
  rcases existence_reported detourTree faultless_detourTree (.ofText "/up".toList) rfl with
    ⟨l, node, links, against, reading, present, named, located, reached⟩ | ⟨_, absent, _⟩
  · have same : .ofText "/c".toList = Path.ofLocation l := by
      rw [form] at present
      exact Option.some.inj (congrArg LinkResolution.target present)
    exact ⟨l, node, links, against, same ▸ by decide, reading, named, located, reached⟩
  · rw [form] at absent
    cases absent

/-- All ways to say where a path leads agree on a location and the node there. -/
structure StandsFor (fs : FileSystem) (p : Path) (l : Location) (node : Node) : Prop where
  followed : fs.locate true p = .ok l
  present : fs.resolveLink p = ⟨some (.ofLocation l), true⟩
  spells : fs.Spells (fs.resolveLink p).targetText l
  named : fs.lstat (.ofLocation l) = .ok node
  canonical : fs.canonical p = .ofLocation l
  fixed : fs.canonical (.ofLocation l) = .ofLocation l

theorem standsFor_of_stat (faultless : fs.Faultless) (absolute : p.isAbsolute = true) {node : Node}
    (reaches : fs.stat p = .ok node) : ∃ l, fs.StandsFor p l node := by
  obtain ⟨l, followed, there⟩ := stat_eq_ok_iff.1 reaches
  obtain ⟨links, _, walk⟩ := (locate_followed_iff absolute).1 followed
  have present := present_of_reads faultless absolute walk.reads
  have firm := walk.firm firm_root
  have found := (nodeFor_eq_ok_iff.1 there).1
  refine ⟨l, followed, present, ?_, ?_, canonical_of_locate faultless absolute followed,
    canonical_of_locate faultless rfl (locate_followed_ofLocation firm)⟩
  · rw [present]
    exact spells_of_firm firm
  · rw [lstat_of_locate (locate_ofLocation firm.1 found)]
    exact nodeFor_eq_ok_iff.2 ⟨found, faultless.fault? found .lstat⟩

/-- Each path that the system follows to a node is said to lead there, in the same form
    strictly and leniently. So two such paths lead to the same node just if their forms are
    the same, and one leads inside of the other just if its form is under that of the other. -/
theorem forms_agree (fs : FileSystem) (faultless : fs.Faultless) {p q : Path} {node node' : Node}
    (absolute : p.isAbsolute = true) (absolute' : q.isAbsolute = true) (reaches : fs.stat p = .ok node)
    (reaches' : fs.stat q = .ok node') :
    ∃ l m, fs.StandsFor p l node ∧ fs.StandsFor q m node' ∧ (l = m ↔ fs.canonical p = fs.canonical q) ∧
      (m <+: l ↔ (fs.canonical p).Under (fs.canonical q)) := by
  obtain ⟨l, stands⟩ := standsFor_of_stat faultless absolute reaches
  obtain ⟨m, stands'⟩ := standsFor_of_stat faultless absolute' reaches'
  refine ⟨l, m, stands, stands', ?_, ?_⟩
  · rw [stands.canonical, stands'.canonical]
    constructor
    · rintro rfl
      rfl
    · exact Path.ofLocation_injective
  · rw [stands.canonical, stands'.canonical, Path.ofLocation_under_iff]

theorem forms_agree_detourTree :
    ∃ l m : Location, (Path.ofLocation l).text = "/c/y".toList ∧ (Path.ofLocation m).text = "/c".toList ∧
      detourTree.StandsFor (.ofText "/a/in".toList) l .emptyFile ∧
      detourTree.StandsFor (.ofText "/b/to/..".toList) m .plainDirectory ∧ m <+: l := by
  have reaches : detourTree.stat (.ofText "/a/in".toList) = .ok .emptyFile := by decide +kernel
  have reaches' : detourTree.stat (.ofText "/b/to/..".toList) = .ok .plainDirectory := by decide +kernel
  obtain ⟨l, m, stands, stands', _, inside⟩ := forms_agree detourTree faultless_detourTree rfl rfl reaches reaches'
  have here : detourTree.canonical (.ofText "/a/in".toList) = .ofText "/c/y".toList := by decide +kernel
  have there : detourTree.canonical (.ofText "/b/to/..".toList) = .ofText "/c".toList := by decide +kernel
  refine ⟨l, m, ?_, ?_, stands, stands', inside.2 ?_⟩
  · rw [← stands.canonical, here]
    decide
  · rw [← stands'.canonical, there]
    decide
  · rw [here, there]
    decide

end FileSystem
end Inventory
