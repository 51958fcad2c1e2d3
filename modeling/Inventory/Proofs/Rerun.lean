import Inventory.Proofs.Aftermath

namespace Inventory

/-- Where all that one function gives another gives too, so it is for lists. -/
theorem mapM_eq_ok {α β ε : Type} {f g : α → Except ε β} (same : ∀ a b, f a = .ok b → g a = .ok b) {as : List α}
    {bs : List β} (done : as.mapM f = .ok bs) : as.mapM g = .ok bs := by
  induction as generalizing bs with
  | nil => exact done
  | cons a as ih =>
    rw [List.mapM_cons] at done ⊢
    obtain ⟨b, first, done⟩ := bind_eq_ok done
    obtain ⟨rest, later, done⟩ := bind_eq_ok done
    simpa [same a b first, ih later, bind, Except.bind] using done

namespace Request

variable {fs : FileSystem} {r : Request}

/-- The report does not go to the node that the ignore rules are read from. -/
def KeepsRules (r : Request) (fs : FileSystem) : Prop :=
  ∀ output ∈ r.output, ∀ given ∈ r.ignoreFile, given ≠ [] → ∀ l, fs.denoted? (.ofText output) = some l →
    fs.locate true (.ofText given) ≠ .ok l

section Stored

variable (p : r.Prepared fs) (t : Text)

theorem Prepared.existingDirectory_stored {role : RootRole} {given : Text} {q : Path}
    (there : existingDirectory fs role given = .ok q) :
    existingDirectory (p.system.store p.location t) role given = .ok q := by
  have more := FileSystem.extends_stored p.opens t
  rw [existingDirectory_eq_ok_iff] at there ⊢
  rw [more.workingDirectory]
  exact ⟨FileSystem.isDirectory_stored p.opens there.1 t, there.2⟩

theorem Prepared.roots_stored : r.roots (p.system.store p.location t) = .ok (p.localRoot, p.root, p.others) := by
  have checked := p.checked
  unfold roots at checked ⊢
  split at checked
  · cases checked
  · split at checked
    · cases checked
    · have inside {given : Text} {localRoot q : Path} {localGiven : Text}
          (valid : searchRoot fs localGiven localRoot given = .ok q) :
          searchRoot (p.system.store p.location t) localGiven localRoot given = .ok q := by
        rw [searchRoot_eq_ok_iff] at valid ⊢
        exact ⟨p.existingDirectory_stored t valid.1, valid.2⟩
      obtain ⟨localRoot, valid, checked⟩ := bind_eq_ok checked
      obtain ⟨root, first, checked⟩ := bind_eq_ok checked
      obtain ⟨others, rest, checked⟩ := bind_eq_ok checked
      simpa [p.existingDirectory_stored t valid, inside first, mapM_eq_ok (fun _ _ => inside) rest, bind, Except.bind]
        using checked

/-- The rules are read as before, and the same is said of them. -/
theorem Prepared.rules_stored (keeps : r.KeepsRules fs) : r.rules (p.system.store p.location t) = r.rules fs := by
  have read := p.read
  unfold Request.rules at read ⊢
  split at read
  · rfl
  · rfl
  · rename_i given some named
    have apart := keeps p.output p.given given named some p.location (FileSystem.denoted?_of_opened p.opens)
    have same : (p.system.store p.location t).ruleLines (.ofText given) = fs.ruleLines (.ofText given) := by
      unfold FileSystem.ruleLines
      cases reads : fs.read (.ofText given) with
      | error why => simp [FileSystem.rules, FileSystem.ruleLines, reads, Except.map] at read
      | ok data => rw [FileSystem.read_stored p.opens reads apart t]
    simp only [FileSystem.rules, same]

end Stored
end Request

namespace Run

variable {fs : FileSystem} {r : Request}

/-- With anything stored in the sink, a prepared run goes as it did without. -/
theorem perform_stored (keeps : r.KeepsRules fs) (now : Int) (p : r.Prepared fs) (t : Text) :
    perform (p.system.store p.location t) now r = perform fs now r := by
  rcases found : r.rules fs with ⟨notices, result⟩
  have read := p.read
  rw [found] at read
  cases read
  unfold perform
  rw [p.roots_stored t, p.rules_stored t keeps, p.checked, p.given, found]
  simp only [deliver, p.opens, FileSystem.openForWriting_stored p.opens t]

/-- A run on the file system that the same run has left does the same again: it comes to
    the same outcome, delivers the same text, and leaves the file system as it is. -/
theorem rerun (fs : FileSystem) (now : Int) (r : Request) (keeps : r.KeepsRules fs) :
    perform (perform fs now r).system now r = perform fs now r := by
  rcases r.refuses_or_prepared fs with ⟨f, refuses⟩ | ⟨⟨p⟩⟩
  · rw [(perform_of_refuses now refuses).1]
  · obtain ⟨t, outcome, left⟩ := exists_leaves now p
    rw [left.system, perform_stored keeps now p t]

end Run

/-- A directory `/s` with a link to `/l`, where one link is broken. -/
def FileSystem.brokenTree : FileSystem :=
  let node (path : String) (content : Content) : NodeSpec := ⟨.ofText path.toList, content, none, ⟨0, 0, 0⟩, []⟩
  .ofSpecs [node "/rules" (.regular []), node "/s/k" (.link "/l".toList), node "/l/out" (.link "made".toList)]
    ⟨.slash, []⟩

namespace Run

/-- The report goes through the broken link, so it is made in the directory that the other
    link is entered to. -/
theorem rerun_brokenTree :
    let r : Request :=
      ⟨"long".toList, some "/s/k/out".toList, some "/".toList, ["/s".toList], [], some "/rules".toList, false, []⟩
    (perform .brokenTree 0 r).outcome = .ok 4 ∧
      ((perform .brokenTree 0 r).delivered.map fun d => d.1.map Name.text) = some ["l".toList, "made".toList] ∧
      perform (perform .brokenTree 0 r).system 0 r = perform .brokenTree 0 r := by
  intro r
  refine ⟨by decide +kernel, by decide +kernel, rerun .brokenTree 0 r ?_⟩
  intro output there given named _ l denoted located
  cases there
  cases named
  have apart : FileSystem.brokenTree.denoted? (.ofText "/s/k/out".toList) ≠
      (FileSystem.brokenTree.locate true (.ofText "/rules".toList)).toOption := by decide +kernel
  rw [denoted, located] at apart
  exact apart rfl

end Run
end Inventory
