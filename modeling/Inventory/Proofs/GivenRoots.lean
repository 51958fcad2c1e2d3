import Inventory.Proofs.Escapes

namespace Inventory

/-- What succeeds for each element succeeds for the list. -/
theorem mapM_eq_ok_map {α β ε : Type} {f : α → Except ε β} {g : α → β} {xs : List α}
    (done : ∀ x ∈ xs, f x = .ok (g x)) : xs.mapM f = .ok (xs.map g) := by
  induction xs with
  | nil => rfl
  | cons x xs ih =>
    obtain ⟨here, later⟩ := List.forall_mem_cons.1 done
    rw [List.mapM_cons, here, ih later]
    rfl

namespace Request

variable {fs : FileSystem} {r : Request} {localGiven given first : Text} {others : List Text}

/-- There is a directory at the absolute path, or behind links there. -/
def IsDirectory (fs : FileSystem) (given : Text) : Prop :=
  ∃ node, fs.stat (absoluteOf fs given) = .ok node ∧ node.isDirectory = true

/-- The absolute path has the root of the absolute local root and begins with its components. -/
def InScope (fs : FileSystem) (localGiven given : Text) : Prop :=
  (absoluteOf fs given).root = (absoluteOf fs localGiven).root ∧
    (absoluteOf fs localGiven).parts <+: (absoluteOf fs given).parts

def Accepted (fs : FileSystem) (localGiven given : Text) : Prop := IsDirectory fs given ∧ InScope fs localGiven given

/-- The system answers for a directory, or says in one of four ways that there is none. -/
def Answered (fs : FileSystem) (given : Text) : Prop :=
  ∀ why, fs.stat (absoluteOf fs given) = .error why →
    why = .noEntry ∨ why = .notDirectory ∨ why = .badDescriptor ∨ why = .linkLoop

instance (fs : FileSystem) (given : Text) : Decidable (IsDirectory fs given) :=
  decidable_of_iff _ FileSystem.isDirectory_eq_true_iff

instance (fs : FileSystem) (localGiven given : Text) : Decidable (InScope fs localGiven given) :=
  inferInstanceAs (Decidable (_ ∧ _))

instance (fs : FileSystem) (given : Text) : Decidable (Answered fs given) :=
  match found : fs.stat (absoluteOf fs given) with
  | .ok _ => .isTrue fun _ fails => nomatch found.symm.trans fails
  | .error why =>
    decidable_of_iff (why = .noEntry ∨ why = .notDirectory ∨ why = .badDescriptor ∨ why = .linkLoop)
      ⟨fun said _ fails => Except.error.inj (found.symm.trans fails) ▸ said, fun answered => answered why found⟩

/-- What is reported of the first of the given directories that is not as it should be. -/
inductive FirstOffence (r : Request) (fs : FileSystem) (localGiven : Text) : InventoryError → Prop where
  | noLocalRoot (absent : ¬ IsDirectory fs localGiven) :
      FirstOffence r fs localGiven (.missingDirectory .localRoot localGiven)
  | noSearchRoot {before after : List Text} {given : Text} (rooted : IsDirectory fs localGiven)
      (listed : r.searchRoots = before ++ given :: after) (passed : ∀ b ∈ before, Accepted fs localGiven b)
      (absent : ¬ IsDirectory fs given) : FirstOffence r fs localGiven (.missingDirectory .searchRoot given)
  | outOfScope {before after : List Text} {given : Text} (rooted : IsDirectory fs localGiven)
      (listed : r.searchRoots = before ++ given :: after) (passed : ∀ b ∈ before, Accepted fs localGiven b)
      (there : IsDirectory fs given) (outside : ¬ InScope fs localGiven given) :
      FirstOffence r fs localGiven (.outOfScope given localGiven)

theorem existingDirectory_of_isDirectory (role : RootRole) (there : IsDirectory fs given) :
    existingDirectory fs role given = .ok (absoluteOf fs given) :=
  existingDirectory_eq_ok_iff.2 ⟨FileSystem.isDirectory_eq_true_iff.2 there, rfl⟩

theorem existingDirectory_of_absent (role : RootRole) (answered : Answered fs given) (absent : ¬ IsDirectory fs given) :
    existingDirectory fs role given = .error (.reported (.missingDirectory role given)) := by
  have no : fs.isDirectory ((Path.ofText given).absolute fs.workingDirectory) = .ok false := by
    cases found : fs.isDirectory ((Path.ofText given).absolute fs.workingDirectory) with
    | error why =>
      obtain ⟨fails, more⟩ := FileSystem.isDirectory_eq_error_iff.1 found
      rcases answered why fails with rfl | rfl | rfl | rfl <;> cases more
    | ok is =>
      cases is with
      | false => rfl
      | true => exact absurd (FileSystem.isDirectory_eq_true_iff.1 found) absent
  simp only [existingDirectory, no]

theorem searchRoot_of_accepted (accepted : Accepted fs localGiven given) :
    searchRoot fs localGiven (absoluteOf fs localGiven) given = .ok (absoluteOf fs given) :=
  searchRoot_eq_ok_iff.2 ⟨existingDirectory_of_isDirectory .searchRoot accepted.1, accepted.2⟩

theorem searchRoot_of_absent (answered : Answered fs given) (absent : ¬ IsDirectory fs given) (localRoot : Path) :
    searchRoot fs localGiven localRoot given = .error (.reported (.missingDirectory .searchRoot given)) := by
  rw [searchRoot, existingDirectory_of_absent .searchRoot answered absent]
  rfl

theorem searchRoot_of_outside (there : IsDirectory fs given) (outside : ¬ InScope fs localGiven given) :
    searchRoot fs localGiven (absoluteOf fs localGiven) given = .error (.reported (.outOfScope given localGiven)) := by
  rw [searchRoot, existingDirectory_of_isDirectory .searchRoot there]
  exact if_neg outside

theorem roots_of_accepted (named : r.localRoot = some localGiven) (listed : r.searchRoots = first :: others)
    (rooted : IsDirectory fs localGiven) (accepted : ∀ given ∈ r.searchRoots, Accepted fs localGiven given) :
    r.roots fs = .ok (absoluteOf fs localGiven, absoluteOf fs first, others.map (absoluteOf fs)) := by
  rw [listed, List.forall_mem_cons] at accepted
  have later := mapM_eq_ok_map (g := absoluteOf fs) fun given among => searchRoot_of_accepted (accepted.2 given among)
  simp only [roots, listed, named, existingDirectory_of_isDirectory .localRoot rooted, bind, Except.bind,
    searchRoot_of_accepted accepted.1, later]

theorem exists_offence
    (offends : ¬ (IsDirectory fs localGiven ∧ ∀ given ∈ r.searchRoots, Accepted fs localGiven given)) :
    ∃ e, r.FirstOffence fs localGiven e := by
  classical
  by_cases rooted : IsDirectory fs localGiven
  · cases found : r.searchRoots.find? fun given => ¬ Accepted fs localGiven given with
    | none => exact absurd ⟨rooted, by simpa using found⟩ offends
    | some given =>
      obtain ⟨fails, before, after, listed, passed⟩ := List.find?_eq_some_iff_append.1 found
      have passed : ∀ b ∈ before, Accepted fs localGiven b := by simpa using passed
      by_cases there : IsDirectory fs given
      · have outside : ¬ InScope fs localGiven given := fun inside => by simp [Accepted, there, inside] at fails
        exact ⟨_, .outOfScope rooted listed passed there outside⟩
      · exact ⟨_, .noSearchRoot rooted listed passed there⟩
  · exact ⟨_, .noLocalRoot rooted⟩

/-- The first offence ends the checks. -/
theorem roots_of_offence (named : r.localRoot = some localGiven) (searches : r.searchRoots ≠ [])
    (answered : ∀ given ∈ localGiven :: r.searchRoots, Answered fs given) {e : InventoryError}
    (offence : r.FirstOffence fs localGiven e) : r.roots fs = .error (.reported e) := by
  obtain ⟨answeredLocal, answered⟩ := List.forall_mem_cons.1 answered
  rw [roots_eq_error_iff searches named, mapM_eq_error_iff]
  -- A directory to search comes after the local root and the directories to search before it.
  have further {before after : List Text} {given : Text} (rooted : IsDirectory fs localGiven)
      (listed : r.searchRoots = before ++ given :: after) (passed : ∀ b ∈ before, Accepted fs localGiven b)
      (fails : searchRoot fs localGiven (absoluteOf fs localGiven) given = .error (.reported e)) :
      ∃ before c after, r.givenRoots localGiven = before ++ c :: after ∧
        (∀ b ∈ before, ∃ p, checkRoot fs localGiven b = .ok p) ∧ checkRoot fs localGiven c = .error (.reported e) := by
    refine ⟨(.localRoot, localGiven) :: before.map fun b => (.searchRoot, b), (.searchRoot, given),
      after.map fun a => (.searchRoot, a), by simp [givenRoots, listed], ?_, fails⟩
    rw [List.forall_mem_cons, List.forall_mem_map]
    exact ⟨⟨_, existingDirectory_of_isDirectory .localRoot rooted⟩,
      fun b among => ⟨_, searchRoot_of_accepted (passed b among)⟩⟩
  cases offence with
  | noLocalRoot absent =>
    exact ⟨[], (.localRoot, localGiven), _, rfl, by simp, existingDirectory_of_absent .localRoot answeredLocal absent⟩
  | noSearchRoot rooted listed passed absent =>
    exact further rooted listed passed (searchRoot_of_absent (answered _ (by simp [listed])) absent _)
  | outOfScope rooted listed passed there outside =>
    exact further rooted listed passed (searchRoot_of_outside there outside)

theorem kind_of_offence {e : InventoryError} (offence : r.FirstOffence fs localGiven e) :
    e.kind = .pathNotFound ∨ e.kind = .pathScope := by
  cases offence <;> simp [InventoryError.kind]

end Request

namespace Run

open Request

variable {fs : FileSystem} {r : Request} {localRoot root : Path} {paths : List Path} {first : Text}

/-- Past the checks, the directories after the first are named in a warning and play no part. -/
theorem perform_eq_alone (now : Int) (checked : r.roots fs = .ok (localRoot, root, paths))
    (alone : { r with searchRoots := [first] }.roots fs = .ok (localRoot, root, [])) :
    perform fs now r =
      let run := perform fs now { r with searchRoots := [first] }
      { run with notices := (if paths = [] then [] else [.rootsIgnored paths]) ++ run.notices } := by
  have rules : { r with searchRoots := [first] }.rules fs = r.rules fs := rfl
  simp only [perform, checked, alone, rules]
  rcases r.rules fs with ⟨notices, f | found⟩
  · simp [refused]
  · cases r.output with
    | none => simp [refused]
    | some output => simp [trace]

/-- What is made of the directories that are given, where the system answers for each. A run
    gets past the checks just if the local root and all directories to search are directories
    and the latter are in scope; otherwise there is a first offence, which is reported, and
    nothing is changed. Past the checks a run goes as it does for the first directory to
    search alone, but for a warning. -/
theorem given_directories_checked (fs : FileSystem) (now : Int) {r : Request} {localGiven first : Text}
    {others : List Text} (named : r.localRoot = some localGiven) (listed : r.searchRoots = first :: others)
    (answered : ∀ given ∈ localGiven :: r.searchRoots, Answered fs given) :
    let alone := { r with searchRoots := [first] }
    let run := perform fs now r
    let runAlone := perform fs now alone
    ((∃ found, r.roots fs = .ok found) ↔
        IsDirectory fs localGiven ∧ ∀ given ∈ r.searchRoots, IsDirectory fs given ∧ InScope fs localGiven given) ∧
      ((∃ found, r.roots fs = .ok found) ∨ ∃ e, r.FirstOffence fs localGiven e) ∧
      (∀ e, r.FirstOffence fs localGiven e →
        run = refused fs [] (.reported e) ∧ (e.kind = .pathNotFound ∨ e.kind = .pathScope)) ∧
      ∀ found, r.roots fs = .ok found →
        run.outcome = runAlone.outcome ∧ run.delivered = runAlone.delivered ∧ run.system = runAlone.system ∧
          run.notices = (if others = [] then [] else [.rootsIgnored (others.map (absoluteOf fs))]) ++ runAlone.notices ∧
          ∀ p : r.Prepared fs, ∃ q : alone.Prepared fs, q.trace = p.trace := by
  intro alone run runAlone
  have searches : r.searchRoots ≠ [] := by simp [listed]
  have refuses {e : InventoryError} (offence : r.FirstOffence fs localGiven e) : r.roots fs = .error (.reported e) :=
    roots_of_offence named searches answered offence
  have passes : (∃ found, r.roots fs = .ok found) ↔
      IsDirectory fs localGiven ∧ ∀ given ∈ r.searchRoots, Accepted fs localGiven given := by
    constructor
    · rintro ⟨found, checked⟩
      by_contra offends
      obtain ⟨e, offence⟩ := exists_offence offends
      cases checked.symm.trans (refuses offence)
    · exact fun ⟨rooted, accepted⟩ => ⟨_, roots_of_accepted named listed rooted accepted⟩
  refine ⟨passes, ?_, fun e offence => ⟨?_, kind_of_offence offence⟩, fun found checked => ?_⟩
  · exact (em _).imp passes.2 exists_offence
  · simp only [run, perform, refuses offence]
  · obtain ⟨rooted, accepted⟩ := passes.1 ⟨found, checked⟩
    have whole := roots_of_accepted named listed rooted accepted
    have single : alone.roots fs = .ok (absoluteOf fs localGiven, absoluteOf fs first, []) :=
      roots_of_accepted (r := alone) named rfl rooted fun given among =>
        accepted given (by rw [List.mem_singleton.1 among, listed]; exact List.mem_cons_self)
    have same : run = { runAlone with notices :=
        (if others = [] then [] else [.rootsIgnored (others.map (absoluteOf fs))]) ++ runAlone.notices } := by
      simpa using perform_eq_alone now whole single
    refine ⟨by rw [same], by rw [same], by rw [same], by rw [same], fun p => ?_⟩
    obtain ⟨localRoot, root, paths, rules, output, system, location, checked, read, given, opens⟩ := p
    cases checked.symm.trans whole
    exact ⟨⟨_, _, [], rules, output, system, location, single, read, given, opens⟩, rfl⟩

end Run

/-- Directories `/a/b` and `/ab`, and a link beside the first to the second. -/
def FileSystem.twinTree : FileSystem :=
  let node (path : String) (content : Content) : NodeSpec := ⟨.ofText path.toList, content, none, ⟨0, 0, 0⟩, []⟩
  .ofSpecs [node "/a/b/f" (.regular []), node "/a/k" (.link "../ab".toList), node "/ab" .directory] ⟨.slash, []⟩

namespace Run

def twinRequest (searchRoots : List String) : Request :=
  ⟨"short".toList, some "/out".toList, some "/a".toList, searchRoots.map String.toList, [], none, false, []⟩

/-- A directory whose text begins with that of the local root may lie beside it. A link in the
    local root is taken for the directory that it leads to, and when it comes second it is
    not scanned. -/
theorem given_directories_checked_twinTree :
    (perform .twinTree 0 (twinRequest ["/a/b", "a/../ab", "/missing"])).outcome =
        .error (.reported (.outOfScope "a/../ab".toList "/a".toList)) ∧
      (perform .twinTree 0 (twinRequest ["/a/b", "/a/./b/../k"])).outcome = .ok 2 := by
  obtain ⟨_, _, refused, _⟩ := given_directories_checked (r := twinRequest ["/a/b", "a/../ab", "/missing"])
    .twinTree 0 rfl rfl (by decide +kernel)
  obtain ⟨passes, _, _, alone⟩ := given_directories_checked (r := twinRequest ["/a/b", "/a/./b/../k"])
    .twinTree 0 rfl rfl (by decide +kernel)
  constructor
  · have offence : (twinRequest ["/a/b", "a/../ab", "/missing"]).FirstOffence .twinTree "/a".toList
        (.outOfScope "a/../ab".toList "/a".toList) := by
      have listed : (twinRequest ["/a/b", "a/../ab", "/missing"]).searchRoots =
          ["/a/b".toList] ++ "a/../ab".toList :: ["/missing".toList] := rfl
      exact .outOfScope (by decide +kernel) listed
        (List.forall_mem_singleton.2 ⟨by decide +kernel, by decide +kernel⟩) (by decide +kernel) (by decide +kernel)
    rw [(refused _ offence).1]
    rfl
  · obtain ⟨found, checked⟩ := passes.2 (by decide +kernel)
    rw [(alone found checked).1]
    decide +kernel

end Run
end Inventory
