import Inventory.Proofs.Extension

namespace Inventory

namespace Node

variable (n : Node)

@[simp] theorem withData_withData (first second : Text) : (n.withData first).withData second = n.withData second := by
  obtain ⟨content, size, times, faults⟩ := n
  cases content <;> rfl

@[simp] theorem fault?_withData (data : Text) (call : Call) : (n.withData data).fault? call = n.fault? call := by
  obtain ⟨content, size, times, faults⟩ := n
  cases content <;> rfl

theorem passesAs_withData (data : Text) : (n.withData data).PassesAs n where
  linkTarget? := by
    obtain ⟨content, size, times, faults⟩ := n
    cases content <;> rfl
  isDirectory := n.isDirectory_withData data
  search := n.fault?_withData data .search

end Node

theorem Table.lookup_withData (t : Table) (l k : Location) (data : Text) :
    List.lookup k (t.map fun e => if e.1 = l then (e.1, e.2.withData data) else e) =
      if k = l then (t.lookup k).map (·.withData data) else t.lookup k := by
  induction t with
  | nil => simp
  | cons e t ih =>
    obtain ⟨m, n⟩ := e
    rw [List.map_cons]
    by_cases here : k = m
    · subst here
      by_cases same : k = l <;> simp [same]
    · have location : (if m = l then (m, n.withData data) else (m, n)) = (m, if m = l then n.withData data else n) := by
        split <;> rfl
      rw [location, lookup_cons_of_ne here, lookup_cons_of_ne here, ih]

namespace FileSystem

variable {fs : FileSystem}

/-- The place of the node that a path denotes, where it is or would be made. -/
def denoted? (fs : FileSystem) (p : Path) : Option Location := (fs.find true p).toOption.map Found.location

theorem denoted?_of_find {p : Path} {found : Found} (finds : fs.find true p = .ok found) :
    fs.denoted? p = some found.location := by
  simp [denoted?, finds, Except.toOption]

theorem vacant_of_find {follow : Bool} {p : Path} {directory : Location} {n : Name}
    (finds : fs.find follow p = .ok (.vacant directory n)) :
    fs.searchable directory = .ok () ∧ fs.node? (directory ++ [n]) = none := by
  rw [find_eq] at finds
  obtain ⟨_, _, walked⟩ := bind_eq_ok finds
  exact vacant_of_resolve walked

/-- The node at the location is no directory; a regular file has just these data. -/
def Holds (fs : FileSystem) (l : Location) (data : Text) : Prop :=
  ∃ n, fs.node? l = some n ∧ n.isDirectory = false ∧ n.withData data = n

theorem ext_table {fs fs' : FileSystem} (table : fs.table = fs'.table)
    (workingDirectory : fs.workingDirectory = fs'.workingDirectory) : fs = fs' := by
  cases fs
  cases fs'
  cases table
  cases workingDirectory
  rfl

theorem node?_store (fs : FileSystem) (l : Location) (data : Text) (k : Location) :
    (fs.store l data).node? k = if k = l then (fs.node? k).map (·.withData data) else fs.node? k :=
  Table.lookup_withData fs.table l k data

theorem store_store (fs : FileSystem) (l : Location) (first second : Text) :
    (fs.store l first).store l second = fs.store l second := by
  refine ext_table ?_ rfl
  simp only [store, List.map_map]
  refine List.map_congr_left fun e _ => ?_
  by_cases here : e.1 = l <;> simp [here]

/-- A child is made in a directory that has none of that name. -/
theorem table_create {directory : Location} {n : Name} (searched : fs.searchable directory = .ok ())
    (missing : fs.node? (directory ++ [n]) = none) (node : Node) :
    (fs.create directory n node).table = fs.table ++ [(directory ++ [n], node)] := by
  obtain ⟨d, found, isDirectory, _⟩ := searchable_eq_ok_iff.1 searched
  have fresh : directory ++ [n] ∉ fs.table.locations := fun inside => by
    obtain ⟨⟨_, m⟩, there, rfl⟩ := List.mem_map.1 inside
    rw [node?_eq_some_iff.2 there] at missing
    cases missing
  rw [create, dif_pos ⟨fresh, hasDirectory_iff.2 ⟨d, found, isDirectory⟩⟩]

theorem node?_create {directory : Location} {n : Name} (searched : fs.searchable directory = .ok ())
    (missing : fs.node? (directory ++ [n]) = none) (node : Node) (k : Location) :
    (fs.create directory n node).node? k = if k = directory ++ [n] then some node else fs.node? k := by
  rw [node?, table_create searched missing, List.lookup_append]
  by_cases here : k = directory ++ [n]
  · subst here
    have before : fs.table.lookup (directory ++ [n]) = none := missing
    simp [before]
  · rw [Table.lookup_cons_of_ne here, if_neg here]
    simp [node?]

theorem Holds.store {l : Location} {before : Text} (holds : fs.Holds l before) (data : Text) :
    (fs.store l data).Holds l data := by
  obtain ⟨n, found, file, _⟩ := holds
  refine ⟨n.withData data, ?_, (n.isDirectory_withData data).trans file, Node.withData_withData ..⟩
  rw [node?_store, if_pos rfl, found]
  rfl

theorem Holds.store_eq_self {l : Location} {data : Text} (holds : fs.Holds l data) : fs.store l data = fs := by
  obtain ⟨n, found, _, same⟩ := holds
  refine ext_table ?_ rfl
  refine (List.map_congr_left fun e inside => ?_).trans (List.map_id _)
  obtain ⟨k, m⟩ := e
  by_cases here : k = l
  · subst here
    rw [node?_eq_some_iff.2 inside] at found
    cases found
    simp [same]
  · simp [here]

@[simp] theorem workingDirectory_create (fs : FileSystem) (directory : Location) (n : Name) (node : Node) :
    (fs.create directory n node).workingDirectory = fs.workingDirectory := by
  unfold create
  split <;> rfl

/-- A file that is opened for writing is made, or it is there and loses its data. -/
theorem openForWriting_cases {p : Path} {opened : FileSystem} {l : Location}
    (opens : fs.openForWriting p = .ok (opened, l)) :
    (∃ directory n, fs.find true p = .ok (.vacant directory n) ∧ l = directory ++ [n] ∧
        opened = fs.create directory n .emptyFile) ∨
      ∃ n, fs.find true p = .ok (.node l) ∧ fs.nodeFor .openNode l = .ok n ∧ n.isDirectory = false ∧
        opened = fs.store l [] := by
  obtain ⟨found, finds, opens⟩ := bind_eq_ok opens
  cases found with
  | vacant directory n =>
    cases opens
    exact .inl ⟨directory, n, finds, rfl, rfl⟩
  | node k =>
    obtain ⟨n, there, opens⟩ := bind_eq_ok opens
    split at opens
    · cases opens
    · rename_i file
      cases opens
      exact .inr ⟨n, finds, there, by simpa using file, rfl⟩

section Opened

variable {p : Path} {opened : FileSystem} {l : Location} (opens : fs.openForWriting p = .ok (opened, l))

include opens

theorem denoted?_of_opened : fs.denoted? p = some l := by
  rcases openForWriting_cases opens with ⟨directory, n, finds, rfl, _⟩ | ⟨n, finds, _⟩
  · exact denoted?_of_find finds
  · exact denoted?_of_find finds

/-- A file that was opened is empty. -/
theorem holds_opened : opened.Holds l [] := by
  rcases openForWriting_cases opens with ⟨directory, n, finds, rfl, rfl⟩ | ⟨n, _, there, file, rfl⟩
  · obtain ⟨searched, missing⟩ := vacant_of_find finds
    exact ⟨.emptyFile, by rw [node?_create searched missing, if_pos rfl], rfl, rfl⟩
  · have found := (nodeFor_eq_ok_iff.1 there).1
    refine ⟨n.withData [], by rw [node?_store, if_pos rfl, found]; rfl, ?_, Node.withData_withData ..⟩
    rw [Node.isDirectory_withData, file]

theorem node?_opened {k : Location} (other : k ≠ l) : opened.node? k = fs.node? k := by
  rcases openForWriting_cases opens with ⟨directory, n, finds, rfl, rfl⟩ | ⟨n, _, _, _, rfl⟩
  · obtain ⟨searched, missing⟩ := vacant_of_find finds
    rw [node?_create searched missing, if_neg other]
  · rw [node?_store, if_neg other]

/-- A node that was there before is still there, without data. -/
theorem node?_opened_of_node? {n : Node} (found : fs.node? l = some n) :
    n.isDirectory = false ∧ opened.node? l = some (n.withData []) := by
  rcases openForWriting_cases opens with ⟨directory, m, finds, rfl, _⟩ | ⟨m, _, there, file, rfl⟩
  · rw [(vacant_of_find finds).2] at found
    cases found
  · rw [(nodeFor_eq_ok_iff.1 there).1] at found
    cases found
    exact ⟨file, by rw [node?_store, if_pos rfl, (nodeFor_eq_ok_iff.1 there).1]; rfl⟩

theorem node?_stored {k : Location} (other : k ≠ l) (data : Text) : (opened.store l data).node? k = fs.node? k := by
  rw [node?_store, if_neg other, node?_opened opens other]

/-- A directory is not what was opened, so it stays. -/
theorem node?_stored_of_directory {k : Location} {n : Node} (found : fs.node? k = some n)
    (directory : n.isDirectory = true) (data : Text) : (opened.store l data).node? k = some n := by
  by_cases here : k = l
  · subst here
    rw [(node?_opened_of_node? opens found).1] at directory
    cases directory
  · rw [node?_stored opens here, found]

theorem extends_stored (data : Text) : fs.Extends (opened.store l data) where
  node := by
    intro k n found
    by_cases here : k = l
    · subst here
      refine ⟨n.withData data, ?_, n.passesAs_withData data⟩
      rw [node?_store, if_pos rfl, (node?_opened_of_node? opens found).2]
      simp
    · exact ⟨n, by rw [node?_stored opens here, found], .refl n⟩
  workingDirectory := by
    rcases openForWriting_cases opens with ⟨_, _, _, _, rfl⟩ | ⟨_, _, _, _, rfl⟩
    · exact workingDirectory_create ..
    · rfl

/-- A directory is still one. -/
theorem isDirectory_stored {q : Path} (is : fs.isDirectory q = .ok true) (data : Text) :
    (opened.store l data).isDirectory q = .ok true := by
  unfold isDirectory at is ⊢
  cases asked : fs.stat q with
  | error e =>
    rw [asked] at is
    simp only at is
    split at is <;> cases is
  | ok n =>
    simp only [asked, Except.ok.injEq] at is
    obtain ⟨k, named, there⟩ := stat_eq_ok_iff.1 asked
    obtain ⟨found, free⟩ := nodeFor_eq_ok_iff.1 there
    have found' := node?_stored_of_directory opens found is data
    have asked' : (opened.store l data).stat q = .ok n :=
      stat_eq_ok_iff.2 ⟨k, (extends_stored opens data).locate named, nodeFor_eq_ok_iff.2 ⟨found', free⟩⟩
    simp only [asked', is]

/-- Another file reads as before. -/
theorem read_stored {q : Path} {t : Text} (reads : fs.read q = .ok t) (apart : fs.locate true q ≠ .ok l) (data : Text) :
    (opened.store l data).read q = .ok t := by
  obtain ⟨k, named, reads⟩ := bind_eq_ok reads
  obtain ⟨n, there, reads⟩ := bind_eq_ok reads
  obtain ⟨found, free⟩ := nodeFor_eq_ok_iff.1 there
  have other : k ≠ l := fun here => apart (here ▸ named)
  have there' : (opened.store l data).nodeFor .openNode k = .ok n :=
    nodeFor_eq_ok_iff.2 ⟨by rw [node?_stored opens other, found], free⟩
  rw [read, (extends_stored opens data).locate named]
  simpa [bind, Except.bind, there'] using reads

/-- Opening the file once more leads back to where it was opened first. -/
theorem openForWriting_stored (data : Text) : (opened.store l data).openForWriting p = .ok (opened, l) := by
  obtain ⟨n, stored, file, _⟩ := (holds_opened opens).store data
  have ready : (opened.store l data).find true p = .ok (.node l) ∧ n.fault? .openNode = none := by
    have more := extends_stored opens data
    rcases openForWriting_cases opens with ⟨directory, m, finds, rfl, rfl⟩ | ⟨m, finds, there, _, rfl⟩
    · obtain ⟨searched, missing⟩ := vacant_of_find finds
      have made : ((fs.create directory m .emptyFile).store (directory ++ [m]) data).node? (directory ++ [m]) =
          some (Node.emptyFile.withData data) := by
        rw [node?_store, if_pos rfl, node?_create searched missing, if_pos rfl]
        rfl
      rw [made] at stored
      cases stored
      exact ⟨more.find finds ⟨_, made, rfl⟩, rfl⟩
    · obtain ⟨found, free⟩ := nodeFor_eq_ok_iff.1 there
      rw [node?_store, if_pos rfl, node?_store, if_pos rfl, found] at stored
      cases stored
      exact ⟨more.find finds trivial, by simpa using free⟩
  have there : (opened.store l data).nodeFor .openNode l = .ok n := nodeFor_eq_ok_iff.2 ⟨stored, ready.2⟩
  have back : (opened.store l data).store l [] = opened := by rw [store_store, (holds_opened opens).store_eq_self]
  simp [openForWriting, ready.1, there, file, back, bind, Except.bind]

end Opened
end FileSystem
end Inventory
