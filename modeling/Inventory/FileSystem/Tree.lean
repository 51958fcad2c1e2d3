import Inventory.FileSystem.Node

/-!
A location is the list of names from the root down to a node, so it is a path without
`..` and without links. A file system is the list of its nodes by location, in the order
in which a directory lists its children. Each location has one node, and all that is
above a node is a directory (`FileSystem.enclosed`).
-/
namespace Inventory

/-- Where a node physically is. -/
abbrev Location := List Name

/-- The path that spells a location. -/
def Path.ofLocation (l : Location) : Path := ⟨.slash, l.map .name⟩

/-- The location that an absolute path spells, if it has no `..`. -/
def Path.location? (p : Path) : Option Location :=
  if p.isAbsolute then p.parts.mapM (fun | .up => none | .name n => some n) else none

/-- Nodes by location, oldest first. -/
abbrev Table := List (Location × Node)

namespace Table

def locations (t : Table) : List Location := t.map Prod.fst

/-- The table says that there is a directory at the location. -/
def hasDirectory (t : Table) (l : Location) : Bool := (t.lookup l).any Node.isDirectory

/-- Sets the node at a location; a new location comes last. -/
def put (l : Location) (n : Node) : Table → Table
  | [] => [(l, n)]
  | e :: t => if e.1 = l then (l, n) :: t else e :: put l n t

/-- A plain directory at the location unless there is a node. -/
def ensure (l : Location) (t : Table) : Table := if l ∈ t.locations then t else t.put l .plainDirectory

/-- Sets the node at a location and makes the directories above it. -/
def place (l : Location) (n : Node) (t : Table) : Table :=
  ((List.range l.length).foldl (fun t i => t.ensure (l.take i)) t).put l n

/-- The nodes that are below directories all the way down. -/
def reachable (t : Table) : Table :=
  t.filter fun e => (List.range e.1.length).all fun i => t.hasDirectory (e.1.take i)

theorem mem_locations_put (l : Location) (n : Node) (t : Table) (k : Location) :
    k ∈ locations (put l n t) ↔ k = l ∨ k ∈ t.locations := by
  induction t with
  | nil => simp [put, locations]
  | cons e t ih =>
    simp only [locations] at ih ⊢
    unfold put
    split
    · rename_i same; subst same; simp
    · simp only [List.map_cons, List.mem_cons, ih]
      constructor
      · rintro (h | h | h) <;> simp [h]
      · rintro (h | h | h) <;> simp [h]

theorem lookup_cons_of_ne {k l : Location} (other : k ≠ l) (n : Node) (t : List (Location × Node)) :
    List.lookup k ((l, n) :: t) = List.lookup k t := by
  have differs : (k == l) = false := by simpa using other
  simp [List.lookup_cons, differs]

theorem lookup_put (l : Location) (n : Node) (t : Table) (k : Location) :
    (put l n t).lookup k = if k = l then some n else t.lookup k := by
  induction t with
  | nil =>
    by_cases here : k = l
    · subst here; simp [put]
    · rw [put, lookup_cons_of_ne here, if_neg here]
  | cons e t ih =>
    obtain ⟨m, d⟩ := e
    unfold put
    by_cases same : m = l
    · subst same
      by_cases here : k = m
      · subst here; simp
      · simp [lookup_cons_of_ne here, here]
    · rw [if_neg same]
      by_cases here : k = m
      · subst here; simp [same]
      · rw [lookup_cons_of_ne here, lookup_cons_of_ne here, ih]

theorem nodup_put {t : Table} (once : t.locations.Nodup) (l : Location) (n : Node) :
    (locations (put l n t)).Nodup := by
  induction t with
  | nil => simp [put, locations]
  | cons e t ih =>
    have fresh : e.1 ∉ locations t := (List.nodup_cons.1 once).1
    have rest := ih (List.nodup_cons.1 once).2
    unfold put
    split
    · rename_i same
      subst same
      exact once
    · rename_i other
      refine List.nodup_cons.2 ⟨fun inside => ?_, rest⟩
      rcases (mem_locations_put l n t e.1).1 inside with same | inside
      · exact other same
      · exact fresh inside

theorem nodup_ensure {t : Table} (once : t.locations.Nodup) (l : Location) : (locations (t.ensure l)).Nodup := by
  unfold ensure; split
  · exact once
  · exact nodup_put once ..

theorem nodup_place {t : Table} (once : t.locations.Nodup) (l : Location) (n : Node) :
    (locations (t.place l n)).Nodup := by
  refine nodup_put ?_ l n
  generalize List.range l.length = is
  induction is generalizing t with
  | nil => exact once
  | cons i is ih => exact ih (nodup_ensure once _)

theorem lookup_eq_some_iff {t : Table} (once : t.locations.Nodup) {l : Location} {n : Node} :
    t.lookup l = some n ↔ (l, n) ∈ t := by
  induction t with
  | nil => simp
  | cons e t ih =>
    obtain ⟨k, m⟩ := e
    have fresh : k ∉ locations t := (List.nodup_cons.1 once).1
    have rest := ih (List.nodup_cons.1 once).2
    by_cases same : l = k
    · subst same
      simp only [List.lookup_cons_self, List.mem_cons, Prod.mk.injEq, true_and, Option.some.injEq]
      constructor
      · intro h; exact .inl h.symm
      · rintro (h | h)
        · exact h.symm
        · exact absurd (List.mem_map.2 ⟨_, h, rfl⟩) fresh
    · simp [lookup_cons_of_ne same, rest, same]

theorem hasDirectory_iff {t : Table} (once : t.locations.Nodup) {l : Location} :
    t.hasDirectory l = true ↔ ∃ n, (l, n) ∈ t ∧ n.isDirectory = true := by
  simp [hasDirectory, Option.any_eq_true, lookup_eq_some_iff once]

theorem hasDirectory_put {t : Table} {l k : Location} {n : Node} (there : t.hasDirectory k = true)
    (kept : k = l → n.isDirectory = true) : hasDirectory (put l n t) k = true := by
  unfold hasDirectory at *
  rw [lookup_put]
  split
  · rename_i same; simpa using kept same
  · exact there

theorem hasDirectory_ensure {t : Table} {k : Location} (there : t.hasDirectory k = true) (l : Location) :
    hasDirectory (t.ensure l) k = true := by
  unfold ensure; split
  · exact there
  · exact hasDirectory_put there fun _ => rfl

theorem hasDirectory_place {t : Table} {l k : Location} {n : Node} (there : t.hasDirectory k = true)
    (kept : l = k → n.isDirectory = true) : hasDirectory (t.place l n) k = true := by
  refine hasDirectory_put ?_ fun same => kept same.symm
  generalize List.range l.length = is
  induction is generalizing t with
  | nil => exact there
  | cons i is ih => exact ih (hasDirectory_ensure there _)

theorem hasDirectory_append {t u : Table} {l : Location} (there : t.hasDirectory l = true) :
    hasDirectory (t ++ u) l = true := by
  unfold hasDirectory at *
  rw [List.lookup_append]
  cases found : t.lookup l with
  | none => simp [found] at there
  | some n => simpa [found] using there

theorem hasDirectory_withData {t : Table} {l k : Location} {data : Text} (there : t.hasDirectory k = true) :
    hasDirectory (t.map fun e => if e.1 = l then (e.1, e.2.withData data) else e) k = true := by
  unfold hasDirectory at *
  induction t with
  | nil => exact there
  | cons e t ih =>
    obtain ⟨m, n⟩ := e
    rw [List.map_cons, List.lookup_cons]
    rw [List.lookup_cons] at there
    have location : (if m = l then (m, n.withData data) else (m, n)).1 = m := by split <;> rfl
    have kind : (if m = l then (m, n.withData data) else (m, n)).2.isDirectory = n.isDirectory := by
      split
      · exact Node.isDirectory_withData n data
      · rfl
    simp only [location]
    split <;> rename_i same <;> simp only [same] at there
    · simpa [kind] using there
    · exact ih there

theorem nodup_reachable {t : Table} (once : t.locations.Nodup) : (locations t.reachable).Nodup :=
  once.sublist (List.filter_sublist.map _)

theorem hasDirectory_reachable {t : Table} (once : t.locations.Nodup) {l : Location} {n : Node}
    (inside : (l, n) ∈ t.reachable) {i : Nat} (above : i < l.length) :
    hasDirectory t.reachable (l.take i) = true := by
  have all := (List.mem_filter.1 inside).2
  simp only [List.all_eq_true, List.mem_range] at all
  obtain ⟨d, there, directory⟩ := (hasDirectory_iff once).1 (all i above)
  refine (hasDirectory_iff (nodup_reachable once)).2 ⟨d, List.mem_filter.2 ⟨there, ?_⟩, directory⟩
  simp only [List.all_eq_true, List.mem_range, List.length_take]
  intro j below
  have smaller : min j i = j := by omega
  simpa [List.take_take, smaller] using all j (by omega)

end Table

/-- The file system as one process sees it. -/
structure FileSystem where
  table : Table
  distinct : table.locations.Nodup
  rooted : table.hasDirectory [] = true
  enclosed : ∀ e ∈ table, ∀ i < e.1.length, table.hasDirectory (e.1.take i) = true
  workingDirectory : Path
  grounded : workingDirectory.isAbsolute = true

/-- What is said about one node when a file system is described. -/
structure NodeSpec where
  path : Path
  content : Content
  size : Option Int
  times : Times
  faults : List (Call × Errno)

def NodeSpec.node (s : NodeSpec) : Node := ⟨s.content, s.size.getD s.content.usualSize, s.times, s.faults⟩

namespace FileSystem

/-- One node is described, with the directories above it. The root stays a
    directory, and a path that is no location describes nothing. -/
def describe (t : Table) (s : NodeSpec) : Table :=
  match s.path.location? with
  | none => t
  | some l => if l = [] ∧ s.content ≠ .directory then t else t.place l s.node

/-- The described nodes by location, whether or not they can be reached. -/
def describedTable (specs : List NodeSpec) : Table := specs.foldl describe [([], .plainDirectory)]

theorem nodup_describedTable (specs : List NodeSpec) : (describedTable specs).locations.Nodup := by
  unfold describedTable
  suffices ∀ t : Table, t.locations.Nodup → (Table.locations (specs.foldl describe t)).Nodup from
    this _ (by simp [Table.locations])
  induction specs with
  | nil => exact fun _ once => once
  | cons s specs ih =>
    intro t once
    refine ih _ ?_
    unfold describe
    split
    · exact once
    · split
      · exact once
      · exact Table.nodup_place once ..

theorem describedTable_rooted (specs : List NodeSpec) : (describedTable specs).hasDirectory [] = true := by
  unfold describedTable
  suffices ∀ t : Table, t.hasDirectory [] = true → Table.hasDirectory (specs.foldl describe t) [] = true from
    this _ (by decide)
  induction specs with
  | nil => exact fun _ rooted => rooted
  | cons s specs ih =>
    intro t rooted
    refine ih _ ?_
    unfold describe
    split
    · exact rooted
    · rename_i l _
      split
      · exact rooted
      · rename_i allowed
        refine Table.hasDirectory_place rooted ?_
        intro root
        simp only [root, true_and, ne_eq, Decidable.not_not] at allowed
        simp [NodeSpec.node, Node.isDirectory, allowed]

/-- The file system that the descriptions give: what is below something else
    than a directory is left out, and the working directory is taken from the
    root if it is not absolute. -/
def ofSpecs (specs : List NodeSpec) (workingDirectory : Path) : FileSystem where
  table := (describedTable specs).reachable
  distinct := Table.nodup_reachable (nodup_describedTable specs)
  rooted := by
    have once := nodup_describedTable specs
    obtain ⟨n, there, directory⟩ := (Table.hasDirectory_iff once).1 (describedTable_rooted specs)
    exact (Table.hasDirectory_iff (Table.nodup_reachable once)).2
      ⟨n, List.mem_filter.2 ⟨there, by simp⟩, directory⟩
  enclosed := fun _ inside _ above => Table.hasDirectory_reachable (nodup_describedTable specs) inside above
  workingDirectory :=
    if workingDirectory.isAbsolute then workingDirectory else ⟨.slash, workingDirectory.parts⟩
  grounded := by split <;> simp_all [Path.isAbsolute]

/-- The node at a location. -/
def node? (fs : FileSystem) (l : Location) : Option Node := fs.table.lookup l

/-- The names of the children of a location, in the order in which they are read. -/
def names (fs : FileSystem) (l : Location) : List Name :=
  fs.table.filterMap fun e => if e.1.dropLast = l then e.1.getLast? else none

/-- A new node at the end of its directory. Nothing changes where there is a
    node already or no directory above. -/
def create (fs : FileSystem) (directory : Location) (n : Name) (node : Node) : FileSystem :=
  if fresh : directory ++ [n] ∉ fs.table.locations ∧ fs.table.hasDirectory directory = true then
    { fs with
      table := fs.table ++ [(directory ++ [n], node)]
      distinct := by
        simp only [Table.locations, List.map_append, List.map_cons, List.map_nil]
        exact List.nodup_append.2 ⟨fs.distinct, by simp, by
          intro a inside b last
          simp only [List.mem_singleton] at last
          subst last
          exact fun same => fresh.1 (same ▸ inside)⟩
      rooted := Table.hasDirectory_append fs.rooted
      enclosed := by
        intro e inside i above
        rcases List.mem_append.1 inside with inside | last
        · exact Table.hasDirectory_append (fs.enclosed e inside i above)
        · simp only [List.mem_singleton] at last
          subst last
          simp only [List.length_append, List.length_cons, List.length_nil] at above
          refine Table.hasDirectory_append ?_
          rw [List.take_append_of_le_length (by omega)]
          rcases Nat.lt_or_eq_of_le (Nat.le_of_lt_succ above) with less | same
          · obtain ⟨d, there, _⟩ := (Table.hasDirectory_iff fs.distinct).1 fresh.2
            exact fs.enclosed _ there i less
          · rw [same, List.take_length]; exact fresh.2 }
  else fs

/-- The regular file at a location with other data. -/
def store (fs : FileSystem) (l : Location) (data : Text) : FileSystem :=
  { fs with
    table := fs.table.map fun e => if e.1 = l then (e.1, e.2.withData data) else e
    distinct := by
      have same : Table.locations (fs.table.map fun e => if e.1 = l then (e.1, e.2.withData data) else e) =
          fs.table.locations := by
        simp only [Table.locations, List.map_map]
        refine List.map_congr_left fun e _ => ?_
        simp only [Function.comp_apply]
        split <;> rfl
      rw [same]; exact fs.distinct
    rooted := Table.hasDirectory_withData fs.rooted
    enclosed := by
      intro e inside i above
      obtain ⟨e₀, inside₀, same⟩ := List.mem_map.1 inside
      have location : e.1 = e₀.1 := by rw [← same]; split <;> rfl
      rw [location] at above ⊢
      exact Table.hasDirectory_withData (fs.enclosed e₀ inside₀ i above) }

end FileSystem
end Inventory
