import Inventory.Proofs.Grounding

namespace Inventory

/-- A walk along steps passes both nodes alike. -/
structure Node.PassesAs (n' n : Node) : Prop where
  linkTarget? : n'.linkTarget? = n.linkTarget?
  isDirectory : n'.isDirectory = n.isDirectory
  search : n'.fault? .search = n.fault? .search

theorem Node.PassesAs.refl (n : Node) : n.PassesAs n := ⟨rfl, rfl, rfl⟩

/-- Where a node is, or would be made. -/
def Found.location : Found → Location
  | node l => l
  | vacant directory n => directory ++ [n]

namespace FileSystem

/-- How a walk along steps comes to what it finds: at a node, or at the vacant place of
    a last child that is missing. -/
inductive Finds (fs : FileSystem) : Bool → Nat → Location → List Step → Found → Prop
  | arrived {follow : Bool} {links : Nat} {here : Location} : Finds fs follow links here [] (.node here)
  | insist {follow : Bool} {links : Nat} {here : Location} {rest : List Step} {found : Found} :
      fs.insistDirectory here = .ok () → Finds fs follow links here rest found →
        Finds fs follow links here (.insist :: rest) found
  | stay {follow : Bool} {links : Nat} {here : Location} {rest : List Step} {found : Found} :
      fs.searchable here = .ok () → Finds fs follow links here rest found →
        Finds fs follow links here (.stay :: rest) found
  | up {follow : Bool} {links : Nat} {here : Location} {rest : List Step} {found : Found} :
      fs.searchable here = .ok () → Finds fs follow links here.dropLast rest found →
        Finds fs follow links here (.up :: rest) found
  | vacant {follow : Bool} {links : Nat} {here : Location} {n : Name} :
      fs.searchable here = .ok () → fs.node? (here ++ [n]) = none →
        Finds fs follow links here [.child n] (.vacant here n)
  | child {follow : Bool} {links : Nat} {here : Location} {n : Name} {rest : List Step} {node : Node} {found : Found} :
      fs.searchable here = .ok () → fs.node? (here ++ [n]) = some node → node.linkTarget? = none →
        Finds fs follow links (here ++ [n]) rest found → Finds fs follow links here (.child n :: rest) found
  /-- A link at the end that is not followed. -/
  | kept {links : Nat} {here : Location} {n : Name} {node : Node} :
      fs.searchable here = .ok () → fs.node? (here ++ [n]) = some node →
        Finds fs false links here [.child n] (.node (here ++ [n]))
  | link {follow : Bool} {links : Nat} {here : Location} {n : Name} {rest : List Step} {node : Node} {target : Text}
      {spelling : Spelling} {found : Found} :
      fs.searchable here = .ok () → fs.node? (here ++ [n]) = some node → node.linkTarget? = some target →
        (rest = [] → follow = true) → Spelling.ofText? target = some spelling →
        Finds fs follow links (if spelling.fromRoot then [] else here) (spelling.steps ++ rest) found →
        Finds fs follow (links + 1) here (.child n :: rest) found

/-- The calls come to what they find in these ways. -/
theorem finds_of_resolve {fs : FileSystem} {follow : Bool} {links : Nat} {here : Location} {steps : List Step}
    {found : Found} (walked : fs.resolve follow links here steps = .ok found) :
    fs.Finds follow links here steps found := by
  induction links using Nat.strongRecOn generalizing here steps with
  | ind links outer =>
    induction steps generalizing here with
    | nil =>
      rw [resolve_nil] at walked
      cases walked
      exact .arrived
    | cons step rest ih =>
      cases step with
      | insist =>
        rw [resolve_insist] at walked
        obtain ⟨_, insists, walked⟩ := bind_eq_ok walked
        exact .insist insists (ih walked)
      | stay =>
        rw [resolve_stay] at walked
        obtain ⟨_, searched, walked⟩ := bind_eq_ok walked
        exact .stay searched (ih walked)
      | up =>
        rw [resolve_up] at walked
        obtain ⟨_, searched, walked⟩ := bind_eq_ok walked
        exact .up searched (ih walked)
      | child n =>
        cases there : fs.node? (here ++ [n]) with
        | none =>
          rw [resolve_missing there] at walked
          obtain ⟨_, searched, walked⟩ := bind_eq_ok walked
          split at walked
          · rename_i last
            cases walked
            exact last ▸ .vacant searched there
          · cases walked
        | some node =>
          cases content : node.linkTarget? with
          | none =>
            rw [resolve_child there content] at walked
            obtain ⟨_, searched, walked⟩ := bind_eq_ok walked
            exact .child searched there content (ih walked)
          | some target =>
            by_cases kept : rest = [] ∧ follow = false
            · obtain ⟨rfl, rfl⟩ := kept
              rw [resolve_last there] at walked
              obtain ⟨_, searched, walked⟩ := bind_eq_ok walked
              cases walked
              exact .kept searched there
            · have through : rest = [] → follow = true := fun last => by
                by_contra other
                exact kept ⟨last, Bool.eq_false_iff.2 other⟩
              rw [resolve_link there content through] at walked
              obtain ⟨_, searched, walked⟩ := bind_eq_ok walked
              cases links with
              | zero => cases walked
              | succ links =>
                cases reads : Spelling.ofText? target with
                | none => simp [reads] at walked
                | some spelling =>
                  simp only [reads] at walked
                  exact .link searched there content through reads (outer links (Nat.lt_succ_self _) walked)

/-- Where a walk ends at a vacant place, there is a directory without that child. -/
theorem vacant_of_resolve {fs : FileSystem} {follow : Bool} {links : Nat} {here directory : Location}
    {steps : List Step} {n : Name} (walked : fs.resolve follow links here steps = .ok (.vacant directory n)) :
    fs.searchable directory = .ok () ∧ fs.node? (directory ++ [n]) = none := by
  have finds := finds_of_resolve walked
  clear walked
  generalize ends : Found.vacant directory n = found at finds
  induction finds with
  | arrived | kept => cases ends
  | vacant searched missing =>
    cases ends
    exact ⟨searched, missing⟩
  | insist _ _ ih | stay _ _ ih | up _ _ ih | child _ _ _ _ ih | link _ _ _ _ _ _ ih => exact ih ends

/-- All nodes of the first file system are in the second, and a walk passes them alike. -/
structure Extends (fs fs' : FileSystem) : Prop where
  node : ∀ l n, fs.node? l = some n → ∃ n', fs'.node? l = some n' ∧ n'.PassesAs n
  workingDirectory : fs'.workingDirectory = fs.workingDirectory

/-- What was found is there; a vacant place has a node that is no link. -/
def Fills (fs : FileSystem) : Found → Prop
  | .node _ => True
  | .vacant directory n => ∃ node, fs.node? (directory ++ [n]) = some node ∧ node.linkTarget? = none

theorem workingLocation_eq_ok_iff {fs : FileSystem} {w : Location} :
    fs.workingLocation = .ok w ↔
      fs.resolve true linkLimit [] (Spelling.ofPath fs.workingDirectory).steps = .ok (.node w) := by
  unfold workingLocation
  rcases walked : fs.resolve true linkLimit [] (Spelling.ofPath fs.workingDirectory).steps with _ | (_ | _) <;>
    simp [bind, Except.bind]

theorem locate_eq_ok_iff_find {fs : FileSystem} {follow : Bool} {p : Path} {l : Location} :
    fs.locate follow p = .ok l ↔ fs.find follow p = .ok (.node l) := by
  unfold locate
  rcases fs.find follow p with _ | (_ | _) <;> simp [bind, Except.bind]

namespace Extends

variable {fs fs' : FileSystem} (more : fs.Extends fs')

include more

theorem searchable {l : Location} (searched : fs.searchable l = .ok ()) : fs'.searchable l = .ok () := by
  obtain ⟨d, found, directory, free⟩ := searchable_eq_ok_iff.1 searched
  obtain ⟨d', found', alike⟩ := more.node l d found
  exact searchable_eq_ok_iff.2 ⟨d', found', alike.isDirectory.trans directory, alike.search.trans free⟩

theorem insistDirectory {l : Location} (insists : fs.insistDirectory l = .ok ()) : fs'.insistDirectory l = .ok () := by
  have here : fs.table.hasDirectory l = true := by
    by_contra other
    simp [FileSystem.insistDirectory, other] at insists
  obtain ⟨d, found, directory⟩ := hasDirectory_iff.1 here
  obtain ⟨d', found', alike⟩ := more.node l d found
  have there : fs'.table.hasDirectory l = true := hasDirectory_iff.2 ⟨d', found', alike.isDirectory.trans directory⟩
  simp [FileSystem.insistDirectory, there]

/-- What a walk along steps finds in the first file system, it finds in the second. -/
theorem resolve {follow : Bool} {links : Nat} {here : Location} {steps : List Step} {found : Found}
    (walked : fs.resolve follow links here steps = .ok found) (filled : fs'.Fills found) :
    fs'.resolve follow links here steps = .ok (.node found.location) := by
  have finds := finds_of_resolve walked
  clear walked
  induction finds with
  | arrived => exact resolve_nil _
  | insist insists _ ih =>
    rw [resolve_insist, more.insistDirectory insists]
    exact ih filled
  | stay searched _ ih =>
    rw [resolve_stay, more.searchable searched]
    exact ih filled
  | up searched _ ih =>
    rw [resolve_up, more.searchable searched]
    exact ih filled
  | vacant searched _ =>
    obtain ⟨node, made, plain⟩ := filled
    rw [resolve_child made plain, more.searchable searched]
    exact resolve_nil _
  | child searched there plain _ ih =>
    obtain ⟨node', there', alike⟩ := more.node _ _ there
    rw [resolve_child there' (alike.linkTarget?.trans plain), more.searchable searched]
    exact ih filled
  | kept searched there =>
    obtain ⟨node', there', _⟩ := more.node _ _ there
    rw [resolve_last there', more.searchable searched]
    rfl
  | link searched there content through reads _ ih =>
    obtain ⟨node', there', alike⟩ := more.node _ _ there
    rw [resolve_link there' (alike.linkTarget?.trans content) through, more.searchable searched, reads]
    exact ih filled

theorem startOf {p : Path} {w : Location} (starts : fs.startOf p = .ok w) : fs'.startOf p = .ok w := by
  unfold FileSystem.startOf at starts ⊢
  split
  · rename_i absolute
    rwa [if_pos absolute] at starts
  · rename_i relative
    rw [if_neg relative] at starts
    rw [workingLocation_eq_ok_iff] at starts ⊢
    rw [more.workingDirectory]
    exact more.resolve starts trivial

/-- What a path finds in the first file system, it finds in the second. -/
theorem find {follow : Bool} {p : Path} {found : Found} (finds : fs.find follow p = .ok found)
    (filled : fs'.Fills found) : fs'.find follow p = .ok (.node found.location) := by
  rw [find_eq] at finds ⊢
  obtain ⟨w, starts, walked⟩ := bind_eq_ok finds
  rw [more.startOf starts]
  exact more.resolve walked filled

theorem locate {follow : Bool} {p : Path} {l : Location} (named : fs.locate follow p = .ok l) :
    fs'.locate follow p = .ok l := by
  rw [locate_eq_ok_iff_find] at named ⊢
  exact more.find named trivial

end Extends
end FileSystem
end Inventory
