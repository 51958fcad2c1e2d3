import Inventory.FileSystem.Calls
import Mathlib.Data.List.Nodup
import Mathlib.Data.List.Perm.Subperm

/-!
`FileSystem.Leads` says by rules, without a limit on links, where the system arrives when
it walks along steps from a location. The walk that the calls use follows these rules as
long as its links last (`resolve_of_leads`, `leads_of_resolve`). A location that was
reached by a walk can be walked to from the root along its own names (`Firm`).
-/
namespace Inventory

/-- What a link says; none for any other node. -/
def Node.linkTarget? (n : Node) : Option Text :=
  match n.content with
  | .link target => some target
  | _ => none

theorem Node.linkTarget?_of_isDirectory {n : Node} (directory : n.isDirectory = true) : n.linkTarget? = none := by
  have content : n.content = .directory := by simpa [Node.isDirectory] using directory
  simp [Node.linkTarget?, content]

theorem Node.linkTarget?_eq_some {n : Node} {target : Text} :
    n.linkTarget? = some target ↔ n.content = .link target := by
  unfold Node.linkTarget?
  cases n.content <;> simp

theorem Node.content_ne_link {n : Node} (plain : n.linkTarget? = none) (target : Text) : n.content ≠ .link target :=
  fun link => by simp [Node.linkTarget?, link] at plain

/-- The steps along an absolute path. -/
def Path.steps (p : Path) : List Step := p.parts.map Spelling.stepOfComponent

@[simp] theorem Path.steps_child (p : Path) (n : Name) : (p.child n).steps = p.steps ++ [.child n] := by
  simp [Path.steps, Path.child, Spelling.stepOfComponent]

@[simp] theorem Path.steps_ofLocation (l : Location) : (Path.ofLocation l).steps = l.map .child := by
  simp [Path.steps, Path.ofLocation, Spelling.stepOfComponent]

@[simp] theorem Path.isAbsolute_child (p : Path) (n : Name) : (p.child n).isAbsolute = p.isAbsolute := rfl

@[simp] theorem Path.isAbsolute_ofLocation (l : Location) : (Path.ofLocation l).isAbsolute = true := rfl

theorem Path.ofLocation_append (l : Location) (n : Name) :
    Path.ofLocation (l ++ [n]) = (Path.ofLocation l).child n := by
  simp [Path.ofLocation, Path.child]

theorem bind_eq_ok {ε α β : Type} {x : Except ε α} {f : α → Except ε β} {b : β} (done : x.bind f = .ok b) :
    ∃ a, x = .ok a ∧ f a = .ok b := by
  cases x with
  | error _ => cases done
  | ok a => exact ⟨a, rfl, done⟩

namespace FileSystem

variable {fs : FileSystem}

theorem node?_eq_some_iff {l : Location} {n : Node} : fs.node? l = some n ↔ (l, n) ∈ fs.table :=
  Table.lookup_eq_some_iff fs.distinct

theorem hasDirectory_iff {l : Location} :
    fs.table.hasDirectory l = true ↔ ∃ n, fs.node? l = some n ∧ n.isDirectory = true := by
  rw [Table.hasDirectory_iff fs.distinct]
  simp only [node?_eq_some_iff]

theorem directory_root : ∃ n, fs.node? [] = some n ∧ n.isDirectory = true := hasDirectory_iff.1 fs.rooted

/-- All that is above a node is a directory. -/
theorem directory_take {l : Location} {n : Node} (found : fs.node? l = some n) {i : Nat} (above : i < l.length) :
    ∃ d, fs.node? (l.take i) = some d ∧ d.isDirectory = true :=
  hasDirectory_iff.1 (fs.enclosed _ (node?_eq_some_iff.1 found) i above)

theorem directory_of_append {l m : Location} {n : Node} (found : fs.node? (l ++ m) = some n) (below : m ≠ []) :
    ∃ d, fs.node? l = some d ∧ d.isDirectory = true := by
  have shorter : l.length < (l ++ m).length := by
    simpa using List.length_pos_iff.2 below
  simpa using directory_take found shorter

theorem node?_dropLast {l : Location} {n : Node} (found : fs.node? l = some n) :
    ∃ d, fs.node? l.dropLast = some d ∧ d.linkTarget? = none := by
  rcases List.eq_nil_or_concat l with rfl | ⟨above, last, rfl⟩
  · obtain ⟨d, root, directory⟩ : ∃ d, fs.node? [] = some d ∧ d.isDirectory = true := directory_root
    exact ⟨d, root, Node.linkTarget?_of_isDirectory directory⟩
  · rw [List.concat_eq_append] at found ⊢
    obtain ⟨d, there, directory⟩ := directory_of_append found (by simp)
    exact ⟨d, by simpa using there, Node.linkTarget?_of_isDirectory directory⟩

/-- A location has fewer names than there are nodes, since all that is above it are nodes too. -/
theorem length_lt_of_node? {l : Location} {n : Node} (found : fs.node? l = some n) :
    l.length < fs.table.length := by
  have distinct : ((List.range (l.length + 1)).map l.take).Nodup := by
    refine List.Nodup.map_on ?_ List.nodup_range
    intro i inside j inside' same
    have lengths := congrArg List.length same
    simp only [List.length_take, List.mem_range] at lengths inside inside'
    omega
  have covered : (List.range (l.length + 1)).map l.take ⊆ fs.table.locations := by
    intro m inside
    obtain ⟨i, bound, rfl⟩ := List.mem_map.1 inside
    rcases Nat.lt_or_eq_of_le (Nat.le_of_lt_succ (List.mem_range.1 bound)) with above | here
    · obtain ⟨d, there, _⟩ := directory_take found above
      exact List.mem_map.2 ⟨_, node?_eq_some_iff.1 there, rfl⟩
    · exact List.mem_map.2 ⟨_, node?_eq_some_iff.1 found, by simp [here]⟩
  have counted := (distinct.subperm covered).length_le
  simp only [List.length_map, List.length_range, Table.locations] at counted
  omega

theorem mem_names_iff {l : Location} {n : Name} : n ∈ fs.names l ↔ ∃ node, fs.node? (l ++ [n]) = some node := by
  simp only [names, List.mem_filterMap, node?_eq_some_iff]
  constructor
  · rintro ⟨⟨m, node⟩, inside, picked⟩
    split at picked
    · rename_i above
      obtain ⟨front, rfl⟩ := List.getLast?_eq_some_iff.1 picked
      rw [List.dropLast_concat] at above
      exact ⟨node, above ▸ inside⟩
    · cases picked
  · rintro ⟨node, inside⟩
    exact ⟨_, inside, by simp⟩

theorem nodup_names (l : Location) : (fs.names l).Nodup := by
  unfold names
  have distinct : (fs.table.map Prod.fst).Nodup := fs.distinct
  revert distinct
  generalize fs.table = t
  intro distinct
  induction t with
  | nil => simp
  | cons e t ih =>
    have fresh := (List.nodup_cons.1 distinct).1
    have rest := ih (List.nodup_cons.1 distinct).2
    rw [List.filterMap_cons]
    split
    · exact rest
    · rename_i n picked
      refine List.nodup_cons.2 ⟨fun again => fresh ?_, rest⟩
      obtain ⟨e', inside, picked'⟩ := List.mem_filterMap.1 again
      have same : e.1 = e'.1 := by
        split at picked <;> split at picked' <;> simp_all only [reduceCtorEq]
        rename_i above above'
        rw [← List.dropLast_append_getLast? n picked, ← List.dropLast_append_getLast? n picked', above, above']
      exact List.mem_map.2 ⟨e', inside, same.symm⟩

theorem length_names_le (l : Location) : (fs.names l).length ≤ fs.table.length := List.length_filterMap_le ..

/-! ## The rules of a walk -/

/-- Walking along steps from the first location, the system replaces so many
    links and arrives at the second. -/
inductive Leads (fs : FileSystem) : Location → List Step → Nat → Location → Prop
  | arrived (here : Location) : Leads fs here [] 0 here
  | insist {here there : Location} {rest : List Step} {links : Nat} :
      fs.insistDirectory here = .ok () → Leads fs here rest links there →
      Leads fs here (.insist :: rest) links there
  | stay {here there : Location} {rest : List Step} {links : Nat} :
      fs.searchable here = .ok () → Leads fs here rest links there → Leads fs here (.stay :: rest) links there
  | up {here there : Location} {rest : List Step} {links : Nat} :
      fs.searchable here = .ok () → Leads fs here.dropLast rest links there →
      Leads fs here (.up :: rest) links there
  | child {here there : Location} {n : Name} {rest : List Step} {links : Nat} {node : Node} :
      fs.searchable here = .ok () → fs.node? (here ++ [n]) = some node → node.linkTarget? = none →
      Leads fs (here ++ [n]) rest links there → Leads fs here (.child n :: rest) links there
  | link {here middle there : Location} {n : Name} {rest : List Step} {inner links : Nat} {node : Node}
      {target : Text} {spelling : Spelling} :
      fs.searchable here = .ok () → fs.node? (here ++ [n]) = some node → node.linkTarget? = some target →
      Spelling.ofText? target = some spelling →
      Leads fs (if spelling.fromRoot then [] else here) spelling.steps inner middle → Leads fs middle rest links there →
      Leads fs here (.child n :: rest) (inner + links + 1) there

/-- A step to a node that is no link goes there. -/
theorem Leads.of_plain {here there : Location} {n : Name} {node : Node} {rest : List Step} {links : Nat}
    (found : fs.node? (here ++ [n]) = some node) (plain : node.linkTarget? = none)
    (walk : fs.Leads here (.child n :: rest) links there) : fs.Leads (here ++ [n]) rest links there := by
  cases walk with
  | child _ _ _ walk => exact walk
  | link _ found' target =>
    rw [found] at found'
    cases found'
    rw [plain] at target
    cases target

/-- A step to a link goes where its target leads. -/
theorem Leads.of_link {here there : Location} {n : Name} {node : Node} {target : Text} {rest : List Step} {links : Nat}
    (found : fs.node? (here ++ [n]) = some node) (content : node.linkTarget? = some target)
    (walk : fs.Leads here (.child n :: rest) links there) :
    ∃ spelling inner middle links', Spelling.ofText? target = some spelling ∧
      fs.Leads (if spelling.fromRoot then [] else here) spelling.steps inner middle ∧
      fs.Leads middle rest links' there ∧ links = inner + links' + 1 := by
  cases walk with
  | child _ found' plain =>
    rw [found] at found'
    cases found'
    rw [content] at plain
    cases plain
  | link _ found' content' reads inside walk =>
    rw [found] at found'
    cases found'
    rw [content] at content'
    cases content'
    exact ⟨_, _, _, _, reads, inside, walk, rfl⟩

/-- A walk has one end and one number of links. -/
theorem Leads.unique {here there there' : Location} {steps : List Step} {links links' : Nat}
    (first : fs.Leads here steps links there) (second : fs.Leads here steps links' there') :
    links = links' ∧ there = there' := by
  induction first generalizing links' there' with
  | arrived here => cases second; exact ⟨rfl, rfl⟩
  | insist _ _ ih => cases second with | insist _ second => exact ih second
  | stay _ _ ih => cases second with | stay _ second => exact ih second
  | up _ _ ih => cases second with | up _ second => exact ih second
  | child _ found plain _ ih => exact ih (second.of_plain found plain)
  | link _ found target reads _ _ ihInner ih =>
    obtain ⟨_, _, _, _, reads', inner, second, rfl⟩ := second.of_link found target
    rw [reads] at reads'
    cases reads'
    obtain ⟨rfl, rfl⟩ := ihInner inner
    obtain ⟨rfl, rfl⟩ := ih second
    exact ⟨rfl, rfl⟩

theorem Leads.append {here middle there : Location} {steps rest : List Step} {first links : Nat}
    (front : fs.Leads here steps first middle) (back : fs.Leads middle rest links there) :
    fs.Leads here (steps ++ rest) (first + links) there := by
  induction front with
  | arrived here => simpa using back
  | insist directory _ ih => exact .insist directory (ih back)
  | stay searched _ ih => exact .stay searched (ih back)
  | up searched _ ih => exact .up searched (ih back)
  | child searched found plain _ ih => exact .child searched found plain (ih back)
  | link searched found target reads inner _ _ ih =>
    have whole := Leads.link searched found target reads inner (ih back)
    rwa [show ∀ i j k : Nat, i + (j + k) + 1 = i + j + 1 + k by omega] at whole

/-- A walk along two runs of steps passes the end of the first. -/
theorem Leads.split {here there : Location} {steps rest : List Step} {links : Nat}
    (whole : fs.Leads here (steps ++ rest) links there) :
    ∃ first middle second, fs.Leads here steps first middle ∧ fs.Leads middle rest second there ∧
      links = first + second := by
  induction steps generalizing here links with
  | nil => exact ⟨0, here, links, .arrived here, whole, by omega⟩
  | cons step steps ih =>
    cases whole with
    | insist directory tail =>
      obtain ⟨first, middle, second, front, back, count⟩ := ih tail
      exact ⟨first, middle, second, .insist directory front, back, count⟩
    | stay searched tail =>
      obtain ⟨first, middle, second, front, back, count⟩ := ih tail
      exact ⟨first, middle, second, .stay searched front, back, count⟩
    | up searched tail =>
      obtain ⟨first, middle, second, front, back, count⟩ := ih tail
      exact ⟨first, middle, second, .up searched front, back, count⟩
    | child searched found plain tail =>
      obtain ⟨first, middle, second, front, back, count⟩ := ih tail
      exact ⟨first, middle, second, .child searched found plain front, back, count⟩
    | link searched found target reads through tail =>
      obtain ⟨first, middle, second, front, back, count⟩ := ih tail
      exact ⟨_, middle, second, .link searched found target reads through front, back, by omega⟩

/-! ## The walk of the calls -/

section Resolve

variable {follow : Bool} {here : Location} {rest : List Step} {n : Name} {node : Node}

@[simp] theorem resolve_nil (links : Nat) : fs.resolve follow links here [] = .ok (.node here) := by
  cases links <;> rfl

theorem resolve_insist (links : Nat) :
    fs.resolve follow links here (.insist :: rest) =
      (fs.insistDirectory here).bind fun _ => fs.resolve follow links here rest := by
  cases links <;> rfl

theorem resolve_stay (links : Nat) :
    fs.resolve follow links here (.stay :: rest) =
      (fs.searchable here).bind fun _ => fs.resolve follow links here rest := by
  cases links <;> rfl

theorem resolve_up (links : Nat) :
    fs.resolve follow links here (.up :: rest) =
      (fs.searchable here).bind fun _ => fs.resolve follow links here.dropLast rest := by
  cases links <;> rfl

theorem resolve_missing (missing : fs.node? (here ++ [n]) = none) (links : Nat) :
    fs.resolve follow links here (.child n :: rest) =
      (fs.searchable here).bind fun _ => if rest = [] then .ok (.vacant here n) else .error .noEntry := by
  cases links <;> simp [resolve, advance, missing, bind]

theorem resolve_child (found : fs.node? (here ++ [n]) = some node) (plain : node.linkTarget? = none) (links : Nat) :
    fs.resolve follow links here (.child n :: rest) =
      (fs.searchable here).bind fun _ => fs.resolve follow links (here ++ [n]) rest := by
  have noLink := Node.content_ne_link plain
  cases links <;> simp only [resolve, advance, found, bind]

/-- A link is replaced if it is not the last step, or if the last one is followed too. -/
theorem resolve_link {target : Text} (found : fs.node? (here ++ [n]) = some node)
    (content : node.linkTarget? = some target) (through : rest = [] → follow = true) (links : Nat) :
    fs.resolve follow links here (.child n :: rest) =
      (fs.searchable here).bind fun _ =>
        match links, Spelling.ofText? target with
        | 0, _ => .error .linkLoop
        | _ + 1, none => .error .noEntry
        | links + 1, some spelling =>
          fs.resolve follow links (if spelling.fromRoot then [] else here) (spelling.steps ++ rest) := by
  have link := Node.linkTarget?_eq_some.1 content
  have replaced : ¬ (rest = [] ∧ follow = false) := fun ⟨last, kept⟩ => by simp [through last] at kept
  cases links <;> simp only [resolve, advance, found, link, bind, if_neg replaced]
  congr 1
  funext _
  cases Spelling.ofText? target <;> rfl

/-- A last step to a child that is not followed ends at the child. -/
theorem resolve_last (found : fs.node? (here ++ [n]) = some node) (links : Nat) :
    fs.resolve false links here [.child n] = (fs.searchable here).bind fun _ => .ok (.node (here ++ [n])) := by
  cases content : node.linkTarget? with
  | none => simp [resolve_child found content]
  | some target =>
    have link := Node.linkTarget?_eq_some.1 content
    cases links <;> simp [resolve, advance, found, link, bind]

theorem resolve_last_eq_ok_iff {links : Nat} {there : Location} :
    fs.resolve false links here [.child n] = .ok (.node there) ↔
      fs.searchable here = .ok () ∧ (∃ node, fs.node? (here ++ [n]) = some node) ∧ there = here ++ [n] := by
  cases found : fs.node? (here ++ [n]) with
  | none =>
    rw [resolve_missing found]
    cases fs.searchable here <;> simp [Except.bind]
  | some node =>
    rw [resolve_last found]
    cases fs.searchable here <;> simp [Except.bind, eq_comm]

end Resolve

/-- As far as a walk leads, the calls get with as many links to spare. -/
theorem resolve_of_leads {here there : Location} {steps : List Step} {links : Nat}
    (walk : fs.Leads here steps links there) (follow : Bool) (more : Nat) (rest : List Step)
    (through : rest = [] → follow = true) :
    fs.resolve follow (more + links) here (steps ++ rest) = fs.resolve follow more there rest := by
  induction walk generalizing more rest with
  | arrived here => rfl
  | insist directory _ ih =>
    rw [List.cons_append, resolve_insist, directory]
    exact ih more rest through
  | stay searched _ ih =>
    rw [List.cons_append, resolve_stay, searched]
    exact ih more rest through
  | up searched _ ih =>
    rw [List.cons_append, resolve_up, searched]
    exact ih more rest through
  | child searched found plain _ ih =>
    rw [List.cons_append, resolve_child found plain, searched]
    exact ih more rest through
  | @link here middle there n steps inner links node target spelling searched found content reads _ _ ihInner ih =>
    have ahead : steps ++ rest = [] → follow = true := fun nothing => through (List.append_eq_nil_iff.1 nothing).2
    have count : more + (inner + links + 1) = (more + links + inner) + 1 := by omega
    rw [List.cons_append, count, resolve_link found content ahead, searched]
    simp only [Except.bind, reads]
    exact (ihInner (more + links) (steps ++ rest) ahead).trans (ih more rest through)

/-- Where the calls get past the first steps, a walk leads there; the rest is
    walked with the links that are left. -/
theorem leads_of_resolve {follow : Bool} {links : Nat} {here : Location} {steps rest : List Step} {found : Found}
    (walked : fs.resolve follow links here (steps ++ rest) = .ok found)
    (whole : rest = [] → follow = true ∧ ∃ l, found = .node l) :
    ∃ used there, used ≤ links ∧ fs.Leads here steps used there ∧
      fs.resolve follow (links - used) there rest = .ok found := by
  induction links using Nat.strongRecOn generalizing here steps rest with
  | ind links outer =>
    induction steps generalizing here with
    | nil => exact ⟨0, here, Nat.zero_le _, .arrived here, walked⟩
    | cons step steps ih =>
      rw [List.cons_append] at walked
      cases step with
      | insist =>
        rw [resolve_insist] at walked
        obtain ⟨_, directory, walked⟩ := bind_eq_ok walked
        obtain ⟨used, there, few, front, back⟩ := ih walked
        exact ⟨used, there, few, .insist directory front, back⟩
      | stay =>
        rw [resolve_stay] at walked
        obtain ⟨_, searched, walked⟩ := bind_eq_ok walked
        obtain ⟨used, there, few, front, back⟩ := ih walked
        exact ⟨used, there, few, .stay searched front, back⟩
      | up =>
        rw [resolve_up] at walked
        obtain ⟨_, searched, walked⟩ := bind_eq_ok walked
        obtain ⟨used, there, few, front, back⟩ := ih walked
        exact ⟨used, there, few, .up searched front, back⟩
      | child n =>
        cases there? : fs.node? (here ++ [n]) with
        | none =>
          rw [resolve_missing there?] at walked
          obtain ⟨_, _, walked⟩ := bind_eq_ok walked
          split at walked
          · rename_i last
            obtain ⟨_, l, vacant⟩ := whole (List.append_eq_nil_iff.1 last).2
            rw [vacant] at walked
            cases walked
          · cases walked
        | some node =>
          cases content : node.linkTarget? with
          | none =>
            rw [resolve_child there? content] at walked
            obtain ⟨_, searched, walked⟩ := bind_eq_ok walked
            obtain ⟨used, there, few, front, back⟩ := ih walked
            exact ⟨used, there, few, .child searched there? content front, back⟩
          | some target =>
            rw [resolve_link there? content fun last => (whole (List.append_eq_nil_iff.1 last).2).1] at walked
            obtain ⟨_, searched, walked⟩ := bind_eq_ok walked
            cases links with
            | zero => cases walked
            | succ links =>
              cases reads : Spelling.ofText? target with
              | none => simp [reads] at walked
              | some spelling =>
                simp only [reads] at walked
                obtain ⟨inner, middle, few, through, walked⟩ :=
                  outer links (by omega) walked fun last => whole (List.append_eq_nil_iff.1 last).2
                obtain ⟨used, there, few', front, back⟩ := outer (links - inner) (by omega) walked whole
                refine ⟨inner + used + 1, there, by omega, .link searched there? content reads through front, ?_⟩
                rwa [show links + 1 - (inner + used + 1) = links - inner - used by omega]

/-- The same for a walk that does not follow a link at its end and arrives at something else. -/
theorem leads_of_resolve_plain {links : Nat} {here there : Location} {steps : List Step} {node : Node}
    (walked : fs.resolve false links here steps = .ok (.node there)) (found : fs.node? there = some node)
    (plain : node.linkTarget? = none) : ∃ used ≤ links, fs.Leads here steps used there := by
  rcases List.eq_nil_or_concat steps with rfl | ⟨front, last, rfl⟩
  · simp only [resolve_nil, Except.ok.injEq, Found.node.injEq] at walked
    exact ⟨0, Nat.zero_le _, walked ▸ .arrived here⟩
  · rw [List.concat_eq_append] at walked ⊢
    obtain ⟨used, middle, few, onward, walked⟩ := leads_of_resolve walked (by simp)
    suffices ends : fs.Leads middle [last] 0 there from ⟨used, few, onward.append ends⟩
    cases last with
    | insist =>
      rw [resolve_insist] at walked
      obtain ⟨_, directory, walked⟩ := bind_eq_ok walked
      simp only [resolve_nil, Except.ok.injEq, Found.node.injEq] at walked
      exact .insist directory (walked ▸ .arrived _)
    | stay =>
      rw [resolve_stay] at walked
      obtain ⟨_, searched, walked⟩ := bind_eq_ok walked
      simp only [resolve_nil, Except.ok.injEq, Found.node.injEq] at walked
      exact .stay searched (walked ▸ .arrived _)
    | up =>
      rw [resolve_up] at walked
      obtain ⟨_, searched, walked⟩ := bind_eq_ok walked
      simp only [resolve_nil, Except.ok.injEq, Found.node.injEq] at walked
      exact .up searched (walked ▸ .arrived _)
    | child n =>
      obtain ⟨searched, -, rfl⟩ := resolve_last_eq_ok_iff.1 walked
      exact .child searched found plain (.arrived _)

/-! ## Locations that can be walked to -/

/-- All that is above the location is a directory that may be searched. -/
def Passable (fs : FileSystem) (l : Location) : Prop := ∀ i < l.length, fs.searchable (l.take i) = .ok ()

theorem passable_root : fs.Passable [] := fun _ above => absurd above (Nat.not_lt_zero _)

theorem Passable.child {l : Location} (passable : fs.Passable l) (searched : fs.searchable l = .ok ()) (n : Name) :
    fs.Passable (l ++ [n]) := by
  intro i above
  rw [List.length_append, List.length_singleton] at above
  rw [List.take_append_of_le_length (by omega)]
  rcases Nat.lt_or_eq_of_le (Nat.le_of_lt_succ above) with less | same
  · exact passable i less
  · rw [same, List.take_length]; exact searched

theorem Passable.of_append {l m : Location} (passable : fs.Passable (l ++ m)) : fs.Passable l := by
  intro i above
  have whole := passable i (by rw [List.length_append]; omega)
  rwa [List.take_append_of_le_length (by omega)] at whole

theorem Passable.dropLast {l : Location} (passable : fs.Passable l) : fs.Passable l.dropLast := by
  rcases List.eq_nil_or_concat l with rfl | ⟨above, last, rfl⟩
  · exact passable
  · rw [List.concat_eq_append] at passable ⊢
    simpa using passable.of_append

theorem Passable.searchable {l m : Location} (passable : fs.Passable (l ++ m)) (below : m ≠ []) :
    fs.searchable l = .ok () := by
  have shorter : l.length < (l ++ m).length := by simpa using List.length_pos_iff.2 below
  simpa using passable l.length shorter

/-- A walk that starts where it can be walked to ends so. -/
theorem Leads.passable {here there : Location} {steps : List Step} {links : Nat}
    (walk : fs.Leads here steps links there) (start : fs.Passable here) : fs.Passable there := by
  induction walk with
  | arrived here => exact start
  | insist _ _ ih => exact ih start
  | stay _ _ ih => exact ih start
  | up _ _ ih => exact ih start.dropLast
  | child searched _ _ _ ih => exact ih (start.child searched _)
  | link _ _ _ _ _ _ ihInner ih =>
    refine ih (ihInner ?_)
    split
    · exact passable_root
    · exact start

/-- Where there is a node other than a link. -/
def Solid (fs : FileSystem) (l : Location) : Prop := ∃ node, fs.node? l = some node ∧ node.linkTarget? = none

theorem solid_root : fs.Solid [] := by
  obtain ⟨d, there, directory⟩ : ∃ d, fs.node? [] = some d ∧ d.isDirectory = true := directory_root
  exact ⟨d, there, Node.linkTarget?_of_isDirectory directory⟩

theorem solid_of_append {l m : Location} {n : Node} (found : fs.node? (l ++ m) = some n) (below : m ≠ []) :
    fs.Solid l := by
  obtain ⟨d, there, directory⟩ := directory_of_append found below
  exact ⟨d, there, Node.linkTarget?_of_isDirectory directory⟩

/-- A walk that starts at a node other than a link ends so. -/
theorem Leads.solid {here there : Location} {steps : List Step} {links : Nat}
    (walk : fs.Leads here steps links there) (start : fs.Solid here) : fs.Solid there := by
  induction walk with
  | arrived here => exact start
  | insist _ _ ih => exact ih start
  | stay _ _ ih => exact ih start
  | up _ _ ih =>
    obtain ⟨_, found, _⟩ := start
    exact ih (node?_dropLast found)
  | child _ found plain _ ih => exact ih ⟨_, found, plain⟩
  | link _ _ _ _ _ _ ihInner ih =>
    refine ih (ihInner ?_)
    split
    · exact solid_root
    · exact start

/-- From above, the names of a location lead there without a link. -/
theorem leads_names {above names : Location} (passable : fs.Passable (above ++ names))
    (solid : fs.Solid (above ++ names)) : fs.Leads above (names.map .child) 0 (above ++ names) := by
  induction names generalizing above with
  | nil => simpa using Leads.arrived above
  | cons n names ih =>
    have searched : fs.searchable above = .ok () := passable.searchable (by simp)
    rw [List.append_cons] at passable solid ⊢
    have next : fs.Solid (above ++ [n]) := by
      by_cases last : names = []
      · simpa [last] using solid
      · obtain ⟨node, found, _⟩ := solid
        exact solid_of_append found last
    obtain ⟨node, found, plain⟩ := next
    exact .child searched found plain (ih passable solid)

/-- The location can be walked to and is not a link. -/
def Firm (fs : FileSystem) (l : Location) : Prop := fs.Passable l ∧ fs.Solid l

theorem firm_root : fs.Firm [] := ⟨passable_root, solid_root⟩

theorem Firm.dropLast {l : Location} (firm : fs.Firm l) : fs.Firm l.dropLast := by
  obtain ⟨passable, node, found, _⟩ := firm
  exact ⟨passable.dropLast, node?_dropLast found⟩

theorem Leads.firm {here there : Location} {steps : List Step} {links : Nat}
    (walk : fs.Leads here steps links there) (start : fs.Firm here) : fs.Firm there :=
  ⟨walk.passable start.1, walk.solid start.2⟩

theorem find_absolute {p : Path} (absolute : p.isAbsolute = true) (follow : Bool) :
    fs.find follow p = fs.resolve follow linkLimit [] p.steps := by
  have rooted : ¬ (p.root = .relative ∧ p.parts = []) := fun ⟨relative, _⟩ => by
    simp [Path.isAbsolute, relative] at absolute
  simp [find, Spelling.ofPath, rooted, absolute, Path.steps, bind, Except.bind]

theorem locate_eq_ok_iff {p : Path} (absolute : p.isAbsolute = true) {follow : Bool} {l : Location} :
    fs.locate follow p = .ok l ↔ fs.resolve follow linkLimit [] p.steps = .ok (.node l) := by
  simp only [locate, find_absolute absolute, bind]
  rcases fs.resolve follow linkLimit [] p.steps with _ | (_ | _) <;> simp [Except.bind]

/-- A path that is followed names the end of a walk. -/
theorem locate_followed_iff {p : Path} (absolute : p.isAbsolute = true) {l : Location} :
    fs.locate true p = .ok l ↔ ∃ links ≤ linkLimit, fs.Leads [] p.steps links l := by
  rw [locate_eq_ok_iff absolute]
  constructor
  · intro walked
    rw [← List.append_nil p.steps] at walked
    obtain ⟨used, there, few, walk, ends⟩ := leads_of_resolve walked fun _ => ⟨rfl, l, rfl⟩
    simp only [resolve_nil, Except.ok.injEq, Found.node.injEq] at ends
    exact ⟨used, few, ends ▸ walk⟩
  · rintro ⟨links, few, walk⟩
    have whole := resolve_of_leads walk true (linkLimit - links) [] fun _ => rfl
    rwa [List.append_nil, resolve_nil, Nat.sub_add_cancel few] at whole

/-- The path of a child names the child in the directory that the path leads to. -/
theorem locate_child_iff {p : Path} (absolute : p.isAbsolute = true) {n : Name} {l : Location} :
    fs.locate false (p.child n) = .ok l ↔
      ∃ d, fs.locate true p = .ok d ∧ fs.searchable d = .ok () ∧ (∃ node, fs.node? (d ++ [n]) = some node) ∧
        l = d ++ [n] := by
  rw [locate_eq_ok_iff (by simpa using absolute), Path.steps_child]
  constructor
  · intro walked
    obtain ⟨used, d, few, walk, ends⟩ := leads_of_resolve walked (by simp)
    exact ⟨d, (locate_followed_iff absolute).2 ⟨used, few, walk⟩, resolve_last_eq_ok_iff.1 ends⟩
  · rintro ⟨d, followed, ends⟩
    obtain ⟨used, few, walk⟩ := (locate_followed_iff absolute).1 followed
    have whole := resolve_of_leads walk false (linkLimit - used) [.child n] (by simp)
    rw [Nat.sub_add_cancel few] at whole
    rw [whole]
    exact resolve_last_eq_ok_iff.2 ends

/-- A path that names something else than a link leads there. -/
theorem locate_followed_of_plain {p : Path} (absolute : p.isAbsolute = true) {l : Location} {node : Node}
    (named : fs.locate false p = .ok l) (found : fs.node? l = some node) (plain : node.linkTarget? = none) :
    fs.locate true p = .ok l := by
  rw [locate_eq_ok_iff absolute] at named
  obtain ⟨used, few, walk⟩ := leads_of_resolve_plain named found plain
  exact (locate_followed_iff absolute).2 ⟨used, few, walk⟩

theorem firm_of_locate_followed {p : Path} (absolute : p.isAbsolute = true) {l : Location}
    (followed : fs.locate true p = .ok l) : fs.Firm l := by
  obtain ⟨_, _, walk⟩ := (locate_followed_iff absolute).1 followed
  exact walk.firm firm_root

theorem locate_followed_ofLocation {l : Location} (firm : fs.Firm l) : fs.locate true (.ofLocation l) = .ok l := by
  rw [locate_followed_iff rfl, Path.steps_ofLocation]
  have walk : fs.Leads [] (l.map .child) 0 ([] ++ l) := leads_names firm.1 firm.2
  exact ⟨0, Nat.zero_le _, walk⟩

/-- The path that spells a location names the node there. -/
theorem locate_ofLocation {l : Location} {node : Node} (passable : fs.Passable l) (found : fs.node? l = some node) :
    fs.locate false (.ofLocation l) = .ok l := by
  rcases List.eq_nil_or_concat l with rfl | ⟨above, last, rfl⟩
  · rw [locate_eq_ok_iff rfl, Path.steps_ofLocation]
    exact resolve_nil _
  · rw [List.concat_eq_append] at passable found ⊢
    rw [Path.ofLocation_append, locate_child_iff rfl]
    have directory : fs.Solid above := solid_of_append found (by simp)
    exact ⟨above, locate_followed_ofLocation ⟨passable.of_append, directory⟩, passable.searchable (by simp),
      ⟨node, found⟩, rfl⟩

theorem nodeFor_eq_ok_iff {call : Call} {l : Location} {node : Node} :
    fs.nodeFor call l = .ok node ↔ fs.node? l = some node ∧ node.fault? call = none := by
  unfold nodeFor
  cases fs.node? l with
  | none => simp
  | some there =>
    cases fault : there.fault? call with
    | none =>
      simp only [fault, Except.ok.injEq, Option.some.injEq]
      constructor
      · rintro rfl
        exact ⟨rfl, fault⟩
      · rintro ⟨rfl, _⟩
        rfl
    | some e =>
      simp only [fault, reduceCtorEq, Option.some.injEq, false_iff, not_and]
      rintro rfl
      simp [fault]

theorem lstat_eq_ok_iff {p : Path} {node : Node} :
    fs.lstat p = .ok node ↔ ∃ l, fs.locate false p = .ok l ∧ fs.nodeFor .lstat l = .ok node := by
  unfold lstat
  cases fs.locate false p <;> simp [bind, Except.bind]

theorem lstat_of_locate {p : Path} {l : Location} (named : fs.locate false p = .ok l) :
    fs.lstat p = fs.nodeFor .lstat l := by
  simp [lstat, named, bind, Except.bind]

theorem stat_eq_ok_iff {p : Path} {node : Node} :
    fs.stat p = .ok node ↔ ∃ l, fs.locate true p = .ok l ∧ fs.nodeFor .stat l = .ok node := by
  unfold stat
  cases fs.locate true p <;> simp [bind, Except.bind]

theorem list_eq_ok_iff {p : Path} {names : List Name} :
    fs.list p = .ok names ↔ ∃ l node, fs.locate true p = .ok l ∧ fs.nodeFor .openNode l = .ok node ∧
      node.isDirectory = true ∧ names = fs.names l := by
  unfold list
  cases fs.locate true p with
  | error _ => simp [bind, Except.bind]
  | ok l =>
    cases opened : fs.nodeFor .openNode l with
    | error _ => simp [bind, Except.bind, opened]
    | ok node =>
      simp only [bind, Except.bind, opened, Except.ok.injEq, exists_and_left, exists_eq_left']
      split
      · rename_i directory
        simp [directory, eq_comm]
      · rename_i other
        simp [other]

theorem searchable_eq_ok_iff {l : Location} :
    fs.searchable l = .ok () ↔ ∃ d, fs.node? l = some d ∧ d.isDirectory = true ∧ d.fault? .search = none := by
  unfold searchable
  cases fs.node? l with
  | none => simp
  | some d => cases directory : d.isDirectory <;> cases fault : d.fault? .search <;> simp [directory, fault]

end FileSystem
end Inventory
