import Inventory.Canonical
import Inventory.Proofs.Reading
import Mathlib.Data.List.Induction

/-!
A text that can be read strictly goes step by step as `FileSystem.Reads` says, and the
path read so far spells a location without a link in it. So the strict form of an
absolute path is where the path leads if it leads anywhere, and the lenient form is the
same (`FileSystem.strictForm_firm`). Without faults whatever has a reading can be read:
the links that are being resolved are met again in no shorter reading, so none of them
is a loop (`Canonical.settle_of_reads`).
-/
namespace Inventory

namespace Path

theorem above_ofLocation (l : Location) : (ofLocation l).above = ofLocation l.dropLast := by
  simp [above, ofLocation, parent, List.map_dropLast]

theorem absolute_of_isAbsolute {p : Path} (rooted : p.isAbsolute = true) (directory : Path) :
    p.absolute directory = p.normal := by
  have notRelative : p.root ≠ .relative := by simpa [isAbsolute] using rooted
  simp [absolute, join, notRelative]

theorem normal_child (p : Path) (n : Name) : (p.child n).normal = p.normal.child n := by
  simp [normal, child, List.foldl_append]

theorem normal_ofLocation (l : Location) : (ofLocation l).normal = ofLocation l := by
  induction l using List.reverseRecOn with
  | nil => rfl
  | append_singleton l n ih => rw [ofLocation_append, normal_child, ih]

theorem absolute_ofLocation (l : Location) (directory : Path) : (ofLocation l).absolute directory = ofLocation l := by
  rw [absolute_of_isAbsolute rfl, normal_ofLocation]

theorem ofLocation_injective {l m : Location} (same : ofLocation l = ofLocation m) : l = m := by
  have parts : l.map Component.name = m.map Component.name := congrArg Path.parts same
  exact List.map_injective_iff.2 (fun _ _ equal => Component.name.inj equal) parts

theorem ofLocation_under_iff {l m : Location} : (ofLocation l).Under (ofLocation m) ↔ m <+: l := by
  constructor
  · rintro ⟨_, rest, parts⟩
    simp only [ofLocation] at parts
    obtain ⟨front, back, rfl, same, _⟩ := List.map_eq_append_iff.1 parts.symm
    exact ⟨back, by rw [List.map_injective_iff.2 (fun _ _ equal => Component.name.inj equal) same]⟩
  · rintro ⟨rest, rfl⟩
    exact ⟨rfl, by simp [ofLocation]⟩

end Path

namespace Component

theorem ofText?_eq_up {t : Text} (up : ofText? t = some .up) : t = ['.', '.'] := by
  unfold ofText? at up
  split at up
  · assumption
  · cases h : Name.ofText? t <;> simp [h] at up

theorem ofText?_eq_name {t : Text} {n : Name} (name : ofText? t = some (.name n)) : t = n.text := by
  unfold ofText? at name
  split at name
  · cases name
  · obtain ⟨m, named, same⟩ := Option.map_eq_some_iff.1 name
    cases same
    unfold Name.ofText? at named
    split at named
    · cases named; rfl
    · cases named

theorem ofText?_text (c : Component) : ofText? c.text = some c := by
  cases c with
  | up => rfl
  | name n =>
    have proper := n.proper
    simp [ofText?, text, Name.ofText?, proper]

theorem noSlash_text (c : Component) : '/' ∉ c.text ∧ c.text ≠ [] := by
  cases c with
  | up => decide
  | name n => exact ⟨n.proper.2.2.2, n.proper.1⟩

end Component

namespace Path

theorem head?_joined_ne_slash (parts : List Component) :
    (Text.joined '/' (parts.map Component.text)).head? ≠ some '/' := by
  cases parts with
  | nil => simp [Text.joined]
  | cons c rest =>
    obtain ⟨absent, shown⟩ := c.noSlash_text
    obtain ⟨first, more, spelled⟩ := List.exists_cons_of_ne_nil shown
    rw [spelled] at absent
    have other : first ≠ '/' := fun slash => absent (slash ▸ List.mem_cons_self)
    cases rest with
    | nil => simpa [Text.joined, spelled] using other
    | cons d rest => simpa [Text.joined, spelled] using other

theorem components_joined (parts : List Component) :
    (Text.cut '/' (Text.joined '/' (parts.map Component.text))).filterMap Component.ofText? = parts := by
  by_cases empty : parts = []
  · subst empty
    rfl
  · rw [Text.cut_joined (by simpa using empty) (by simpa using fun c _ => c.noSlash_text.1)]
    simp [List.filterMap_map, Component.ofText?_text]

theorem root_ofText (root : Root) {body : Text} (plain : body.head? ≠ some '/') :
    Root.ofText (root.text ++ body) = root := by
  cases root <;> rcases body with _ | ⟨first, rest⟩ <;> simp_all [Root.text, Root.ofText]

/-- A path is what its text spells. -/
theorem ofText_text (p : Path) : ofText p.text = p := by
  obtain ⟨root, parts⟩ := p
  unfold text
  split
  · rename_i bare
    obtain ⟨rfl, rfl⟩ := bare
    rfl
  · have body := components_joined parts
    have start := root_ofText root (head?_joined_ne_slash parts)
    have slash (t : Text) : Text.cut '/' ('/' :: t) = [] :: Text.cut '/' t := by simp [Text.cut]
    have blank : Component.ofText? [] = none := rfl
    rw [ofText, start]
    congr 1
    cases root <;> simpa [Root.text, slash, blank] using body

theorem text_injective {p q : Path} (same : p.text = q.text) : p = q := by
  rw [← ofText_text p, same, ofText_text]

theorem text_ne_nil (p : Path) : p.text ≠ [] := by
  intro empty
  have spelled : p = ofText [] := by rw [← empty, ofText_text]
  rw [spelled] at empty
  exact absurd empty (by decide)

end Path
namespace Spelling

theorem stepOfText?_of_component {t : Text} {c : Component} (read : Component.ofText? t = some c) :
    stepOfText? t = some (stepOfComponent c) := by
  have shown : t ≠ [] ∧ t ≠ ['.'] := by
    cases c with
    | up => rw [Component.ofText?_eq_up read]; decide
    | name n => rw [Component.ofText?_eq_name read]; exact ⟨n.proper.1, n.proper.2.1⟩
  unfold stepOfText?
  rw [if_neg shown.1, if_neg shown.2, read]
  cases c <;> rfl

theorem stepOfText?_of_none {t : Text} (read : Component.ofText? t = none) :
    stepOfText? t = none ∨ stepOfText? t = some .stay := by
  unfold stepOfText?
  split
  · exact .inl rfl
  · split
    · exact .inr rfl
    · rw [read]; exact .inl rfl

theorem stepsOf_texts (parts : List Component) : stepsOf (parts.map Component.text) = parts.map stepOfComponent := by
  induction parts with
  | nil => rfl
  | cons c parts ih =>
    rw [List.map_cons, stepsOf, List.filterMap_cons_some (stepOfText?_of_component (Component.ofText?_text c))]
    exact congrArg _ ih

end Spelling

namespace Canonical

section Settle

variable {fs : FileSystem} {policy : Policy} {opened : List Path} {inner : List Path → Path → Text → Outcome}
  {here : Path} {piece : Text} {rest : List Text} {n : Name} {node : Node}

theorem settle_skip (read : Component.ofText? piece = none) :
    settle fs policy opened inner here (piece :: rest) = settle fs policy opened inner here rest := by
  simp [settle, read]

theorem settle_up (read : Component.ofText? piece = some .up) :
    settle fs policy opened inner here (piece :: rest) = settle fs policy opened inner here.above rest := by
  simp [settle, read]

theorem settle_strict_missing (read : Component.ofText? piece = some (.name n)) {e : Errno}
    (asked : fs.lstat (here.child n) = .error e) :
    settle fs .strict opened inner here (piece :: rest) = .failed (here.child n) e := by
  simp [settle, read, asked]

theorem settle_lenient_missing (read : Component.ofText? piece = some (.name n)) {e : Errno}
    (asked : fs.lstat (here.child n) = .error e) :
    settle fs .lenient opened inner here (piece :: rest) = settle fs .lenient opened inner (here.child n) rest := by
  simp [settle, read, asked]

theorem settle_plain (read : Component.ofText? piece = some (.name n)) (asked : fs.lstat (here.child n) = .ok node)
    (plain : node.linkTarget? = none) :
    settle fs policy opened inner here (piece :: rest) = settle fs policy opened inner (here.child n) rest := by
  have noLink := Node.content_ne_link plain
  simp only [settle, read, asked]

theorem settle_link (read : Component.ofText? piece = some (.name n)) (asked : fs.lstat (here.child n) = .ok node)
    {target : Text} (content : node.linkTarget? = some target) (fresh : here.child n ∉ opened) :
    settle fs policy opened inner here (piece :: rest) =
      match inner (here.child n :: opened) here target with
      | .settled p => settle fs policy opened inner p rest
      | .looping p => .looping (p.join (Path.ofText (Text.joined '/' rest)))
      | .failed p e => .failed p e
      | .endless => .endless := by
  have link := Node.linkTarget?_eq_some.1 content
  cases expanded : inner (here.child n :: opened) here target <;>
    simp only [settle, read, asked, link, if_neg fresh, expanded]

variable (inner rest) in
theorem settle_strict_loop (read : Component.ofText? piece = some (.name n))
    (asked : fs.lstat (here.child n) = .ok node) {target : Text} (content : node.linkTarget? = some target)
    (again : here.child n ∈ opened) :
    ∃ e, settle fs .strict opened inner here (piece :: rest) = .failed (here.child n) e := by
  have link := Node.linkTarget?_eq_some.1 content
  simp only [settle, read, asked, link, if_pos again]
  exact ⟨_, rfl⟩

theorem settle_loop_ne_settled (read : Component.ofText? piece = some (.name n))
    (asked : fs.lstat (here.child n) = .ok node) {target : Text} (content : node.linkTarget? = some target)
    (again : here.child n ∈ opened) (q : Path) :
    settle fs policy opened inner here (piece :: rest) ≠ .settled q := by
  have link := Node.linkTarget?_eq_some.1 content
  simp only [settle, read, asked, link, if_pos again]
  cases policy <;> exact fun settled => nomatch settled

end Settle

/-! ## Reading strictly -/

variable {fs : FileSystem}

theorem lstat_child_iff {h : Location} (firm : fs.Firm h) {n : Name} {node : Node} :
    fs.lstat ((Path.ofLocation h).child n) = .ok node ↔
      fs.searchable h = .ok () ∧ fs.nodeFor .lstat (h ++ [n]) = .ok node := by
  rw [FileSystem.lstat_eq_ok_iff]
  constructor
  · rintro ⟨l, named, asked⟩
    obtain ⟨d, followed, searched, _, rfl⟩ := (FileSystem.locate_child_iff rfl).1 named
    rw [FileSystem.locate_followed_ofLocation firm] at followed
    cases followed
    exact ⟨searched, asked⟩
  · rintro ⟨searched, asked⟩
    have found := (FileSystem.nodeFor_eq_ok_iff.1 asked).1
    exact ⟨_, (FileSystem.locate_child_iff rfl).2
      ⟨h, FileSystem.locate_followed_ofLocation firm, searched, ⟨node, found⟩, rfl⟩, asked⟩

/-- The path spells the location where steps read from another one. -/
def ReadsTo (fs : FileSystem) (h : Location) (steps : List Step) (q : Path) : Prop :=
  ∃ t links against, q = .ofLocation t ∧ fs.Reads h steps links against t

/-- The resolution of what a link says follows its text. -/
def Literal (fs : FileSystem) (inner : List Path → Path → Text → Outcome) : Prop :=
  ∀ opened h target q, fs.Firm h → inner opened (.ofLocation h) target = .settled q →
    ReadsTo fs (FileSystem.startOfTarget h target) (Spelling.stepsOfText target) q

theorem readsTo_of_settle {inner : List Path → Path → Text → Outcome} (literal : Literal fs inner)
    {opened : List Path} {pieces : List Text} {h : Location} {q : Path} (firm : fs.Firm h)
    (settled : settle fs .strict opened inner (.ofLocation h) pieces = .settled q) :
    ReadsTo fs h (Spelling.stepsOf pieces) q := by
  induction pieces generalizing h with
  | nil =>
    cases settled
    exact ⟨h, _, _, rfl, .arrived h⟩
  | cons piece rest ih =>
    cases read : Component.ofText? piece with
    | none =>
      rw [settle_skip read] at settled
      obtain ⟨t, links, against, same, reading⟩ := ih firm settled
      rcases Spelling.stepOfText?_of_none read with nothing | stay
      · rw [Spelling.stepsOf, List.filterMap_cons_none nothing]
        exact ⟨t, _, _, same, reading⟩
      · rw [Spelling.stepsOf, List.filterMap_cons_some stay]
        exact ⟨t, _, _, same, .stay reading⟩
    | some component =>
      have step := List.filterMap_cons_some (l := rest) (Spelling.stepOfText?_of_component read)
      rw [Spelling.stepsOf, step]
      cases component with
      | up =>
        rw [settle_up read, Path.above_ofLocation] at settled
        obtain ⟨t, links, against, same, reading⟩ := ih firm.dropLast settled
        exact ⟨t, _, _, same, .up reading⟩
      | name n =>
        cases asked : fs.lstat ((Path.ofLocation h).child n) with
        | error e =>
          rw [settle_strict_missing read asked] at settled
          cases settled
        | ok node =>
          obtain ⟨searched, here⟩ := (lstat_child_iff firm).1 asked
          have found := (FileSystem.nodeFor_eq_ok_iff.1 here).1
          cases content : node.linkTarget? with
          | none =>
            rw [settle_plain read asked content, ← Path.ofLocation_append] at settled
            obtain ⟨t, links, against, same, reading⟩ := ih ⟨firm.1.child searched n, node, found, content⟩ settled
            exact ⟨t, _, _, same, .child searched found content reading⟩
          | some target =>
            by_cases again : (Path.ofLocation h).child n ∈ opened
            · obtain ⟨e, failed⟩ := settle_strict_loop inner rest read asked content again
              rw [failed] at settled
              cases settled
            · rw [settle_link read asked content again] at settled
              split at settled
              · rename_i p expanded
                obtain ⟨middle, _, _, rfl, inside⟩ := literal _ h target p firm expanded
                obtain ⟨t, links, against, same, reading⟩ := ih (inside.firm (firm.startOfTarget target)) settled
                exact ⟨t, _, _, same, .link searched found content inside reading⟩
              · cases settled
              · cases settled
              · cases settled

theorem start_eq (h : Location) (t : Text) :
    (if t.head? = some '/' then (⟨.slash, []⟩ : Path) else .ofLocation h) =
      .ofLocation (FileSystem.startOfTarget h t) := by
  unfold FileSystem.startOfTarget
  split <;> rfl

theorem literal_expand (depth : Nat) : Literal fs (expand fs .strict depth) := by
  induction depth with
  | zero =>
    intro opened h target q _ expanded
    cases expanded
  | succ depth ih =>
    intro opened h target q firm expanded
    rw [expand, start_eq] at expanded
    obtain ⟨t, links, against, same, reading⟩ := readsTo_of_settle ih (firm.startOfTarget target) expanded
    obtain ⟨against, reading⟩ := FileSystem.reads_stepsOfText_iff.2 ⟨against, reading⟩
    exact ⟨t, links, against, same, reading⟩

theorem settle_strict_ne_looping {inner : List Path → Path → Text → Outcome}
    (never : ∀ opened here t p, inner opened here t ≠ .looping p) (opened : List Path) (pieces : List Text)
    (here p : Path) : settle fs .strict opened inner here pieces ≠ .looping p := by
  induction pieces generalizing here with
  | nil => exact fun loops => nomatch loops
  | cons piece rest ih =>
    cases read : Component.ofText? piece with
    | none => rw [settle_skip read]; exact ih here
    | some component =>
      cases component with
      | up => rw [settle_up read]; exact ih here.above
      | name n =>
        cases asked : fs.lstat (here.child n) with
        | error e => rw [settle_strict_missing read asked]; exact fun loops => nomatch loops
        | ok node =>
          cases content : node.linkTarget? with
          | none => rw [settle_plain read asked content]; exact ih (here.child n)
          | some target =>
            by_cases again : here.child n ∈ opened
            · obtain ⟨e, failed⟩ := settle_strict_loop inner rest read asked content again
              rw [failed]
              exact fun loops => nomatch loops
            · rw [settle_link read asked content again]
              split
              · exact ih _
              · rename_i q loops; exact absurd loops (never _ _ _ _)
              · exact fun loops => nomatch loops
              · exact fun loops => nomatch loops

theorem expand_strict_ne_looping (depth : Nat) (opened : List Path) (here : Path) (t : Text) (p : Path) :
    expand fs .strict depth opened here t ≠ .looping p := by
  induction depth generalizing opened here t p with
  | zero => exact fun loops => nomatch loops
  | succ depth ih => exact settle_strict_ne_looping ih opened _ _ p

/-! ## Reading leniently what can be read strictly -/

theorem settle_lenient_of_strict {strict lenient : List Path → Path → Text → Outcome}
    (same : ∀ opened here t q, strict opened here t = .settled q → lenient opened here t = .settled q)
    {opened : List Path} {pieces : List Text} {here q : Path}
    (settled : settle fs .strict opened strict here pieces = .settled q) :
    settle fs .lenient opened lenient here pieces = .settled q := by
  induction pieces generalizing here with
  | nil => exact settled
  | cons piece rest ih =>
    cases read : Component.ofText? piece with
    | none => rw [settle_skip read] at settled ⊢; exact ih settled
    | some component =>
      cases component with
      | up => rw [settle_up read] at settled ⊢; exact ih settled
      | name n =>
        cases asked : fs.lstat (here.child n) with
        | error e => rw [settle_strict_missing read asked] at settled; cases settled
        | ok node =>
          cases content : node.linkTarget? with
          | none => rw [settle_plain read asked content] at settled ⊢; exact ih settled
          | some target =>
            by_cases again : here.child n ∈ opened
            · obtain ⟨e, failed⟩ := settle_strict_loop strict rest read asked content again
              rw [failed] at settled
              cases settled
            · rw [settle_link read asked content again] at settled ⊢
              split at settled
              · rename_i p expanded
                rw [same _ _ _ _ expanded]
                exact ih settled
              · cases settled
              · cases settled
              · cases settled

theorem expand_lenient_of_strict (depth : Nat) (opened : List Path) (here : Path) (t : Text) (q : Path)
    (expanded : expand fs .strict depth opened here t = .settled q) :
    expand fs .lenient depth opened here t = .settled q := by
  induction depth generalizing opened here t q with
  | zero => cases expanded
  | succ depth ih => exact settle_lenient_of_strict ih expanded

/-- What comes first can be read first. -/
theorem settle_append {policy : Policy} {opened : List Path} {inner : List Path → Path → Text → Outcome}
    {front : List Text} {here middle : Path} (settled : settle fs policy opened inner here front = .settled middle)
    (rest : List Text) :
    settle fs policy opened inner here (front ++ rest) = settle fs policy opened inner middle rest := by
  induction front generalizing here with
  | nil => cases settled; rfl
  | cons piece front ih =>
    rw [List.cons_append]
    cases read : Component.ofText? piece with
    | none => rw [settle_skip read] at settled ⊢; exact ih settled
    | some component =>
      cases component with
      | up => rw [settle_up read] at settled ⊢; exact ih settled
      | name n =>
        cases asked : fs.lstat (here.child n) with
        | error e =>
          cases policy with
          | strict => rw [settle_strict_missing read asked] at settled; cases settled
          | lenient => rw [settle_lenient_missing read asked] at settled ⊢; exact ih settled
        | ok node =>
          cases content : node.linkTarget? with
          | none => rw [settle_plain read asked content] at settled ⊢; exact ih settled
          | some target =>
            by_cases again : here.child n ∈ opened
            · exact absurd settled (settle_loop_ne_settled read asked content again middle)
            · rw [settle_link read asked content again] at settled ⊢
              cases expanded : inner (here.child n :: opened) here target with
              | settled p => simp only [expanded] at settled ⊢; exact ih settled
              | looping p => simp only [expanded] at settled; cases settled
              | failed p e => simp only [expanded] at settled; cases settled
              | endless => simp only [expanded] at settled; cases settled

/-! ## What has a reading can be read -/

/-- The path of a link that is still being resolved: a reading through it is longer
    than the one that is left. -/
def Underway (fs : FileSystem) (links : Nat) (o : Path) : Prop :=
  ∃ h n cost against there, o = .ofLocation (h ++ [n]) ∧ fs.Reads h [.child n] cost against there ∧ links < cost

theorem Underway.weaken {links fewer : Nat} {o : Path} (underway : Underway fs links o) (le : fewer ≤ links) :
    Underway fs fewer o := by
  obtain ⟨h, n, cost, against, there, same, through, longer⟩ := underway
  exact ⟨h, n, cost, against, there, same, through, by omega⟩

/-- There are not more links underway than nodes. -/
theorem length_underway_le {opened : List Path} {links : Nat} (underway : ∀ o ∈ opened, Underway fs links o)
    (distinct : opened.Nodup) : opened.length ≤ fs.table.length := by
  have covered : opened ⊆ fs.table.locations.map Path.ofLocation := by
    intro o inside
    obtain ⟨h, n, _, _, _, rfl, through, _⟩ := underway o inside
    refine List.mem_map.2 ⟨h ++ [n], ?_, rfl⟩
    cases through with
    | child _ found => exact List.mem_map.2 ⟨_, FileSystem.node?_eq_some_iff.1 found, rfl⟩
    | link _ found => exact List.mem_map.2 ⟨_, FileSystem.node?_eq_some_iff.1 found, rfl⟩
  simpa [Table.locations] using (distinct.subperm covered).length_le

/-- A link underway is not met again, or the reading through it would be a part of itself. -/
theorem notMem_of_underway {opened : List Path} {links cost : Nat} (underway : ∀ o ∈ opened, Underway fs links o)
    {h middle : Location} {n : Name} {against : List Errno} (through : fs.Reads h [.child n] cost against middle)
    (few : cost ≤ links) : (Path.ofLocation h).child n ∉ opened := by
  intro again
  obtain ⟨h', n', cost', _, there, same, through', longer⟩ := underway _ again
  rw [← Path.ofLocation_append] at same
  obtain ⟨rfl, last⟩ := List.append_inj' (Path.ofLocation_injective same) rfl
  cases last
  obtain ⟨equal, _⟩ := through.unique through'
  omega

/-- Where no question about a node fails, a text is read, either way, to where it reads. -/
theorem settle_of_reads (clear : ∀ l node, fs.node? l = some node → node.fault? .lstat = none) (policy : Policy)
    {depth : Nat} {opened : List Path} {pieces : List Text} {h there : Location} {links : Nat} {against : List Errno}
    (firm : fs.Firm h) (reading : fs.Reads h (Spelling.stepsOf pieces) links against there)
    (underway : ∀ o ∈ opened, Underway fs links o) (distinct : opened.Nodup)
    (room : fs.table.length < opened.length + depth) :
    settle fs policy opened (expand fs policy depth) (.ofLocation h) pieces = .settled (.ofLocation there) := by
  -- Outside on the links that may still be opened, inside on the pieces. What is underway has
  -- more links before it than are left to be replaced, so no link is met while it is resolved.
  induction depth generalizing opened pieces h there links against with
  | zero =>
    have few := length_underway_le underway distinct
    omega
  | succ depth ihDepth =>
    induction pieces generalizing h links against with
    | nil => cases reading; rfl
    | cons piece rest ih =>
      cases read : Component.ofText? piece with
      | none =>
        rw [settle_skip read]
        rcases Spelling.stepOfText?_of_none read with nothing | stay
        · rw [Spelling.stepsOf, List.filterMap_cons_none nothing] at reading
          exact ih firm reading underway
        · rw [Spelling.stepsOf, List.filterMap_cons_some stay] at reading
          cases reading with | stay reading => exact ih firm reading underway
      | some component =>
        have step := Spelling.stepOfText?_of_component read
        rw [Spelling.stepsOf, List.filterMap_cons_some step] at reading
        cases component with
        | up =>
          rw [settle_up read, Path.above_ofLocation]
          cases reading with | up reading => exact ih firm.dropLast reading underway
        | name n =>
          cases reading with
          | child searched found plain reading =>
            have asked := (lstat_child_iff firm).2 ⟨searched, FileSystem.nodeFor_eq_ok_iff.2 ⟨found, clear _ _ found⟩⟩
            rw [settle_plain read asked plain, ← Path.ofLocation_append]
            exact ih ⟨firm.1.child searched n, _, found, plain⟩ reading underway
          | @link _ middle _ _ _ inner after _ _ _ target searched found content inside reading =>
            have asked := (lstat_child_iff firm).2 ⟨searched, FileSystem.nodeFor_eq_ok_iff.2 ⟨found, clear _ _ found⟩⟩
            have through := FileSystem.Reads.link searched found content inside (.arrived middle)
            have fresh := notMem_of_underway underway through (by omega)
            obtain ⟨_, pieces⟩ := FileSystem.reads_stepsOfText_iff.1 ⟨_, inside⟩
            have expanded :
                expand fs policy (depth + 1) ((Path.ofLocation h).child n :: opened) (.ofLocation h) target =
                  .settled (.ofLocation middle) := by
              rw [expand, start_eq]
              refine ihDepth (firm.startOfTarget target) pieces ?_ (List.nodup_cons.2 ⟨fresh, distinct⟩)
                (by simpa using by omega)
              intro o among
              rcases List.mem_cons.1 among with rfl | among
              · exact ⟨h, n, _, _, middle, (Path.ofLocation_append h n).symm, through, by omega⟩
              · exact (underway o among).weaken (by omega)
            rw [settle_link read asked content fresh, expanded]
            exact ih (inside.firm (firm.startOfTarget target)) reading fun o among => (underway o among).weaken (by omega)

end Canonical

namespace FileSystem

variable {fs : FileSystem} {p : Path}

theorem outcome_absolute (absolute : p.isAbsolute = true) (policy : Canonical.Policy) :
    Canonical.outcome fs policy p = Canonical.settle fs policy [] (Canonical.expand fs policy (Canonical.nesting fs))
      (.ofLocation []) (p.parts.map Component.text) := by
  rw [Canonical.outcome, if_pos absolute]
  rfl

/-- The path reads, leniently, as the path of a location. -/
def Settles (fs : FileSystem) (p : Path) (l : Location) : Prop :=
  Canonical.outcome fs .lenient p = .settled (.ofLocation l)

theorem canonical_of_settles {l : Location} (settles : fs.Settles p l) : fs.canonical p = .ofLocation l := by
  unfold Settles at settles
  simp only [canonical, settles, Path.absolute_ofLocation]

/-- A path with a strict form could be read to its end. -/
theorem settled_of_strictForm {q : Path} (form : fs.strictForm p = .ok q) :
    ∃ r, Canonical.outcome fs .strict p = .settled r ∧ q = r.absolute fs.workingDirectory := by
  unfold strictForm at form
  split at form
  · rename_i r settled
    cases form
    exact ⟨r, settled, rfl⟩
  · rename_i r loops
    exact absurd loops (Canonical.settle_strict_ne_looping (Canonical.expand_strict_ne_looping _) _ _ _ _)
  · cases form
  · cases form

/-- The strict form of an absolute path spells the location where the path reads. -/
theorem reads_of_strictForm (absolute : p.isAbsolute = true) {q : Path} (form : fs.strictForm p = .ok q) :
    ∃ t links against, q = .ofLocation t ∧ fs.Settles p t ∧ fs.Reads [] p.steps links against t := by
  obtain ⟨r, settled, rfl⟩ := settled_of_strictForm form
  rw [outcome_absolute absolute] at settled
  obtain ⟨t, links, against, rfl, reading⟩ := Canonical.readsTo_of_settle (Canonical.literal_expand _) firm_root settled
  rw [Spelling.stepsOf_texts] at reading
  refine ⟨t, links, against, Path.absolute_ofLocation t _, ?_, reading⟩
  rw [Settles, outcome_absolute absolute]
  exact Canonical.settle_lenient_of_strict (Canonical.expand_lenient_of_strict _) settled

/-- The strict form of an absolute path spells a location that can be walked to,
    is not a link, and is where the path leads if it leads anywhere. -/
theorem strictForm_firm (absolute : p.isAbsolute = true) {q : Path} (form : fs.strictForm p = .ok q) :
    ∃ t, q = .ofLocation t ∧ fs.Firm t ∧ fs.Settles p t ∧ ∀ l, fs.locate true p = .ok l → l = t := by
  obtain ⟨t, links, against, rfl, settles, reading⟩ := reads_of_strictForm absolute form
  refine ⟨t, rfl, reading.firm firm_root, settles, fun l followed => ?_⟩
  rcases locate_of_reads absolute reading with ⟨_, _, ends⟩ | ⟨_, _, _, fails⟩
  · rw [ends] at followed
    exact (Except.ok.inj followed).symm
  · rw [fails] at followed
    cases followed

/-- Below a path that reads as a location, the path of a node that is not a link
    reads as the child. -/
theorem Settles.child {l : Location} (settles : fs.Settles p l) (absolute : p.isAbsolute = true) (firm : fs.Firm l)
    {n : Name} {node : Node} (asked : fs.nodeFor .lstat (l ++ [n]) = .ok node) (searched : fs.searchable l = .ok ())
    (plain : node.linkTarget? = none) : fs.Settles (p.child n) (l ++ [n]) := by
  have read : Component.ofText? (Component.name n).text = some (.name n) := Component.ofText?_text _
  have there := (Canonical.lstat_child_iff firm).2 ⟨searched, asked⟩
  unfold Settles at settles ⊢
  rw [outcome_absolute absolute] at settles
  rw [outcome_absolute (by simpa using absolute), Path.child, List.map_append, Canonical.settle_append settles,
    List.map_singleton, Canonical.settle_plain read there plain, ← Path.ofLocation_append]
  rfl

/-- No node is set to fail on such a call. -/
def Spares (fs : FileSystem) (call : Call) : Prop := ∀ l node, fs.node? l = some node → node.fault? call = none

/-- No call on any node is set to fail. -/
def Faultless (fs : FileSystem) : Prop := ∀ l node, fs.node? l = some node → node.faults = []

theorem Faultless.fault? (faultless : fs.Faultless) {l : Location} {node : Node} (found : fs.node? l = some node)
    (call : Call) : node.fault? call = none := by
  simp [Node.fault?, faultless l node found]

theorem Faultless.spares (faultless : fs.Faultless) (call : Call) : fs.Spares call :=
  fun _ _ found => faultless.fault? found call

/-- Where nothing is set to fail, a path that has a reading has both forms, and they spell where it reads. -/
theorem settled_of_reads (faultless : fs.Faultless) (absolute : p.isAbsolute = true) {links : Nat}
    {against : List Errno} {l : Location} (reading : fs.Reads [] p.steps links against l) (policy : Canonical.Policy) :
    Canonical.outcome fs policy p = .settled (.ofLocation l) := by
  rw [Path.steps, ← Spelling.stepsOf_texts] at reading
  rw [outcome_absolute absolute]
  exact Canonical.settle_of_reads (fun _ _ found => faultless.fault? found .lstat) policy firm_root reading
    (by simp) List.nodup_nil (by simp only [Canonical.nesting, linkLimit, List.length_nil]; omega)

/-- Where nothing is set to fail, a path that leads to a node reads, either way, as its location. -/
theorem settled_of_locate (faultless : fs.Faultless) (absolute : p.isAbsolute = true) {l : Location}
    (followed : fs.locate true p = .ok l) (policy : Canonical.Policy) :
    Canonical.outcome fs policy p = .settled (.ofLocation l) := by
  obtain ⟨links, _, walk⟩ := (locate_followed_iff absolute).1 followed
  exact settled_of_reads faultless absolute walk.reads policy

theorem canonical_of_locate (faultless : fs.Faultless) (absolute : p.isAbsolute = true) {l : Location}
    (followed : fs.locate true p = .ok l) : fs.canonical p = .ofLocation l :=
  canonical_of_settles (settled_of_locate faultless absolute followed .lenient)

end FileSystem
end Inventory
