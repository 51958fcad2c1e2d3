import Inventory.Proofs.Visits

namespace Inventory

namespace Trace

/-- It was noticed that the link is entered. -/
def Enters (t : Trace) (link : Path) : Prop := ∃ target depth, .notice (.entered link target depth) ∈ t.items

/-- A link that is entered is a proper ancestor of the path. -/
def EntersAbove (t : Trace) (p : Path) : Prop := ∃ link, t.Enters link ∧ p.Under link ∧ link ≠ p

theorem entered_mem_events_iff {t : Trace} {link target : Path} :
    .entered link target ∈ t.events ↔ ∃ depth, .notice (.entered link target depth) ∈ t.items := by
  unfold events
  constructor
  · intro among
    obtain ⟨item, inside, same⟩ := List.mem_filterMap.1 among
    cases item with
    | record r => cases same
    | notice m =>
      cases m with
      | entered link' target' depth =>
        cases same
        exact ⟨depth, inside⟩
      | _ => cases same
  · rintro ⟨depth, among⟩
    exact List.mem_filterMap.2 ⟨_, among, rfl⟩

end Trace

namespace FileSystem

/-- A text spells a location, on which there is no link, and the system finds the
    node there. -/
structure Spells (fs : FileSystem) (t : Text) (l : Location) : Prop where
  text : t = (Path.ofLocation l).text
  read : Path.ofText t = .ofLocation l
  plain : ∀ m, m <+: l → ∀ node, fs.node? m = some node → node.linkTarget? = none
  named : fs.locate false (.ofLocation l) = .ok l

variable {fs : FileSystem} {l : Location}

theorem spells_of_firm (firm : fs.Firm l) : fs.Spells (Path.ofLocation l).text l := by
  obtain ⟨passable, node, found, plain⟩ := firm
  refine ⟨rfl, Path.ofText_text _, ?_, locate_ofLocation passable found⟩
  rintro m ⟨rest, rfl⟩ node' found'
  by_cases whole : rest = []
  · subst whole
    rw [List.append_nil] at found
    rw [found] at found'
    cases found'
    exact plain
  · obtain ⟨d, there, directory⟩ := directory_of_append found whole
    rw [there] at found'
    cases found'
    exact Node.linkTarget?_of_isDirectory directory

/-- Where the system finds a node that has a firm place below the strict form of a
    path above it. -/
theorem locate_below_strictForm {q p : Path} (absolute : q.isAbsolute = true) {t m : Location} (below : m ≠ [])
    (form : fs.strictForm q = .ok (.ofLocation t)) (firm : fs.Firm (t ++ m))
    (path : p = ⟨q.root, q.parts ++ m.map .name⟩) (named : fs.locate false p = .ok l) : l = t ++ m := by
  obtain ⟨front, last, rfl⟩ := (List.eq_nil_or_concat m).resolve_left below
  rw [List.concat_eq_append, ← List.append_assoc] at firm
  rw [List.concat_eq_append] at path
  rw [List.concat_eq_append, ← List.append_assoc]
  let upper : Path := ⟨q.root, q.parts ++ front.map .name⟩
  have rooted : upper.isAbsolute = true := absolute
  rw [show p = upper.child last by simp [path, upper, Path.child]] at named
  obtain ⟨d, followed, _, _, rfl⟩ := (locate_child_iff rooted).1 named
  obtain ⟨links, few, walk⟩ := (locate_followed_iff rooted).1 followed
  rw [show upper.steps = q.steps ++ front.map .child by simp [upper, Path.steps, Spelling.stepOfComponent]] at walk
  obtain ⟨first, middle, second, before, after, count⟩ := walk.split
  -- The path above leads to where its strict form says, and from there the names lead straight on.
  obtain ⟨t', same, _, _, only⟩ := strictForm_firm absolute form
  obtain rfl := Path.ofLocation_injective same
  obtain rfl := only middle ((locate_followed_iff absolute).2 ⟨first, by omega, before⟩)
  obtain ⟨passable, node, found, _⟩ := firm
  have straight := leads_names passable.of_append (solid_of_append found (by simp))
  rw [(after.unique straight).2]

/-- What an entered link makes of the path of a link below it is not a path
    without links. -/
theorem relocate?_ne_ofLocation {q p destination moved : Path} (absolute : q.isAbsolute = true)
    (form : fs.strictForm q = .ok destination) (proper : q ≠ p) (named : fs.locate false p = .ok l) {node : Node}
    (found : fs.node? l = some node) (link : node.linkTarget? ≠ none)
    (moves : (Redirection.mk q destination).relocate? p = some moved) {t : Location} (firm : fs.Firm t) :
    moved ≠ .ofLocation t := by
  obtain ⟨above, rfl, _⟩ := strictForm_firm absolute form
  obtain ⟨rest, relative, rfl⟩ := Option.map_eq_some_iff.1 moves
  have whole := Path.join_relativeTo? relative
  unfold Path.relativeTo? at relative
  split at relative
  · cases relative
    rw [Path.join, if_pos rfl] at whole ⊢
    intro same
    obtain ⟨front, m, rfl, upper, lower⟩ := List.map_eq_append_iff.1 (congrArg Path.parts same).symm
    obtain rfl := List.map_injective_iff.2 (fun _ _ equal => Component.name.inj equal) upper
    have below : m ≠ [] := by
      rintro rfl
      rw [← lower] at whole
      exact proper (by simpa using whole)
    rw [← lower] at whole
    obtain rfl := locate_below_strictForm absolute below form firm whole.symm named
    obtain ⟨_, node', found', plain⟩ := firm
    rw [found] at found'
    cases found'
    exact link plain
  · cases relative

theorem resolveLink_absent {p : Path} (absent : (fs.resolveLink p).target = none) : fs.resolveLink p = .absent := by
  unfold resolveLink at absent ⊢
  split
  · rfl
  · rename_i target form
    simp only [form] at absent
    split at absent
    · cases absent
    · rename_i denied
      rw [if_neg denied]

end FileSystem

/-- Only links are of the kind of links. -/
theorem Node.linkTarget?_eq_none_iff {node : Node} {kind : EntryKind} (known : node.kind? = some kind) :
    node.linkTarget? = none ↔ kind ≠ .symbolicLink := by
  cases content : node.content <;> simp [kind?, content, Content.typeBits, EntryKind.ofMode] at known <;>
    simp [linkTarget?, content, ← known]

namespace Record

/-- The target of a node that is no link is empty outside of entered links.
    Otherwise it spells where the system finds the node. -/
def TellsWhereItIs (fs : FileSystem) (t : Trace) (r : Record) : Prop :=
  (r.target = [] ↔ ¬ t.EntersAbove r.path) ∧
    (r.target ≠ [] → ∃ l, fs.Spells r.target l ∧ fs.locate false r.path = .ok l ∧
      fs.lstat (.ofText r.target) = fs.lstat r.path)

/-- The target of a link that leads to a node spells its canonical form, and that
    of any other link is empty. It is never where the link itself is, neither as
    the system finds it nor as an entered link above changes its path. -/
def TellsWhereItLeads (fs : FileSystem) (t : Trace) (r : Record) : Prop :=
  (r.existence = 1 → ∃ l, fs.Spells r.target l ∧ fs.strictForm r.path = .ok (.ofLocation l) ∧
      fs.canonical r.path = .ofLocation l) ∧
    (r.existence = 2 ↔ r.target = []) ∧
    (∀ l, fs.locate false r.path = .ok l → r.target ≠ (Path.ofLocation l).text) ∧
    ∀ link destination depth, .notice (.entered link destination depth) ∈ t.items → link ≠ r.path →
      ∀ moved, (Redirection.mk link destination).relocate? r.path = some moved → r.target ≠ moved.text

end Record

namespace Scan

variable {s : Scan} {absolute : s.walk.root.isAbsolute = true} {place : Place} {node : Node} {kind : EntryKind}

theorem entered_iff (absolute : s.walk.root.isAbsolute = true) {link target : Path} :
    (∃ depth, .notice (.entered link target depth) ∈ s.trace.items) ↔
      .entered link target ∈ (s.inventory absolute).events := by
  rw [← Trace.entered_mem_events_iff, (tells_inventory absolute).1]

/-- An entered link is above a visited place just if the place has a location. -/
theorem entersAbove_iff (visited : s.Visits absolute place) :
    s.trace.EntersAbove place.path ↔ place.location ≠ none := by
  constructor
  · rintro ⟨link, enters, above, proper⟩ outside
    obtain ⟨target, enters⟩ := enters
    obtain ⟨p, reached, here⟩ := exists_visit ((entered_iff absolute).1 enters)
    obtain ⟨rfl, _, node, seen⟩ := mem_sight_entered here
    obtain ⟨asked, known, _⟩ := reported?_eq_some seen
    obtain ⟨node', asked', directory⟩ := visited.directory_above outside above proper reached.under_root
    rw [asked] at asked'
    cases asked'
    exact absurd rfl ((Node.linkTarget?_eq_none_iff known).1 (Node.linkTarget?_of_isDirectory directory))
  · intro inside
    obtain ⟨p, located⟩ := Option.ne_none_iff_exists'.1 inside
    obtain ⟨link, target, said, above, proper⟩ := visited.entered_above located
    exact ⟨link, ⟨target, (entered_iff absolute).2 said⟩, above, proper⟩

theorem target_of_plain (visited : s.Visits absolute place) (seen : s.reported? place = some (node, kind))
    (plain : kind ≠ .symbolicLink) {r : Record} (record : r = s.recordAt place node kind) :
    r.TellsWhereItIs s.walk.system s.trace := by
  have path : r.path = place.path := record ▸ path_recordAt
  have target : r.target = (place.location.map Path.text).getD [] := by rw [record, recordAt_eq, if_neg plain]
  obtain ⟨asked, known, _⟩ := reported?_eq_some seen
  rw [Record.TellsWhereItIs, path, entersAbove_iff visited, target]
  cases located : place.location with
  | none => simp
  | some p =>
    obtain ⟨l, named, there⟩ := FileSystem.lstat_eq_ok_iff.1 asked
    obtain rfl := (visited.sited located).eq_of_locate place.absolute named
    have followed := FileSystem.locate_followed_of_plain place.absolute named (FileSystem.nodeFor_eq_ok_iff.1 there).1
      ((Node.linkTarget?_eq_none_iff known).2 plain)
    have spells := FileSystem.spells_of_firm (FileSystem.firm_of_locate_followed place.absolute followed)
    refine ⟨by simp [Path.text_ne_nil], fun _ => ⟨l, spells, named, ?_⟩⟩
    rw [FileSystem.lstat_of_locate named, ← FileSystem.lstat_of_locate spells.named]
    exact congrArg _ spells.read

theorem form_of_link {r : Record} (record : r = s.recordAt place node .symbolicLink) :
    (r.existence = 1 → ∃ l, s.walk.system.Spells r.target l ∧
        s.walk.system.strictForm r.path = .ok (.ofLocation l) ∧ s.walk.system.canonical r.path = .ofLocation l) ∧
      (r.existence = 2 ↔ r.target = []) := by
  rw [record, recordAt_eq, if_pos rfl]
  cases resolved : (s.walk.system.resolveLink place.path).target with
  | none =>
    rw [FileSystem.resolveLink_absent resolved]
    simp [LinkResolution.existenceCode, LinkResolution.targetText, LinkResolution.absent]
  | some target =>
    obtain ⟨form, _, present⟩ := FileSystem.resolveLink_target resolved
    obtain ⟨t, rfl, firm, settles, _⟩ := FileSystem.strictForm_firm place.absolute form
    rw [present]
    refine ⟨fun _ => ⟨t, FileSystem.spells_of_firm firm, form, FileSystem.canonical_of_settles settles⟩, ?_⟩
    simp [LinkResolution.existenceCode, LinkResolution.targetText, Path.text_ne_nil]

theorem target_of_link (absolute : s.walk.root.isAbsolute = true)
    (seen : s.reported? place = some (node, .symbolicLink)) {r : Record}
    (record : r = s.recordAt place node .symbolicLink) : r.TellsWhereItLeads s.walk.system s.trace := by
  obtain ⟨leads, empty⟩ := form_of_link record
  refine ⟨leads, empty, ?_⟩
  have path : r.path = place.path := record ▸ path_recordAt
  have target : r.target = (s.walk.system.resolveLink place.path).targetText := by rw [record, recordAt_eq, if_pos rfl]
  rw [path, target]
  obtain ⟨asked, known, _⟩ := reported?_eq_some seen
  obtain ⟨l, named, there⟩ := FileSystem.lstat_eq_ok_iff.1 asked
  obtain ⟨found, _⟩ := FileSystem.nodeFor_eq_ok_iff.1 there
  have isLink : node.linkTarget? ≠ none := fun plain => (Node.linkTarget?_eq_none_iff known).1 plain rfl
  cases resolved : (s.walk.system.resolveLink place.path).target with
  | none =>
    have empty : (s.walk.system.resolveLink place.path).targetText = [] := by
      simp [LinkResolution.targetText, resolved]
    rw [empty]
    exact ⟨fun _ _ => (Path.text_ne_nil _).symm, fun _ _ _ _ _ moved _ => (Path.text_ne_nil moved).symm⟩
  | some target =>
    obtain ⟨form, _⟩ := FileSystem.resolveLink_target resolved
    obtain ⟨t, rfl, firm, _⟩ := FileSystem.strictForm_firm place.absolute form
    have spelled : (s.walk.system.resolveLink place.path).targetText = (Path.ofLocation t).text := by
      simp [LinkResolution.targetText, resolved]
    rw [spelled]
    constructor
    · intro l' named' same
      rw [named] at named'
      cases named'
      obtain rfl := Path.ofLocation_injective (Path.text_injective same)
      obtain ⟨_, node', found', plain⟩ := firm
      rw [found] at found'
      cases found'
      exact isLink plain
    · intro link destination depth noticed proper moved moves same
      obtain ⟨p, _, here⟩ := exists_visit ((entered_iff absolute).1 ⟨depth, noticed⟩)
      obtain ⟨rfl, entered, _⟩ := mem_sight_entered here
      obtain ⟨form', _⟩ := FileSystem.resolveLink_target (entrance_eq_some entered).1
      exact FileSystem.relocate?_ne_ofLocation p.absolute form' proper named found isLink moves firm
        (Path.text_injective same).symm

theorem existence_of_plain (plain : kind ≠ .symbolicLink) : (s.recordAt place node kind).existence = 1 := by
  rw [recordAt_eq, if_neg plain]

/-- The target of each record says where the node is or where the link leads, and
    only links that lead nowhere have none and do not exist. -/
theorem target_of_record (fs : FileSystem) (root : Path) (options : ScanOptions) (absolute : root.isAbsolute = true)
    {r : Record} (inside : r ∈ (ofOptions fs root options).trace.records) :
    (r.kind ≠ .symbolicLink → r.TellsWhereItIs fs (ofOptions fs root options).trace) ∧
      (r.kind = .symbolicLink → r.TellsWhereItLeads fs (ofOptions fs root options).trace) ∧
      (r.existence = 2 ↔ r.kind = .symbolicLink ∧ r.target = []) := by
  rw [(tells_inventory (s := ofOptions fs root options) absolute).records] at inside
  obtain ⟨place, node, kind, visited, seen, record⟩ := exists_visit_of_record inside
  have same : r.kind = kind := by rw [record, kind_recordAt]
  rw [same]
  by_cases link : kind = .symbolicLink
  · subst link
    have leads := target_of_link (s := ofOptions fs root options) absolute seen record
    exact ⟨fun plain => absurd rfl plain, fun _ => leads, by simpa using leads.2.1⟩
  · refine ⟨fun _ => target_of_plain visited seen link record, fun isLink => absurd isLink link, ?_⟩
    rw [record, existence_of_plain link]
    simp [link]

theorem target_of_record_ofLinkedTree :
    ∃ r ∈ ofLinkedTree.trace.records, r.path.text = "/s/k/on/h".toList ∧ r.target = "/m/h".toList ∧
      r.TellsWhereItIs .linkedTree ofLinkedTree.trace := by
  have inside : ⟨.ofText "/s/k/on/h".toList, 1, "/m/h".toList, 0, .regularFile, Times.stamps ⟨0, 0, 0⟩⟩ ∈
      ofLinkedTree.trace.records := by decide +kernel
  exact ⟨_, inside, by decide, rfl, (target_of_record .linkedTree _ _ (by decide) inside).1 (by decide)⟩

end Scan
end Inventory
