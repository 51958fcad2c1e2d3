import Inventory.Proofs.Whereabouts

namespace Inventory

/-- The location of a path is the canonical form of the path above it with the last name. -/
theorem FileSystem.Sited.canonical_parent {fs : FileSystem} {p location : Path} (sited : fs.Sited p location) :
    ∃ n, p = p.parent.child n ∧ location = (fs.canonical p.parent).child n := by
  obtain ⟨parent, d, n, rfl, _, settles, rfl⟩ := sited
  refine ⟨n, by rw [Path.parent_child], ?_⟩
  rw [Path.parent_child, canonical_of_settles settles, Path.ofLocation_append]

namespace Scan

/-- Where a record lies that was reached through an entered link. -/
theorem located_of_record {s : Scan} (absolute : s.walk.root.isAbsolute = true) {r : Record}
    (inside : r ∈ s.trace.records) (above : s.trace.EntersAbove r.path) :
    ∃ location, s.walk.system.Sited r.path location ∧ location.Under (s.walk.system.canonical s.localRoot) ∧
      ¬ location.Under (s.walk.system.canonical s.walk.root) := by
  rw [(tells_inventory absolute).records] at inside
  obtain ⟨place, node, kind, visited, seen, record⟩ := exists_visit_of_record inside
  have path : r.path = place.path := record ▸ path_recordAt
  rw [path] at above ⊢
  obtain ⟨location, located⟩ := Option.ne_none_iff_exists'.1 ((entersAbove_iff visited).1 above)
  obtain ⟨_, _, _, elsewhere⟩ := reported?_eq_some seen
  exact ⟨location, visited.sited located, visited.under_localRoot located,
    fun scanned => elsewhere (by simpa [Revisited, located] using scanned)⟩

/-- What is reached through entered links lies inside the local root and not
    inside the search root. If no local root is given, or one inside the search
    root, nothing is reached through an entered link. -/
theorem confined_of_record (fs : FileSystem) (root : Path) (options : ScanOptions) (absolute : root.isAbsolute = true) :
    (∀ r ∈ (ofOptions fs root options).trace.records, (ofOptions fs root options).trace.EntersAbove r.path →
        ∃ n, r.path = r.path.parent.child n ∧
          ((fs.canonical r.path.parent).child n).Under (fs.canonical (options.localRoot.getD root)) ∧
          ¬ ((fs.canonical r.path.parent).child n).Under (fs.canonical root)) ∧
      ((∀ p, options.localRoot = some p → (fs.canonical p).Under (fs.canonical root)) →
        ∀ r ∈ (ofOptions fs root options).trace.records, ¬ (ofOptions fs root options).trace.EntersAbove r.path) := by
  constructor
  · intro r inside above
    obtain ⟨location, sited, within, apart⟩ := located_of_record (s := ofOptions fs root options) absolute inside above
    obtain ⟨n, path, rfl⟩ := sited.canonical_parent
    exact ⟨n, path, within, apart⟩
  · intro narrow r inside above
    obtain ⟨location, _, within, apart⟩ := located_of_record (s := ofOptions fs root options) absolute inside above
    refine apart (within.trans ?_)
    cases given : options.localRoot with
    | none =>
      simp only [ofOptions, given, Option.getD_none]
      exact Path.under_refl _
    | some p =>
      simp only [ofOptions, given, Option.getD_some]
      exact narrow p given

theorem confined_of_record_ofLinkedTree :
    (∃ r ∈ ofLinkedTree.trace.records, ofLinkedTree.trace.EntersAbove r.path ∧
        ∃ n, r.path = r.path.parent.child n ∧
          ((FileSystem.linkedTree.canonical r.path.parent).child n).Under
            (FileSystem.linkedTree.canonical ⟨.slash, []⟩) ∧
          ¬ ((FileSystem.linkedTree.canonical r.path.parent).child n).Under
            (FileSystem.linkedTree.canonical (.ofText "/s".toList))) ∧
      ∀ r ∈ (ofOptions .linkedTree (.ofText "/s".toList) .standard).trace.records,
        ¬ (ofOptions .linkedTree (.ofText "/s".toList) .standard).trace.EntersAbove r.path := by
  have inside : ⟨.ofText "/s/k/on/h".toList, 1, "/m/h".toList, 0, .regularFile, Times.stamps ⟨0, 0, 0⟩⟩ ∈
      ofLinkedTree.trace.records := by decide +kernel
  have above : ofLinkedTree.trace.EntersAbove (.ofText "/s/k/on/h".toList) :=
    ⟨.ofText "/s/k/on".toList, ⟨.ofText "/m".toList, 2, by decide +kernel⟩, by decide, by decide⟩
  constructor
  · exact ⟨_, inside, above, (confined_of_record .linkedTree _ _ (by decide)).1 _ inside above⟩
  · exact (confined_of_record .linkedTree _ .standard (by decide)).2 (by simp [ScanOptions.standard])

end Scan
end Inventory
