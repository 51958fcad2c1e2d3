import Inventory.Exclusion.IgnoreRule
import Inventory.Proofs.Relocation

namespace Inventory

/-- The last result is that of an element behind which no other has one. -/
theorem getLast?_filterMap_eq_some_iff {α β : Type} {f : α → Option β} {xs : List α} {b : β} :
    (xs.filterMap f).getLast? = some b ↔
      ∃ before a after, xs = before ++ a :: after ∧ f a = some b ∧ ∀ later ∈ after, f later = none := by
  rw [List.getLast?_filterMap, List.findSome?_eq_some_iff]
  constructor
  · rintro ⟨after, a, before, turned, found, none⟩
    refine ⟨before.reverse, a, after.reverse, ?_, found, fun later inside => none later (List.mem_reverse.1 inside)⟩
    rw [← List.reverse_reverse xs, turned]
    simp
  · rintro ⟨before, a, after, rfl, found, none⟩
    exact ⟨after.reverse, a, before.reverse, by simp, found, fun later inside => none later (List.mem_reverse.1 inside)⟩

/-- What is joined starts with its first piece. -/
theorem Text.exists_joined_cons (sep : Char) (piece : Text) (pieces : List Text) :
    ∃ more, joined sep (piece :: pieces) = piece ++ more := by
  cases pieces with
  | nil => exact ⟨[], (List.append_nil piece).symm⟩
  | cons next pieces => exact ⟨sep :: joined sep (next :: pieces), joined_cons (List.cons_ne_nil next pieces)⟩

theorem Component.text_ne_dot (c : Component) : c.text ≠ ['.'] := by
  cases c with
  | up => decide
  | name n => exact n.proper.2.1

namespace IgnoreRules

variable {rules : IgnoreRules} {t : Text} {r : IgnoreRule} {mark : Bool}

/-- The rule that decides on a text is the last one that matches it without the
    directory mark, or where there is none the last one that matches it. -/
inductive Decides (rules : IgnoreRules) (t : Text) (r : IgnoreRule) : Prop
  | unmarked (before after : IgnoreRules) : rules = before ++ r :: after → r.shape.mark? t = some false →
      (∀ later ∈ after, later.shape.mark? t ≠ some false) → Decides rules t r
  | marked (before after : IgnoreRules) : rules = before ++ r :: after → r.shape.mark? t = some true →
      (∀ other ∈ rules, other.shape.mark? t ≠ some false) → (∀ later ∈ after, later.shape.mark? t = none) →
      Decides rules t r

theorem getLast?_hits : (rules.hits t).getLast? = some (mark, r) ↔
    ∃ before after, rules = before ++ r :: after ∧ r.shape.mark? t = some mark ∧
      ∀ later ∈ after, later.shape.mark? t = none := by
  rw [hits, getLast?_filterMap_eq_some_iff]
  simp only [Option.map_eq_some_iff, Option.map_eq_none_iff]
  constructor
  · rintro ⟨before, _, after, whole, ⟨_, matched, ⟨⟩⟩, none⟩
    exact ⟨before, after, whole, matched, none⟩
  · rintro ⟨before, after, whole, matched, none⟩
    exact ⟨before, r, after, whole, ⟨mark, matched, rfl⟩, none⟩

theorem unmarked_hits : (rules.hits t).filter (fun h => !h.1) =
    rules.filterMap fun r => if r.shape.mark? t = some false then some (false, r) else none := by
  rw [hits, List.filter_filterMap]
  refine List.filterMap_congr fun r _ => ?_
  rcases r.shape.mark? t with _ | _ | _ <;> rfl

theorem getLast?_unmarked_hits : ((rules.hits t).filter fun h => !h.1).getLast? = some (mark, r) ↔
    mark = false ∧ ∃ before after, rules = before ++ r :: after ∧ r.shape.mark? t = some false ∧
      ∀ later ∈ after, later.shape.mark? t ≠ some false := by
  rw [unmarked_hits, getLast?_filterMap_eq_some_iff]
  simp only [ite_eq_right_iff, reduceCtorEq, imp_false]
  constructor
  · rintro ⟨before, a, after, whole, found, none⟩
    split at found
    · rename_i matched
      cases found
      exact ⟨rfl, before, after, whole, matched, none⟩
    · cases found
  · rintro ⟨rfl, before, after, whole, matched, none⟩
    exact ⟨before, r, after, whole, if_pos matched, none⟩

theorem unmarked_hits_eq_nil_iff : (rules.hits t).filter (fun h => !h.1) = [] ↔
    ∀ other ∈ rules, other.shape.mark? t ≠ some false := by
  rw [unmarked_hits, List.filterMap_eq_nil_iff]
  simp only [ite_eq_right_iff, reduceCtorEq, imp_false, ne_eq]

theorem deciding?_eq_some_iff : rules.deciding? t = some r ↔ rules.Decides t r := by
  simp only [deciding?, Option.map_eq_some_iff, Option.or_eq_some_iff, List.getLast?_eq_none_iff,
    unmarked_hits_eq_nil_iff, Prod.exists, exists_eq_right]
  constructor
  · rintro ⟨mark, last | ⟨none, last⟩⟩
    · obtain ⟨_, before, after, whole, matched, behind⟩ := getLast?_unmarked_hits.1 last
      exact .unmarked before after whole matched behind
    · obtain ⟨before, after, whole, matched, behind⟩ := getLast?_hits.1 last
      have inside : r ∈ rules := by simp [whole]
      -- No rule matches without the mark here, so the last one that matches needs it.
      cases mark with
      | false => exact absurd matched (none r inside)
      | true => exact .marked before after whole matched none behind
  · intro decides
    cases decides with
    | unmarked before after whole matched behind =>
      exact ⟨false, .inl (getLast?_unmarked_hits.2 ⟨rfl, before, after, whole, matched, behind⟩)⟩
    | marked before after whole matched none behind =>
      exact ⟨true, .inr ⟨none, getLast?_hits.2 ⟨before, after, whole, matched, behind⟩⟩⟩

/-- The rules take a text out: one decides, and it has no exclamation mark. -/
def Takes (rules : IgnoreRules) (t : Text) : Prop := ∃ r, rules.Decides t r ∧ r.negated = false

theorem takes_iff : rules.Takes t ↔ (rules.deciding? t).any (fun r => !r.negated) = true := by
  simp only [Takes, Option.any_eq_true, deciding?_eq_some_iff, Bool.not_eq_true']

instance (rules : IgnoreRules) (t : Text) : Decidable (rules.Takes t) := decidable_of_iff' _ takes_iff

/-- A path that starts with a component keeps its start: the component holds no slash
    and is not a dot alone. -/
theorem subject_of_parts {parts : List Component} (named : parts ≠ []) (directory : Bool) :
    subject ⟨.relative, parts⟩ directory =
      Text.joined '/' (parts.map Component.text) ++ if directory then ['/'] else [] := by
  rw [subject, Path.text_of_parts named]
  simp only [Root.text, List.nil_append]
  obtain ⟨c, rest, rfl⟩ := List.exists_cons_of_ne_nil named
  obtain ⟨slash, shown⟩ := c.noSlash_text
  have dot := c.text_ne_dot
  obtain ⟨more, whole⟩ := Text.exists_joined_cons '/' c.text (rest.map Component.text)
  obtain ⟨a, word, spelled⟩ := List.exists_cons_of_ne_nil shown
  rw [List.map_cons, whole, spelled]
  rw [spelled] at slash dot
  split
  · rename_i start
    obtain ⟨rfl, _⟩ := List.cons.inj start
    exact absurd List.mem_cons_self slash
  · rename_i start
    obtain ⟨rfl, onward⟩ := List.cons.inj start
    cases word with
    | nil => exact absurd rfl dot
    | cons b word =>
      obtain ⟨rfl, _⟩ := List.cons.inj onward
      exact absurd (List.mem_cons_of_mem _ List.mem_cons_self) slash
  · rfl

theorem ignores_iff {parts : List Component} (named : parts ≠ []) (directory : Bool) :
    rules.ignores ⟨.relative, parts⟩ directory = true ↔
      rules.Takes (Text.joined '/' (parts.map Component.text) ++ if directory then ['/'] else []) := by
  rw [ignores, subject_of_parts named, takes_iff]

end IgnoreRules
end Inventory
