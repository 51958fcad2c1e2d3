import Inventory.Exclusion.IgnoreRule
import Inventory.Exclusion.Wildcard

namespace Inventory

inductive Exclusion where
  | byName (wildcards : List Wildcard)
  | byRules (rules : IgnoreRules)
  /-- What either of the two excludes. -/
  | byEither (wildcards : List Wildcard) (rules : IgnoreRules)
deriving DecidableEq

namespace Exclusion

/-- The exclusion that patterns and rules make up; none if there are neither. No
    rules at all are still an exclusion, one of nothing. -/
def ofParts? (patterns : List Text) (rules : Option IgnoreRules) : Option Exclusion :=
  match patterns.map Wildcard.ofText, rules with
  | [], none => none
  | [], some rules => some (byRules rules)
  | wildcards, none => some (byName wildcards)
  | wildcards, some rules => some (byEither wildcards rules)

/-- Some wildcard covers the name of a path. -/
def coversName (wildcards : List Wildcard) (p : Path) : Bool := wildcards.any fun w => w.covers p.lastName

/-- An entry with this path below the root is excluded. -/
def excludes : Exclusion → Path → Bool → Bool
  | byName wildcards, p, _ => coversName wildcards p
  | byRules rules, p, directory => rules.ignores p directory
  | byEither wildcards rules, p, directory => coversName wildcards p || rules.ignores p directory

/-- What a walk asks about an entry; without an exclusion nothing is excluded. -/
def predicate (exclusion : Option Exclusion) : Path → Bool → Bool :=
  match exclusion with
  | none => fun _ _ => false
  | some e => e.excludes

end Exclusion
end Inventory
