import Inventory.FileSystem.Tree

/-!
A snapshot describes the machine on which a run is made, one line for each fact, with
tabs between the fields: `now`, the time in nanoseconds; `cwd`, the working directory; or
the letter of a type of node (`d`, `f`, `l`, `p`, `s`, `c`, `b`) with its path, what it
holds, its size, and the times at which it was changed, accessed and modified. Fields at
the end can be left out, and an empty size is the usual one.
-/
namespace Inventory

structure Snapshot where
  now : Int
  workingDirectory : Path
  nodes : List NodeSpec

namespace Snapshot

/-- A machine with an empty file system. -/
def blank : Snapshot := ⟨0, ⟨.slash, []⟩, []⟩

/-- The content that a letter and a text stand for. -/
def contentOf? (letter t : Text) : Option Content :=
  match letter with
  | ['d'] => some .directory
  | ['f'] => some (.regular t)
  | ['l'] => some (.link t)
  | ['p'] => some .fifo
  | ['s'] => some .socket
  | ['c'] => some .characterDevice
  | ['b'] => some .blockDevice
  | _ => none

/-- The node on a path that a letter and further fields describe. -/
def nodeOf? (letter : Text) (path : Path) (fields : List Text) : Option NodeSpec := do
  let content ← contentOf? letter (fields.headD [])
  let numbers ← (fields.drop 1).mapM fun t => if t = [] then some none else (Text.toInt? t).map some
  let time (i : Nat) := ((numbers[i]?).bind id).getD 0
  some ⟨path, content, (numbers[0]?).bind id, ⟨time 1, time 2, time 3⟩, []⟩

/-- The fields of a line, added to what is known. -/
def addFields? (s : Snapshot) : List Text → Option Snapshot
  | word :: t :: fields =>
    if word = "now".toList then (Text.toInt? t).map fun now => { s with now }
    else if word = "cwd".toList then some { s with workingDirectory := Path.ofText t }
    else (nodeOf? word (Path.ofText t) fields).map fun n => { s with nodes := s.nodes ++ [n] }
  | _ => none

/-- The snapshot that lines describe. Empty lines say nothing. -/
def ofLines? (lines : List Text) : Option Snapshot :=
  (lines.filter (· ≠ [])).foldlM (fun s line => s.addFields? (Text.cut '\t' line)) blank

def system (s : Snapshot) : FileSystem := FileSystem.ofSpecs s.nodes s.workingDirectory

end Snapshot
end Inventory
