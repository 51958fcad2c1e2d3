import Inventory.FileSystem.Calls

/-!
The canonical form of a path is found by reading the path as text, piece by piece: `..`
takes the last name away without asking the system, and a piece that names a link is
replaced by the canonical form of what the link says. The strict form exists only if
each piece could be asked about; the lenient one keeps a piece that could not, and from
a loop on all pieces. Where the same link is met on longer and longer relative paths,
there is no form (`FileSystem.IsEndless`).
-/
namespace Inventory

namespace Canonical

/-- What is done about a piece that cannot be resolved. -/
inductive Policy where
  | strict
  | lenient
deriving DecidableEq

/-- How far a text could be read: to its end, up to a loop with the rest kept
    as it is, up to a path that could not be asked about, or through ever more
    links. -/
inductive Outcome where
  | settled (p : Path)
  | looping (p : Path)
  | failed (p : Path) (e : Errno)
  | endless
deriving DecidableEq

/-- Reads pieces from a path on. `opened` holds the links that are being
    resolved; `expand` resolves what a link in a directory says. -/
def settle (fs : FileSystem) (policy : Policy) (opened : List Path)
    (expand : List Path → Path → Text → Outcome) : Path → List Text → Outcome
  | here, [] => .settled here
  | here, piece :: rest =>
    match Component.ofText? piece with
    | none => settle fs policy opened expand here rest
    | some .up => settle fs policy opened expand here.above rest
    | some (.name n) =>
      let next := here.child n
      match fs.lstat next, policy with
      | .error e, .strict => .failed next e
      | .error _, .lenient => settle fs policy opened expand next rest
      | .ok node, _ =>
        match node.content with
        | .link target =>
          if next ∈ opened then
            match policy with
            | .strict => .failed next (match fs.stat next with
              | .error e => e
              | .ok _ => .linkLoop)
            | .lenient => .looping (next.join (Path.ofText (Text.joined '/' rest)))
          else
            match expand (next :: opened) here target with
            | .settled p => settle fs policy opened expand p rest
            | .looping p => .looping (p.join (Path.ofText (Text.joined '/' rest)))
            | .failed p e => .failed p e
            | .endless => .endless
        | _ => settle fs policy opened expand next rest

/-- Reads a text in a directory, with links nested no deeper than the given bound. -/
def expand (fs : FileSystem) (policy : Policy) : Nat → List Path → Path → Text → Outcome
  | 0, _, _, _ => .endless
  | depth + 1, opened, here, t =>
    settle fs policy opened (expand fs policy depth)
      (if t.head? = some '/' then ⟨.slash, []⟩ else here) (Text.cut '/' t)

/-- A bound for links that are resolved inside each other. No path that the
    system gets along goes through more links than the limit, or through more
    names between two of them than there are nodes; links that are nested more
    deeply are met on longer and longer paths. -/
def nesting (fs : FileSystem) : Nat := (FileSystem.linkLimit + 1) * (fs.table.length + 1)

def outcome (fs : FileSystem) (policy : Policy) (p : Path) : Outcome :=
  settle fs policy [] (expand fs policy (nesting fs))
    ⟨if p.isAbsolute then .slash else .relative, []⟩ (p.parts.map Component.text)

end Canonical

namespace FileSystem

/-- A path that leads through ever more links. -/
def IsEndless (fs : FileSystem) (policy : Canonical.Policy) (p : Path) : Prop :=
  Canonical.outcome fs policy p = .endless

instance (fs : FileSystem) (policy : Canonical.Policy) (p : Path) : Decidable (fs.IsEndless policy p) :=
  inferInstanceAs (Decidable (_ = _))

/-- The strict canonical form of a path, or the path that could not be asked
    about and why. -/
def strictForm (fs : FileSystem) (p : Path) : Except (Path × Errno) Path :=
  match Canonical.outcome fs .strict p with
  | .settled q | .looping q => .ok (q.absolute fs.workingDirectory)
  | .failed q e => .error (q, e)
  | .endless => .error (p, .linkLoop)

def canonical (fs : FileSystem) (p : Path) : Path :=
  match Canonical.outcome fs .lenient p with
  | .settled q | .looping q | .failed q _ => q.absolute fs.workingDirectory
  | .endless => p.absolute fs.workingDirectory

end FileSystem
end Inventory
