import Inventory.FileSystem.Tree

namespace Inventory

/-- One step of a walk: stay, go up, go to a child, or only insist on a
    directory, as a slash at the end does. -/
inductive Step where
  | stay
  | up
  | child (n : Name)
  | insist
deriving DecidableEq

/-- What a link says, as the system reads it. -/
structure Spelling where
  fromRoot : Bool
  steps : List Step
deriving DecidableEq

namespace Spelling

/-- The step for a piece between slashes; none for an empty piece. -/
def stepOfText? (t : Text) : Option Step :=
  if t = [] then none
  else if t = ['.'] then some .stay
  else match Component.ofText? t with
    | none => none
    | some .up => some .up
    | some (.name n) => some (.child n)

/-- An empty text says nothing. -/
def ofText? (t : Text) : Option Spelling :=
  if t = [] then none
  else
    let steps := (Text.cut '/' t).filterMap stepOfText?
    some ⟨t.head? = some '/', if t.getLast? = some '/' then steps ++ [.insist] else steps⟩

def stepOfComponent : Component → Step
  | .up => .up
  | .name n => .child n

/-- A path as the system reads it. The empty relative path is `.`. -/
def ofPath (p : Path) : Spelling :=
  if p.root = .relative ∧ p.parts = [] then ⟨false, [.stay]⟩
  else ⟨p.isAbsolute, p.parts.map stepOfComponent⟩

end Spelling

/-- Where a walk ends: at a node, or at the place of a last component that is
    missing from its directory. -/
inductive Found where
  | node (l : Location)
  | vacant (directory : Location) (n : Name)
deriving DecidableEq

namespace FileSystem

/-- The location is a directory that may be searched. -/
def searchable (fs : FileSystem) (l : Location) : Except Errno Unit :=
  match fs.node? l with
  | none => .error .noEntry
  | some d =>
    if d.isDirectory then
      match d.fault? .search with
      | some e => .error e
      | none => .ok ()
    else .error .notDirectory

/-- A slash at the end only asks that the node is a directory. -/
def insistDirectory (fs : FileSystem) (l : Location) : Except Errno Unit :=
  if fs.table.hasDirectory l then .ok () else .error .notDirectory

/-- Walks from a location. At a link that is to be replaced, `onLink` goes on:
    it gets the directory of the link, what the link says and the steps left. -/
def advance (fs : FileSystem) (follow : Bool)
    (onLink : Location → Text → List Step → Except Errno Found) :
    Location → List Step → Except Errno Found
  | here, [] => .ok (.node here)
  | here, .insist :: rest => do
    fs.insistDirectory here
    advance fs follow onLink here rest
  | here, .stay :: rest => do
    fs.searchable here
    advance fs follow onLink here rest
  | here, .up :: rest => do
    fs.searchable here
    advance fs follow onLink here.dropLast rest
  | here, .child n :: rest => do
    fs.searchable here
    match fs.node? (here ++ [n]) with
    | none => if rest = [] then .ok (.vacant here n) else .error .noEntry
    | some node =>
      match node.content with
      | .link target =>
        if rest = [] ∧ follow = false then .ok (.node (here ++ [n])) else onLink here target rest
      | _ => advance fs follow onLink (here ++ [n]) rest

/-- Walks from a location and replaces at most so many links. -/
def resolve (fs : FileSystem) (follow : Bool) : Nat → Location → List Step → Except Errno Found
  | 0 => advance fs follow fun _ _ _ => .error .linkLoop
  | links + 1 => advance fs follow fun directory target rest =>
    match Spelling.ofText? target with
    | none => .error .noEntry
    | some s => resolve fs follow links (if s.fromRoot then [] else directory) (s.steps ++ rest)

/-- So many links are replaced in one walk. -/
def linkLimit : Nat := 40

/-- Where the working directory really is. -/
def workingLocation (fs : FileSystem) : Except Errno Location := do
  match ← fs.resolve true linkLimit [] (Spelling.ofPath fs.workingDirectory).steps with
  | .node l => .ok l
  | .vacant .. => .error .noEntry

/-- Walks a path. A link at the end is replaced only if `follow` is set. -/
def find (fs : FileSystem) (follow : Bool) (p : Path) : Except Errno Found := do
  let s := Spelling.ofPath p
  let start ← if s.fromRoot then .ok [] else fs.workingLocation
  fs.resolve follow linkLimit start s.steps

/-- The location of the node that a path names. -/
def locate (fs : FileSystem) (follow : Bool) (p : Path) : Except Errno Location := do
  match ← fs.find follow p with
  | .node l => .ok l
  | .vacant .. => .error .noEntry

end FileSystem
end Inventory
