import Inventory.FileSystem.Resolve

namespace Inventory.FileSystem

/-- The node at a location, unless the call is set to fail on it. -/
def nodeFor (fs : FileSystem) (call : Call) (l : Location) : Except Errno Node :=
  match fs.node? l with
  | none => .error .noEntry
  | some n =>
    match n.fault? call with
    | some e => .error e
    | none => .ok n

/-- The node that a path names; a link at the end is the node itself. -/
def lstat (fs : FileSystem) (p : Path) : Except Errno Node := do
  fs.nodeFor .lstat (← fs.locate false p)

def stat (fs : FileSystem) (p : Path) : Except Errno Node := do
  fs.nodeFor .stat (← fs.locate true p)

/-- The path leads to a node that may be asked about. -/
def canAccess (fs : FileSystem) (p : Path) : Bool :=
  match fs.locate true p with
  | .error _ => false
  | .ok l => (fs.nodeFor .access l).toBool

/-- The names in the directory that a path leads to, in read order. -/
def list (fs : FileSystem) (p : Path) : Except Errno (List Name) := do
  let l ← fs.locate true p
  let n ← fs.nodeFor .openNode l
  if n.isDirectory then .ok (fs.names l) else .error .notDirectory

def read (fs : FileSystem) (p : Path) : Except Errno Text := do
  let n ← fs.nodeFor .openNode (← fs.locate true p)
  match n.content with
  | .directory => .error .isDirectory
  | .regular data => .ok data
  | _ => .ok []

/-- Opens a file for writing: a missing one is made at the end of its
    directory, a regular one is emptied. The location says which node was opened. -/
def openForWriting (fs : FileSystem) (p : Path) : Except Errno (FileSystem × Location) := do
  match ← fs.find true p with
  | .vacant directory n => .ok (fs.create directory n .emptyFile, directory ++ [n])
  | .node l =>
    let n ← fs.nodeFor .openNode l
    if n.isDirectory then .error .isDirectory else .ok (fs.store l [], l)

/-- The path leads to a directory. Only a failure that says more than that the
    path names nothing is passed on. -/
def isDirectory (fs : FileSystem) (p : Path) : Except Errno Bool :=
  match fs.stat p with
  | .ok n => .ok n.isDirectory
  | .error e => if e.saysAbsent then .ok false else .error e

end Inventory.FileSystem
