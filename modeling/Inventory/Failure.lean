import Inventory.Entry

namespace Inventory

/-- The part that a directory on the command line plays. -/
inductive RootRole where
  | localRoot
  | searchRoot
deriving DecidableEq, Repr

def RootRole.label : RootRole → Text
  | .localRoot => "local directory".toList
  | .searchRoot => "directory to search".toList

inductive ErrorKind where
  | argument
  | pathNotFound
  | pathScope
  | sinkOpen
  | traversalOpen
  | targetStat
  | sinkWrite
deriving DecidableEq, Repr

def ErrorKind.exitCode : ErrorKind → Nat
  | .argument => 2
  | .pathNotFound => 3
  | .pathScope => 4
  | .sinkOpen => 5
  | .traversalOpen => 6
  | .targetStat => 7
  | .sinkWrite => 8

inductive InventoryError where
  | noSearchRoot
  /-- A given directory is none. -/
  | missingDirectory (role : RootRole) (given : Text)
  /-- A directory to search is not below the local root. -/
  | outOfScope (given localRoot : Text)
  | unreadableRules (file : Path) (why : Errno)
  | sinkNotOpened (sink : Path) (why : Errno)
  /-- The walk cannot start; without a reason the root is of a type that is not reported. -/
  | rootNotOpened (root : Path) (why : Option Errno)
  | targetNotRead (target : Path) (why : Errno)
  | lineNotWritten (why : Errno)
  | sinkNotFlushed (sink : Path) (why : Errno)
deriving DecidableEq

namespace InventoryError

def kind : InventoryError → ErrorKind
  | noSearchRoot => .argument
  | missingDirectory .. | unreadableRules .. => .pathNotFound
  | outOfScope .. => .pathScope
  | sinkNotOpened .. => .sinkOpen
  | rootNotOpened .. => .traversalOpen
  | targetNotRead .. => .targetStat
  | lineNotWritten .. | sinkNotFlushed .. => .sinkWrite

def exitCode (e : InventoryError) : Nat := e.kind.exitCode

private def inQuotes (t : Text) : Text := '\'' :: t ++ ['\'']

def message : InventoryError → Text
  | noSearchRoot => "at least one search root is required".toList
  | missingDirectory role given =>
    "the ".toList ++ role.label ++ [' '] ++ inQuotes given ++ " does not exist".toList
  | outOfScope given localRoot =>
    "the directory to search ".toList ++ inQuotes given ++
      " is not located in the local directory ".toList ++ inQuotes localRoot
  | unreadableRules file why =>
    "cannot read ignore file ".toList ++ inQuotes file.text ++ ": ".toList ++ why.text
  | sinkNotOpened sink why => "cannot open ".toList ++ inQuotes sink.text ++ ": ".toList ++ why.text
  | rootNotOpened root why =>
    "cannot traverse ".toList ++ inQuotes root.text ++ ": ".toList ++
      (why.map Errno.text).getD "unsupported node".toList
  | targetNotRead target why => "cannot stat ".toList ++ inQuotes target.text ++ ": ".toList ++ why.text
  | lineNotWritten why => "cannot write inventory: ".toList ++ why.text
  | sinkNotFlushed sink why => "cannot write ".toList ++ inQuotes sink.text ++ ": ".toList ++ why.text

end InventoryError

inductive Failure where
  | reported (e : InventoryError)
  /-- Only links can be followed. -/
  | notALink (p : Path)
  /-- A link has an existence code only with its resolution. -/
  | noResolution
  | walkedTwice
  | notBelow (p base : Path)
  /-- An error of the system that is not reported in another form. -/
  | system (why : Errno)
  | undecodable
  | malformedRule
  /-- A bracket in a rule has a range that runs downwards. -/
  | descendingRange
  | modeOverflow
  /-- A path has no canonical form, because it leads through ever more links. -/
  | endlessLinks (p : Path)
  | missingWord
deriving DecidableEq

namespace Failure

/-- The message, for failures that have one of this library's own. -/
def message? : Failure → Option Text
  | reported e => some e.message
  | notALink p => some ("only symbolic links can be followed: ".toList ++ p.text)
  | noResolution => some "symbolic link entries need a resolution".toList
  | walkedTwice => some "PathCursor can only be iterated once".toList
  | _ => none

end Failure
end Inventory
