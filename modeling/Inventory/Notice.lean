import Inventory.Text.Quoted
import Inventory.FileSystem.Node

namespace Inventory

inductive Level where
  | debug
  | info
  | warning
deriving DecidableEq, Repr

namespace Level

def label : Level → Text
  | debug => "DEBUG".toList
  | info => "INFO".toList
  | warning => "WARNING".toList

def severity : Level → Nat
  | debug => 10
  | info => 20
  | warning => 30

end Level

inductive Notice where
  /-- A link leads nowhere; `failing` is the path that could not be asked about. -/
  | unresolved (link failing : Path) (why : Errno)
  | unreadable (p : Path)
  | unsupported (p : Path)
  | excluded (p : Path)
  | notOpened (p : Path) (why : Errno)
  /-- A link is entered, as the so many-th that is. -/
  | entered (source destination : Path) (depth : Nat)
  | left (source destination : Path)
  | outside (link target : Path)
  | alreadyScanned (link target : Path)
  | encloses (link target : Path)
  | revisited (p : Path)
  | scanned (count : Nat) (root : Path)
  | wrote (count : Nat) (mode : Text) (root : Path)
  | rulesRead (count : Nat) (file : Path)
  | rootsIgnored (roots : List Path)
deriving DecidableEq

namespace Notice

def level : Notice → Level
  | notOpened .. | rootsIgnored .. => .warning
  | scanned .. | wrote .. => .info
  | _ => .debug

/-- The part of the program that speaks. -/
def channel : Notice → Text
  | unresolved .. => "fsinventory.classify".toList
  | unreadable .. | unsupported .. | excluded .. | notOpened .. => "fsinventory.cursor".toList
  | entered .. | left .. => "fsinventory.redirect".toList
  | outside .. | alreadyScanned .. | encloses .. => "fsinventory.rewrite".toList
  | revisited .. | scanned .. => "fsinventory.scanner".toList
  | wrote .. => "fsinventory.emitter".toList
  | rulesRead .. => "fsinventory.gitignore".toList
  | rootsIgnored .. => "fsinventory.cli".toList

private def count (n : Nat) : Text := Nat.toDigits 10 n

/-- The paths, with a comma and a space between each two. -/
private def listed : List Path → Text
  | [] => []
  | [p] => p.text
  | p :: rest => p.text ++ ", ".toList ++ listed rest

def message : Notice → Text
  | unresolved link failing why =>
    "Cannot resolve symlink ".toList ++ link.text ++ ": [Errno ".toList ++ count why.number ++ "] ".toList ++
      why.text ++ ": ".toList ++ Text.quoted failing.text
  | unreadable p => "Cannot stat: ".toList ++ p.text
  | unsupported p => "Skipping unsupported node type: ".toList ++ p.text
  | excluded p => "Excluded: ".toList ++ p.text
  | notOpened p why => "Cannot open directory ".toList ++ p.text ++ ": ".toList ++ why.text
  | entered source destination depth =>
    "Redirect ".toList ++ source.text ++ " -> ".toList ++ destination.text ++ " (depth ".toList ++
      count depth ++ ")".toList
  | left source destination => "Leave redirect ".toList ++ source.text ++ " -> ".toList ++ destination.text
  | outside link target =>
    "Not entering ".toList ++ link.text ++ ": target ".toList ++ target.text ++ " outside local root".toList
  | alreadyScanned link target =>
    "Not entering ".toList ++ link.text ++ ": target ".toList ++ target.text ++ " already scanned".toList
  | encloses link target =>
    "Not entering ".toList ++ link.text ++ ": target ".toList ++ target.text ++ " encloses the link".toList
  | revisited p => "Skipping ".toList ++ p.text ++ ": already inside the search root".toList
  | scanned n root => "Scanned ".toList ++ count n ++ " entries under ".toList ++ root.text
  | wrote n mode root =>
    "Wrote ".toList ++ count n ++ " ".toList ++ mode ++ " records for ".toList ++ root.text
  | rulesRead n file => "Loaded ".toList ++ count n ++ " ignore lines from ".toList ++ file.text
  | rootsIgnored roots => "Only the first search root is scanned; ignoring ".toList ++ listed roots

/-- The notice as one line. -/
def line (n : Notice) : Text := n.level.label ++ [' '] ++ n.channel ++ ": ".toList ++ n.message

end Notice
end Inventory
