import Inventory.Path

namespace Inventory

/-- Why a call to the system fails. -/
inductive Errno where
  | noEntry
  | inputOutput
  | badDescriptor
  | accessDenied
  | notDirectory
  | isDirectory
  | tooManyOpen
  | fileTooLarge
  | noSpace
  | readOnly
  | brokenPipe
  | linkLoop
  | staleHandle
  | quotaExceeded
deriving DecidableEq, Repr

namespace Errno

def number : Errno → Nat
  | noEntry => 2
  | inputOutput => 5
  | badDescriptor => 9
  | accessDenied => 13
  | notDirectory => 20
  | isDirectory => 21
  | tooManyOpen => 24
  | fileTooLarge => 27
  | noSpace => 28
  | readOnly => 30
  | brokenPipe => 32
  | linkLoop => 40
  | staleHandle => 116
  | quotaExceeded => 122

def text : Errno → Text
  | noEntry => "No such file or directory".toList
  | inputOutput => "Input/output error".toList
  | badDescriptor => "Bad file descriptor".toList
  | accessDenied => "Permission denied".toList
  | notDirectory => "Not a directory".toList
  | isDirectory => "Is a directory".toList
  | tooManyOpen => "Too many open files".toList
  | fileTooLarge => "File too large".toList
  | noSpace => "No space left on device".toList
  | readOnly => "Read-only file system".toList
  | brokenPipe => "Broken pipe".toList
  | linkLoop => "Too many levels of symbolic links".toList
  | staleHandle => "Stale file handle".toList
  | quotaExceeded => "Disk quota exceeded".toList

/-- The error only says that a path names nothing, so that a question about the
    path has the answer no. -/
def saysAbsent : Errno → Bool
  | noEntry | notDirectory | badDescriptor | linkLoop => true
  | _ => false

end Errno

/-- The calls that a fault can make fail. -/
inductive Call where
  | search
  | lstat
  | stat
  | access
  | openNode
  | write
deriving DecidableEq, Repr

/-- What a node is, with what it holds. -/
inductive Content where
  | directory
  | regular (data : Text)
  | link (target : Text)
  | fifo
  | socket
  | characterDevice
  | blockDevice
deriving DecidableEq

namespace Content

/-- The type bits that the node's mode has. -/
def typeBits : Content → Nat
  | directory => 0x4000
  | regular _ => 0x8000
  | link _ => 0xA000
  | fifo => 0x1000
  | socket => 0xC000
  | characterDevice => 0x2000
  | blockDevice => 0x6000

/-- The size that a node has unless it is given another. -/
def usualSize : Content → Int
  | directory => 4096
  | regular data => Text.byteSize data
  | link target => Text.byteSize target
  | _ => 0

end Content

/-- The times of a node in nanoseconds. -/
structure Times where
  changed : Int
  accessed : Int
  modified : Int
deriving DecidableEq, Repr

structure Node where
  content : Content
  size : Int
  times : Times
  faults : List (Call × Errno)
deriving DecidableEq

namespace Node

/-- A directory that nothing is said about. -/
def plainDirectory : Node := ⟨.directory, Content.usualSize .directory, ⟨0, 0, 0⟩, []⟩

/-- A regular file that was just made. -/
def emptyFile : Node := ⟨.regular [], 0, ⟨0, 0, 0⟩, []⟩

def isDirectory (n : Node) : Bool := n.content = .directory

/-- The error that a call on this node ends with, if it is set to fail. -/
def fault? (n : Node) (call : Call) : Option Errno := n.faults.lookup call

/-- A regular file with other data; its times stay. Any other node stays as it is. -/
def withData (n : Node) (data : Text) : Node :=
  match n.content with
  | .regular _ => { n with content := .regular data, size := Text.byteSize data }
  | _ => n

theorem isDirectory_withData (n : Node) (data : Text) : (n.withData data).isDirectory = n.isDirectory := by
  unfold withData isDirectory
  split <;> simp_all

end Node
end Inventory
