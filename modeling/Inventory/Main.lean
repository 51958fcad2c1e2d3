import Inventory.CommandLine
import Inventory.Snapshot

namespace Inventory

/-- The lines of a stream, without their ends. -/
partial def readLines (input : IO.FS.Stream) (read : List Text) : IO (List Text) := do
  let line ← input.getLine
  if line.isEmpty then return read.reverse
  let t := line.toList
  readLines input ((if t.getLast? = some '\n' then t.dropLast else t) :: read)

/-- Presents what came of a command line. -/
def present (e : Execution) : IO UInt32 := do
  for line in e.lines do
    IO.eprintln (String.ofList line)
  if let .ran _ r := e then
    for (_, t) in r.delivered do
      IO.print (String.ofList t)
  return UInt32.ofNat (e.exitCode?.getD 1)

end Inventory

def main (arguments : List String) : IO UInt32 := do
  let lines ← Inventory.readLines (← IO.getStdin) []
  match Inventory.Snapshot.ofLines? lines with
  | none =>
    IO.eprintln "the snapshot cannot be read"
    return 1
  | some s => Inventory.present (Inventory.Execution.ofTexts s.system s.now (arguments.map String.toList))
