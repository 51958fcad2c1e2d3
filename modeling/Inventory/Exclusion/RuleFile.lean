import Inventory.Exclusion.IgnoreRule
import Inventory.FileSystem.Calls
import Inventory.Notice

namespace Inventory.FileSystem

/-- The lines of a file of rules. -/
def ruleLines (fs : FileSystem) (file : Path) : Except Failure (List Text) :=
  match fs.read file with
  | .error why => .error (.reported (.unreadableRules file why))
  | .ok data =>
    if data.any Text.isLoneByte then .error .undecodable else .ok (Text.lines (Text.unifiedBreaks data))

/-- The rules of a file, and what is said while they are read. -/
def rules (fs : FileSystem) (file : Path) : List Notice × Except Failure IgnoreRules :=
  match fs.ruleLines file with
  | .error f => ([], .error f)
  | .ok lines => ([.rulesRead lines.length file], IgnoreRules.ofLines lines)

end Inventory.FileSystem
