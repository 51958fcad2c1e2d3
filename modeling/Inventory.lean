import Inventory.CommandLine
import Inventory.Main
import Inventory.Proofs.Confinement
import Inventory.Proofs.Coverage
import Inventory.Proofs.CycleGuard
import Inventory.Proofs.Decoding
import Inventory.Proofs.Endings
import Inventory.Proofs.Filtering
import Inventory.Proofs.GivenRoots
import Inventory.Proofs.Interruptions
import Inventory.Proofs.OutputLines
import Inventory.Proofs.Reentry
import Inventory.Proofs.Relocation
import Inventory.Proofs.Rerun
import Inventory.Proofs.RuleLines
import Inventory.Proofs.SearchRoot
import Inventory.Proofs.SiblingOrder
import Inventory.Proofs.StackCalls
import Inventory.Proofs.Streams
import Inventory.Proofs.Widening
