import Sim6809.Board
import Sim6809.Dispatcher
import Sim6809.Inspection
import Sim6809.Json.Text
import Sim6809.Memory
import Sim6809.Processor.Settle
import Sim6809.SaveState
import Sim6809.Proofs.Reachable
import Sim6809.Proofs.Order
import Sim6809.Proofs.Dispatching
import Sim6809.Proofs.OneAccess
import Sim6809.Proofs.Fetching
import Sim6809.Proofs.DataInstructions
import Sim6809.Proofs.Frames
import Sim6809.Proofs.InterruptEntry
import Sim6809.Proofs.InterruptReturn
import Sim6809.Proofs.History
import Sim6809.Proofs.Provenance
import Sim6809.Proofs.NonMaskable
import Sim6809.Proofs.Stacking
import Sim6809.Proofs.FrameKinds
import Sim6809.Proofs.Vectoring
import Sim6809.Proofs.Recognition
import Sim6809.Proofs.Latches
import Sim6809.Proofs.Scratch
import Sim6809.Proofs.SaveStates
import Sim6809.Proofs.Halting
import Sim6809.Proofs.Breakpoints
import Sim6809.Proofs.HookCounts
import Sim6809.Proofs.MaskedLines
import Sim6809.Proofs.StepReturns
import Sim6809.Proofs.ResetRecovery
import Sim6809.Proofs.Timing
import Sim6809.Proofs.Masks
import Sim6809.Proofs.Locking
import Sim6809.Proofs.SyncWait
import Sim6809.Proofs.CwaiWait
import Sim6809.Proofs.Status
import Sim6809.Proofs.IndexedAddress
import Sim6809.Proofs.SaveFormat
import Sim6809.Proofs.IntegerArithmetic
import Sim6809.Proofs.Execution
import Sim6809.Proofs.RegisterLists
import Sim6809.Proofs.Calls
import Sim6809.Proofs.Comparisons
import Sim6809.Proofs.CarryChains
import Sim6809.Proofs.PackedDecimal
import Sim6809.Proofs.Exchanges
import Sim6809.Proofs.PageSelections
import Sim6809.Proofs.OperandAccesses
import Sim6809.Proofs.InputHistory
import Sim6809.Proofs.BlockLoads
import Sim6809.Proofs.Queueing
import Sim6809.Proofs.Watchpoints
