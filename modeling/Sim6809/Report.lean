/-
What the processor tells about itself: diagnostics for a log, and the events that
instrumentation can listen to.

Reports are data. The processor says what happened; whether anybody listens is
decided where it is wired up, so that no report can change what the processor
does.
-/
import Sim6809.Hex
import Sim6809.MicroOp

set_option autoImplicit false

namespace Sim6809

/-- How much attention a diagnostic deserves. -/
inductive Severity
  | trace | debug | warn
deriving DecidableEq

/-- The severity as a log shows it. -/
def Severity.name : Severity → String
  | trace => "TRACE"
  | debug => "DEBUG"
  | warn => "WARN"

/-- Something worth a line in a log. -/
inductive Notice
  /-- The reset sequence began. -/
  | resetBegun
  /-- HALT is released, and the reset vector is fetched. -/
  | resetReleased
  /-- A vector is taken. -/
  | vectorTaken (which : InterruptVector) (pc : Word)
  /-- An instruction began to wait. -/
  | waiting (phase : Phase) (pc : Word)
  /-- An instruction locked the processor. -/
  | locked (pc : Word)
  /-- SYNC saw an interrupt input. -/
  | syncReleased (pc : Word)
deriving DecidableEq

namespace Notice

/-- The notice of entering a phase. The locking opcode is the byte before PC. -/
def ofEntry (phase : Phase) (pc : Word) : Notice :=
  if phase = .locked then locked (pc - 1) else waiting phase pc

def severity : Notice → Severity
  | resetBegun | resetReleased => .debug
  | vectorTaken .. | waiting .. | syncReleased _ => .trace
  | locked _ => .warn

def message : Notice → String
  | resetBegun => "6809 reset"
  | resetReleased => "6809 leaving reset, fetching vector"
  | vectorTaken which pc =>
    which.name ++ " from $" ++ Hex.word pc ++ ", vector $" ++ Hex.word which.address
  | waiting phase pc => phase.name ++ " at $" ++ Hex.word pc
  | locked pc => "HCF at $" ++ Hex.word pc ++ ": CPU locked until reset"
  | syncReleased pc => "SYNC released at $" ++ Hex.word pc

end Notice

/-- What happened between two bus cycles. -/
inductive Report
  /-- A line for the log. -/
  | notice (notice : Notice)
  /-- An instruction was completed, leaving these registers. -/
  | retired (regs : RegisterFile)
deriving DecidableEq

end Sim6809
