/-
The board: a processor wired to a bus and watched by a monitor.

`clock` is one bus cycle of the whole: the processor says which access it makes,
the bus carries it out, the byte goes back to the processor, and the monitor hears
of everything on the way. If the instruction hook holds the processor, no access is
made and nothing but the announcement has changed. `run` and `step` are clocks
repeated, for a number of cycles or up to the next instruction.

The same clock as a loop, which finds its bus cycle as it goes, is in `Dispatcher.lean`.
-/
import Sim6809.Monitor
import Sim6809.Processor.Cycle
import Sim6809.Processor.Restore

set_option autoImplicit false

namespace Sim6809

/-- A processor, the bus it drives, and the notes its monitor takes. -/
structure Board (β σ : Type) where
  cpu : Processor
  bus : β
  notes : σ

/-- How one clock ended. -/
inductive Tick
  /-- With one bus cycle done. -/
  | cycle
  /-- Held before a fetch, without a bus cycle. -/
  | held
deriving DecidableEq

/-- Why a run ended. -/
inductive Stop
  /-- All its cycles are done. -/
  | budget
  /-- The instruction hook held the processor. -/
  | breakpoint
deriving DecidableEq

/-- Cycles that a run made, and why it ended. -/
structure RunOutcome where
  cycles : Nat
  stop : Stop
deriving DecidableEq

/-- Cycles that a step made, and whether it came to an end in them. -/
structure StepOutcome where
  cycles : Nat
  finished : Bool
deriving DecidableEq

namespace Board

variable {β σ : Type}

/-- The bus cycle of a processor that is ready for it. -/
def exchange [Bus β] (m : Monitor σ) : Board β σ → Board β σ
  | ⟨cpu, bus, notes⟩ =>
    let access := cpu.access
    let (byte, bus) := access.perform bus
    let notes := if cpu.operandDue then m.watch access byte notes else notes
    let done := cpu.complete byte
    ⟨done.state, bus, m.hearAll notes done.reports⟩

/-- One bus cycle, unless the instruction hook holds the processor before it. -/
def clock [Bus β] (m : Monitor σ) : Board β σ → Tick × Board β σ
  | ⟨cpu, bus, notes⟩ =>
    let ready := cpu.prepare
    let notes := m.hearAll notes ready.reports
    let cpu := ready.state
    if cpu.asksFirst then
      -- The announcement is kept in both cases, so that a held fetch is not announced
      -- again.
      match m.ask cpu.regs notes with
      | (.hold, notes) => (.held, ⟨cpu.announce, bus, notes⟩)
      | (.proceed, notes) => (.cycle, exchange m ⟨cpu.announce, bus, notes⟩)
    else (.cycle, exchange m ⟨cpu, bus, notes⟩)

/-- One bus cycle; held, nothing. -/
def tick [Bus β] (m : Monitor σ) (b : Board β σ) : Board β σ := (clock m b).2

/-- Clocks until `budget` more cycles are done, on top of those done already. -/
def runOn [Bus β] (m : Monitor σ) (done : Nat) : Nat → Board β σ → RunOutcome × Board β σ
  | 0, b => (⟨done, .budget⟩, b)
  | budget + 1, b =>
    match clock m b with
    | (.held, b) => (⟨done, .breakpoint⟩, b)
    | (.cycle, b) => runOn m (done + 1) budget b

/-- Runs until `budget` cycles are done or the instruction hook holds the
processor. -/
def run [Bus β] (m : Monitor σ) (budget : Nat) (b : Board β σ) : RunOutcome × Board β σ :=
  runOn m 0 budget b

/-- Clocks up to the end of the instruction, on top of the cycles done already. -/
def stepOn [Bus β] (m : Monitor σ) (done : Nat) :
    Nat → Board β σ → StepOutcome × Board β σ
  | 0, b => (⟨done, false⟩, b)
  | limit + 1, b =>
    match clock m b with
    | (.held, b) => (⟨done, true⟩, b)
    | (.cycle, b) =>
      if b.cpu.atBoundary || b.cpu.isWaiting then (⟨done + 1, true⟩, b)
      else stepOn m (done + 1) limit b

/-- One instruction, including the interrupt entry that may follow it: clocks until
a new opcode is due, the processor waits, or the instruction hook holds it. A row
of page selections can be as long as memory, or endless if memory holds nothing
else, so the number of cycles has a limit. -/
def stepWithin [Bus β] (m : Monitor σ) (limit : Nat) (b : Board β σ) :
    StepOutcome × Board β σ :=
  stepOn m 0 limit b

/-- Enough cycles for any instruction in memory, page selections included, with
room to spare. -/
def stepLimit : Nat := 0x20000

/-- One instruction. -/
def step [Bus β] (m : Monitor σ) (b : Board β σ) : StepOutcome × Board β σ :=
  stepWithin m stepLimit b

/-- Takes up a saved state, if it can be resumed from. The bus and the notes are not
part of it. -/
def restore (b : Board β σ) (saved : Processor) : Except RestoreError (Board β σ) :=
  saved.restore.map fun cpu => { b with cpu := cpu }

end Board

end Sim6809
