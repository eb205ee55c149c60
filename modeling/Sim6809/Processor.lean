/-
The processor: everything it remembers between two bus cycles, and what its
surroundings may ask of it or do to it.

One value of `Processor` is the complete state. It holds the registers a program
sees and also the half-finished instruction: the pending micro-operations, the
page selected so far, and the latches in which address, operand and result are
assembled. Since nothing else is remembered anywhere, a save-state is such a value,
and taking one costs nothing.
-/
import Sim6809.CycleCount
import Sim6809.Inputs
import Sim6809.Instruction
import Sim6809.Schedule

set_option autoImplicit false

namespace Sim6809

/-- The state of a processor between two bus cycles. -/
structure Processor where
  regs : RegisterFile
  inputs : Inputs
  phase : Phase
  schedule : Schedule
  /-- The instruction being executed. -/
  instruction : Instruction
  /-- Opcode page selected so far: 0, 2 or 3. -/
  page : Byte
  /-- Postbyte of an indexed instruction. -/
  postbyte : Byte
  /-- Effective address. -/
  ea : Word
  /-- Operand, shifted in most significant byte first. -/
  data : Word
  /-- What the instruction is about to write. -/
  result : Word
  /-- The fetch that comes next has already been announced. -/
  announced : Bool
  cycles : CycleCount
deriving DecidableEq

namespace Processor

/-- A processor as it comes out of power-on. Its first cycles are a reset. -/
def powerOn : Processor where
  regs := .powerOn
  inputs := .released
  phase := .reset
  schedule := .empty
  instruction := .nop
  page := 0
  postbyte := 0
  ea := 0
  data := 0
  result := 0
  announced := false
  cycles := .zero

/-! ## Control -/

/-- Asks for a reset, which begins with the next cycle. -/
def reset (c : Processor) : Processor :=
  { c with schedule := c.schedule.clear, page := 0, announced := false, phase := .reset }

/-- Goes on at `pc`, abandoning whatever was half done. -/
def setPc (c : Processor) (pc : Word) : Processor :=
  { c with
    regs := { c.regs with pc := pc }
    schedule := c.schedule.clear.push (.cycle .fetchOpcode)
    page := 0
    announced := false
    phase := .execution }

/-- Drives the inputs. -/
def drive (c : Processor) (change : Inputs → Inputs) : Processor :=
  { c with inputs := change c.inputs }

/-! ## Status -/

/-- An undocumented opcode has locked the processor. -/
def isLocked (c : Processor) : Bool := c.phase == .locked

/-- The next cycle fetches the first opcode byte of an instruction. -/
def atBoundary (c : Processor) : Bool :=
  c.phase == .execution && c.page == 0 && c.schedule.current == some (.cycle .fetchOpcode)

/-- The processor idles until an input changes. -/
def isWaiting (c : Processor) : Bool :=
  match c.phase with
  | .syncWait | .syncHold | .cwaiWait | .locked => true
  | .boundary | .resetHold => c.schedule.isDrained && c.inputs.active.halt
  | _ => false

/-- The processor executes nothing: HALT holds it, or it is locked. -/
def isHalted (c : Processor) : Bool :=
  c.isLocked || c.inputs.active.halt &&
    match c.phase with
    | .boundary | .resetHold | .syncHold => true
    | _ => false

end Processor

end Sim6809
