/-
Interrupts: which one is recognised, where its handler's address is stored, and
which masks it sets.

Recognition is one rule for every place that asks. NMI comes first and cannot be
masked, then FIRQ, then IRQ, each unless its mask is set. The processor asks twice,
before it stacks a frame and again once the frame is stacked, and the two answers
may differ, because the inputs keep moving while the frame is written.
-/
import Sim6809.ConditionCodes
import Sim6809.Inputs

set_option autoImplicit false

namespace Sim6809

/-- A pointer to a handler at the top of memory, lowest address first. -/
inductive InterruptVector
  | swi3 | swi2 | firq | irq | swi | nmi | reset
deriving DecidableEq

namespace InterruptVector

/-- Where the handler's address is stored, high byte first. -/
def address : InterruptVector → Word
  | swi3 => 0xFFF2
  | swi2 => 0xFFF4
  | firq => 0xFFF6
  | irq => 0xFFF8
  | swi => 0xFFFA
  | nmi => 0xFFFC
  | reset => 0xFFFE

/-- The flags set on the way into the handler: an interrupt masks itself and
whatever ranks below it. -/
def mask : InterruptVector → Byte
  | irq => 0x10
  | firq | swi | nmi | reset => 0x50
  | swi2 | swi3 => 0x00

/-- The name used in diagnostics and save-states. -/
def name : InterruptVector → String
  | swi3 => "Swi3"
  | swi2 => "Swi2"
  | firq => "Firq"
  | irq => "Irq"
  | swi => "Swi"
  | nmi => "Nmi"
  | reset => "Reset"

end InterruptVector

/-- Interrupts raised by an instruction. -/
inductive SoftwareInterrupt
  | swi | swi2 | swi3
  /-- Undocumented: stacks like SWI and leaves through the reset vector. -/
  | reset
deriving DecidableEq

/-- The vector a software interrupt leaves through. -/
def SoftwareInterrupt.vector : SoftwareInterrupt → InterruptVector
  | swi => .swi
  | swi2 => .swi2
  | swi3 => .swi3
  | reset => .reset

/-- Interrupts raised by an input. -/
inductive HardwareInterrupt
  | nmi | firq | irq
deriving DecidableEq

namespace HardwareInterrupt

/-- The vector a hardware interrupt leaves through. -/
def vector : HardwareInterrupt → InterruptVector
  | nmi => .nmi
  | firq => .firq
  | irq => .irq

/-- Whether the frame holds every register. FIRQ is fast because its does not. -/
def stacksEntire : HardwareInterrupt → Bool
  | firq => false
  | nmi | irq => true

/-- An interrupt is eligible when its input is active and it is not masked. -/
def eligible (active : Levels) (cc : ConditionCodes) : HardwareInterrupt → Bool
  | nmi => active.nmi
  | firq => active.firq && !cc.firqMask
  | irq => active.irq && !cc.irqMask

/-- The eligible interrupt of highest priority. -/
def recognised (active : Levels) (cc : ConditionCodes) : Option HardwareInterrupt :=
  [nmi, firq, irq].find? (eligible active cc)

end HardwareInterrupt

end Sim6809
