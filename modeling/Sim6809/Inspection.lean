/-
Inspection: single values of the processor under names, for debuggers and front
ends.

The names form a table, which is the list of what can be asked and the answer to
each question in one place. A name that is not in it has no reading.
-/
import Sim6809.Hex
import Sim6809.Processor

set_option autoImplicit false

namespace Sim6809

/-- A value read from the processor. -/
inductive Reading
  | flag (value : Bool)
  | byte (value : Byte)
  | word (value : Word)
  | count (value : UInt64)
  | text (value : String)
deriving DecidableEq

/-- How a reading is displayed: bytes and words in hexadecimal after a dollar sign,
counts in decimal. -/
def Reading.display : Reading → String
  | flag value => if value then "true" else "false"
  | byte value => "$" ++ Hex.byte value
  | word value => "$" ++ Hex.word value
  | count value => value.toNat.repr
  | text value => value

namespace Processor

/-- Everything that can be asked, in the order it is listed. -/
def inspectable : List (String × (Processor → Reading)) :=
  [("pc", fun c => .word c.regs.pc),
    ("a", fun c => .byte c.regs.a),
    ("b", fun c => .byte c.regs.b),
    ("d", fun c => .word c.regs.d),
    ("x", fun c => .word c.regs.x),
    ("y", fun c => .word c.regs.y),
    ("u", fun c => .word c.regs.u),
    ("s", fun c => .word c.regs.s),
    ("dp", fun c => .byte c.regs.dp),
    ("cc", fun c => .byte c.regs.cc.toByte),
    ("flags.c", fun c => .flag c.regs.cc.carry),
    ("flags.v", fun c => .flag c.regs.cc.overflow),
    ("flags.z", fun c => .flag c.regs.cc.zero),
    ("flags.n", fun c => .flag c.regs.cc.negative),
    ("flags.i", fun c => .flag c.regs.cc.irqMask),
    ("flags.h", fun c => .flag c.regs.cc.halfCarry),
    ("flags.f", fun c => .flag c.regs.cc.firqMask),
    ("flags.e", fun c => .flag c.regs.cc.entire),
    ("state", fun c => .text c.phase.name),
    ("cycle", fun c => .count c.cycles.count),
    ("halted", fun c => .flag c.isHalted),
    ("hcf", fun c => .flag c.isLocked),
    ("nmi_armed", fun c => .flag c.inputs.nmiArmed),
    ("lines.halt", fun c => .flag c.inputs.live.halt),
    ("lines.nmi", fun c => .flag c.inputs.live.nmi),
    ("lines.firq", fun c => .flag c.inputs.live.firq),
    ("lines.irq", fun c => .flag c.inputs.live.irq)]

/-- The names that have a reading. -/
def paths : List String := inspectable.map (·.1)

/-- The reading under a name. -/
def query (c : Processor) (path : String) : Option Reading :=
  (inspectable.lookup path).map fun read => read c

end Processor

end Sim6809
