/-
The bus: what a processor can do to the rest of the machine, one byte at a time.

A bus is any state that answers reads and takes writes. Reading may change it, as
it does with peripherals, and need not give back what was written. `Recorded` puts
a recorder in front of a bus; what it recorded is how two runs are compared, and
it changes nothing else.
-/
import Sim6809.Word

set_option autoImplicit false

namespace Sim6809

/-- A state that can be read and written through the bus. One call is one cycle. -/
class Bus (β : Type) where
  read : β → Word → Byte × β
  write : β → Word → Byte → β

/-- What a processor drives during one cycle. -/
inductive Access
  | read (address : Word)
  | write (address : Word) (value : Byte)
deriving DecidableEq

namespace Access

/-- A cycle without a valid address. The chip leaves its address lines high. -/
def idle : Access := read 0xFFFF

/-- The address driven. -/
def address : Access → Word
  | read address => address
  | write address _ => address

/-- Carries out an access: the byte on the data lines, and the bus afterwards. -/
def perform {β : Type} [Bus β] (access : Access) (bus : β) : Byte × β :=
  match access with
  | read address => Bus.read bus address
  | write address value => (value, Bus.write bus address value)

end Access

/-- An access together with the byte that was on the data lines. -/
structure Transfer where
  access : Access
  byte : Byte
deriving DecidableEq

/-- A bus and the transfers made on it so far. -/
structure Recorded (β : Type) where
  bus : β
  transfers : Array Transfer

instance {β : Type} [Bus β] : Bus (Recorded β) where
  read := fun ⟨bus, transfers⟩ address =>
    let (byte, bus) := Bus.read bus address
    (byte, ⟨bus, transfers.push ⟨.read address, byte⟩⟩)
  write := fun ⟨bus, transfers⟩ address value =>
    ⟨Bus.write bus address value, transfers.push ⟨.write address value, value⟩⟩

/-- A recorder notes exactly the access that is made through it. -/
theorem Recorded.perform {β : Type} [Bus β] (access : Access) (r : Recorded β) :
    access.perform r =
      ((access.perform r.bus).1,
        ⟨(access.perform r.bus).2, r.transfers.push ⟨access, (access.perform r.bus).1⟩⟩) := by
  cases access <;> rfl

end Sim6809
