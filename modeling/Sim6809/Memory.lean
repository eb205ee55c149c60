/-
Flat memory: 64 KiB without decoding, and a count of the accesses made through the
bus.

Loading and inspecting memory from outside is not an access. A block is loaded
byte by byte at ascending addresses that wrap at the top, so a block longer than
the memory overwrites its own beginning.
-/
import Sim6809.Access
import Sim6809.CycleCount

set_option autoImplicit false

namespace Sim6809

/-- Memory that answers at every address. -/
structure Memory where
  bytes : Vector Byte 65536
  /-- Accesses made through the bus. -/
  cycles : CycleCount

namespace Memory

/-- All zero, never accessed. -/
def blank : Memory := ⟨.replicate 65536 0, .zero⟩

/-- The byte at an address, without an access. -/
def peek (m : Memory) (address : Word) : Byte :=
  have := address.toNat_lt
  m.bytes[address.toNat]

/-- Replaces the byte at an address, without an access. -/
def poke : Memory → Word → Byte → Memory
  | ⟨bytes, cycles⟩, address, value => ⟨bytes.set address.toNat value address.toNat_lt, cycles⟩

/-- Copies a block to the addresses from `address` on. -/
def load (m : Memory) (address : Word) : List Byte → Memory
  | [] => m
  | byte :: rest => (m.poke address byte).load (address + 1) rest

/-- One access more. -/
def counted : Memory → Memory
  | ⟨bytes, cycles⟩ => ⟨bytes, cycles.next⟩

instance : Bus Memory where
  read := fun m address => (m.peek address, m.counted)
  write := fun m address value => (m.poke address value).counted

/-- The addresses at which a memory differs from an earlier one, with the bytes
they hold now. -/
def changedSince (m earlier : Memory) : List (Word × Byte) :=
  (List.range 65536).filterMap fun n =>
    let address := UInt16.ofNat n
    if m.peek address = earlier.peek address then none else some (address, m.peek address)

/-! ## A write is seen at its address and nowhere else -/

theorem peek_poke (m : Memory) (a b : Word) (value : Byte) :
    (m.poke a value).peek b = if a = b then value else m.peek b := by
  simp only [peek, poke, Vector.getElem_set, UInt16.toNat_inj]

@[simp] theorem peek_poke_self (m : Memory) (a : Word) (value : Byte) :
    (m.poke a value).peek a = value := by
  simp [peek_poke]

@[simp] theorem cycles_poke (m : Memory) (a : Word) (value : Byte) :
    (m.poke a value).cycles = m.cycles := rfl

@[simp] theorem peek_counted (m : Memory) (a : Word) : m.counted.peek a = m.peek a := rfl

end Memory

end Sim6809
