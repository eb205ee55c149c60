/-
The condition code register: eight flags, and the byte they are stored as.

Instructions speak of single flags, so the register is a record of eight Booleans
and an operation that touches some of them says so by naming the fields. The byte
appears where the register meets memory or another register: pushes and pulls,
the immediate AND and OR, transfers, save-states. `toByte` and `ofByte` are
inverse to each other, so no information is lost on the way there and back.
-/
import Sim6809.Word

set_option autoImplicit false

namespace Sim6809

/-- The flags, from the most significant bit of the register to the least. -/
structure ConditionCodes where
  /-- The stacked frame holds every register, not only PC and the flags. -/
  entire : Bool
  /-- FIRQ is ignored. -/
  firqMask : Bool
  /-- Carry out of bit 3. -/
  halfCarry : Bool
  /-- IRQ is ignored. -/
  irqMask : Bool
  /-- The top bit of a result. -/
  negative : Bool
  /-- The result was zero. -/
  zero : Bool
  /-- The two's-complement result did not fit. -/
  overflow : Bool
  /-- Carry out of, or borrow into, the top bit. -/
  carry : Bool
deriving DecidableEq

namespace ConditionCodes

/-- Every flag clear. -/
def none : ConditionCodes := ⟨false, false, false, false, false, false, false, false⟩

/-- The bits a flag contributes to the register's byte. -/
def weight (flag : Bool) (bit : Byte) : Byte := if flag then bit else 0

/-- The register as a byte, `E F H I N Z V C` from the top. -/
def toByte (cc : ConditionCodes) : Byte :=
  weight cc.entire 0x80 ||| weight cc.firqMask 0x40 ||| weight cc.halfCarry 0x20 |||
    weight cc.irqMask 0x10 ||| weight cc.negative 0x08 ||| weight cc.zero 0x04 |||
    weight cc.overflow 0x02 ||| weight cc.carry 0x01

/-- Reads the flags out of a byte. -/
def ofByte (b : Byte) : ConditionCodes where
  entire := b &&& 0x80 != 0
  firqMask := b &&& 0x40 != 0
  halfCarry := b &&& 0x20 != 0
  irqMask := b &&& 0x10 != 0
  negative := b &&& 0x08 != 0
  zero := b &&& 0x04 != 0
  overflow := b &&& 0x02 != 0
  carry := b &&& 0x01 != 0

/-! ## Flags by mask

A mask names any set of flags at once, as the immediate operands of ANDCC and ORCC
do. -/

/-- Some flag of the mask is set. -/
def anySet (cc : ConditionCodes) (mask : Byte) : Bool := cc.toByte &&& mask != 0

/-- Sets every flag of the mask. -/
def raise (cc : ConditionCodes) (mask : Byte) : ConditionCodes := ofByte (cc.toByte ||| mask)

/-- Clears every flag outside the mask. -/
def keep (cc : ConditionCodes) (mask : Byte) : ConditionCodes := ofByte (cc.toByte &&& mask)

/-- Clears every flag of the mask. -/
def lower (cc : ConditionCodes) (mask : Byte) : ConditionCodes := cc.keep (~~~mask)

/-- Sets or clears every flag of the mask. -/
def assign (cc : ConditionCodes) (mask : Byte) (on : Bool) : ConditionCodes :=
  if on then cc.raise mask else cc.lower mask

/-! ## Flags from a result -/

/-- N and Z as a byte result leaves them. -/
def judgeByte (cc : ConditionCodes) (value : Byte) : ConditionCodes :=
  { cc with negative := value &&& 0x80 != 0, zero := value == 0 }

/-- N and Z as a word result leaves them. -/
def judgeWord (cc : ConditionCodes) (value : Word) : ConditionCodes :=
  { cc with negative := value &&& 0x8000 != 0, zero := value == 0 }

/-- Both interrupt masks set, as on every entry that must not be interrupted. -/
def maskAll (cc : ConditionCodes) : ConditionCodes :=
  { cc with firqMask := true, irqMask := true }

/-! ## The byte and the flags carry the same information -/

@[simp] theorem ofByte_toByte (cc : ConditionCodes) : ofByte cc.toByte = cc := by
  -- Eight Booleans are few enough to try them all, and so is a byte below.
  obtain ⟨e, f, h, i, n, z, v, c⟩ := cc
  revert e f h i n z v c
  decide

@[simp] theorem toByte_ofByte (b : Byte) : (ofByte b).toByte = b :=
  Byte.of_table b (by decide +kernel)

end ConditionCodes

end Sim6809
