/-
The arithmetic unit: what each operation computes from its operands and how it
leaves the flags.

Every function takes the flags as they were and returns them as they become; a
flag that an operation does not define is passed through, which the record update
shows by not naming it. Carries and overflows are read off the bits of operands
and result, the way the chip derives them: `a ^ b ^ r` holds the carry into every
bit, and two's-complement overflow means that the result's sign differs from both
addends'.

The undocumented operations are here as well, since their flags are as definite
as the others': a negate that turns into a complement when carry is set, a
decrement that reports a borrow, and a clear that leaves carry alone.
-/
import Sim6809.ConditionCodes

set_option autoImplicit false

namespace Sim6809

/-- A value computed and the flags it leaves. -/
structure Outcome (α : Type) where
  value : α
  cc : ConditionCodes
deriving DecidableEq

namespace Arithmetic

/-- The number a flag counts as when it is carried into a sum. -/
def carryWord (flag : Bool) : Word := if flag then 1 else 0

/-! ## Addition and subtraction -/

/-- Sum of two bytes and a carry. Defines H, N, Z, V and C. -/
def addByte (cc : ConditionCodes) (a b : Byte) (carry : Bool) : Outcome Byte :=
  let sum := a.toUInt16 + b.toUInt16 + carryWord carry
  let r := Word.low sum
  { value := r
    cc := { cc.judgeByte r with
      -- The carry into bit 4 is the carry out of the low digit.
      halfCarry := (a ^^^ b ^^^ r) &&& 0x10 != 0
      overflow := (a ^^^ r) &&& (b ^^^ r) &&& 0x80 != 0
      carry := sum &&& 0x100 != 0 } }

/-- Difference of two bytes and a borrow. Defines N, Z, V and C; H is left alone. -/
def subByte (cc : ConditionCodes) (a b : Byte) (borrow : Bool) : Outcome Byte :=
  let difference := a.toUInt16 - b.toUInt16 - carryWord borrow
  let r := Word.low difference
  { value := r
    cc := { cc.judgeByte r with
      overflow := (a ^^^ b) &&& (a ^^^ r) &&& 0x80 != 0
      -- A difference below zero wraps, which sets every bit above the byte.
      carry := difference &&& 0x100 != 0 } }

/-- Sum of two words. -/
def addWord (cc : ConditionCodes) (a b : Word) : Outcome Word :=
  let sum := a.toUInt32 + b.toUInt32
  let r := sum.toUInt16
  { value := r
    cc := { cc.judgeWord r with
      overflow := (a ^^^ r) &&& (b ^^^ r) &&& 0x8000 != 0
      carry := sum &&& 0x10000 != 0 } }

/-- Difference of two words. -/
def subWord (cc : ConditionCodes) (a b : Word) : Outcome Word :=
  let difference := a.toUInt32 - b.toUInt32
  let r := difference.toUInt16
  { value := r
    cc := { cc.judgeWord r with
      overflow := (a ^^^ b) &&& (a ^^^ r) &&& 0x8000 != 0
      carry := difference &&& 0x10000 != 0 } }

/-! ## Loads, stores and logic -/

/-- A byte loaded, stored or combined bitwise: N and Z follow it and V is cleared. -/
def passByte (cc : ConditionCodes) (value : Byte) : Outcome Byte :=
  ⟨value, { cc.judgeByte value with overflow := false }⟩

/-- A word loaded or stored. -/
def passWord (cc : ConditionCodes) (value : Word) : Outcome Word :=
  ⟨value, { cc.judgeWord value with overflow := false }⟩

/-- Flags after a store to an immediate operand, which no address receives: N is
forced on, Z and V off. -/
def discard (cc : ConditionCodes) : ConditionCodes :=
  { cc with negative := true, zero := false, overflow := false }

/-! ## Operations the opcode map names -/

/-- Two-operand operations on an accumulator. -/
inductive ByteOp
  | sub | cmp | sbc | and | bit | ld | eor | adc | or | add
deriving DecidableEq

namespace ByteOp

/-- A compare and a bit test only set flags. -/
def keepsResult : ByteOp → Bool
  | cmp | bit => false
  | _ => true

/-- The operation on accumulator `a` and operand `b`. Compares and bit tests
compute a value too; `keepsResult` says that nobody stores it. -/
def apply (op : ByteOp) (cc : ConditionCodes) (a b : Byte) : Outcome Byte :=
  match op with
  | sub | cmp => subByte cc a b false
  | sbc => subByte cc a b cc.carry
  | and | bit => passByte cc (a &&& b)
  | ld => passByte cc b
  | eor => passByte cc (a ^^^ b)
  | adc => addByte cc a b cc.carry
  | or => passByte cc (a ||| b)
  | add => addByte cc a b false

end ByteOp

/-- Arithmetic on a 16-bit register. -/
inductive WordOp
  | sub | add | cmp
deriving DecidableEq

namespace WordOp

/-- A compare only sets flags. -/
def keepsResult : WordOp → Bool
  | cmp => false
  | _ => true

/-- The operation on register `a` and operand `b`. -/
def apply (op : WordOp) (cc : ConditionCodes) (a b : Word) : Outcome Word :=
  match op with
  | sub | cmp => subWord cc a b
  | add => addWord cc a b

end WordOp

/-- Operations that read a byte and write it back. -/
inductive UnaryOp
  | neg | com | lsr | ror | asr | asl | rol | dec | inc | tst | clr
  /-- Undocumented: a negate while carry is clear, a complement once it is set. -/
  | negOrCom
  /-- Undocumented: a decrement that sets carry on a borrow. -/
  | decBorrow
  /-- Undocumented: a clear that leaves carry alone. -/
  | clrKeepCarry
deriving DecidableEq

namespace UnaryOp

/-- The one's complement, which always sets carry. -/
def complement (cc : ConditionCodes) (a : Byte) : Outcome Byte :=
  ⟨~~~a, { cc.judgeByte (~~~a) with overflow := false, carry := true }⟩

/-- A right shift with the given bit entering at the top. V is left alone. -/
def shiftRight (cc : ConditionCodes) (a top : Byte) : Outcome Byte :=
  let r := (a >>> 1) ||| top
  ⟨r, { cc.judgeByte r with carry := a &&& 0x01 != 0 }⟩

/-- A left shift with the given bit entering at the bottom. V is set when the sign
changes. -/
def shiftLeft (cc : ConditionCodes) (a bottom : Byte) : Outcome Byte :=
  let r := (a <<< 1) ||| bottom
  -- The sign that matters for V is bit 6 of the operand, on its way to bit 7.
  ⟨r, { cc.judgeByte r with
    overflow := (a ^^^ (a <<< 1)) &&& 0x80 != 0
    carry := a &&& 0x80 != 0 }⟩

/-- A decrement. V is set when the most negative number wraps. -/
def decrement (cc : ConditionCodes) (a : Byte) : Outcome Byte :=
  ⟨a - 1, { cc.judgeByte (a - 1) with overflow := a == 0x80 }⟩

/-- A clear. -/
def clear (cc : ConditionCodes) : Outcome Byte :=
  ⟨0, { cc with negative := false, zero := true, overflow := false }⟩

/-- The operation on one byte. -/
def apply (op : UnaryOp) (cc : ConditionCodes) (a : Byte) : Outcome Byte :=
  match op with
  -- A negate is a subtraction from zero, flags included.
  | neg => subByte cc 0 a false
  | negOrCom => if cc.carry then complement cc a else subByte cc 0 a false
  | com => complement cc a
  | lsr => shiftRight cc a 0
  | ror => shiftRight cc a (if cc.carry then 0x80 else 0)
  | asr => shiftRight cc a (a &&& 0x80)
  | asl => shiftLeft cc a 0
  | rol => shiftLeft cc a (if cc.carry then 1 else 0)
  | dec => decrement cc a
  | decBorrow =>
    let r := decrement cc a
    { r with cc := { r.cc with carry := a == 0 } }
  | inc => ⟨a + 1, { cc.judgeByte (a + 1) with overflow := a == 0x7F }⟩
  | tst => passByte cc a
  | clr =>
    let r := clear cc
    { r with cc := { r.cc with carry := false } }
  | clrKeepCarry => clear cc

end UnaryOp

/-! ## Operations with operands of their own -/

/-- Unsigned product of two bytes. Z follows the product; C is bit 7 of it, so that
adding C to the high byte rounds. -/
def multiply (cc : ConditionCodes) (a b : Byte) : Outcome Word :=
  let r := a.toUInt16 * b.toUInt16
  ⟨r, { cc with zero := r == 0, carry := r &&& 0x80 != 0 }⟩

/-- Decimal adjustment after a sum of packed decimal digits: six is added to each
digit that left its range. C is set by a carry out and never cleared. -/
def decimalAdjust (cc : ConditionCodes) (a : Byte) : Outcome Byte :=
  let units := a &&& 0x0F
  let fixUnits : Byte := if units > 0x09 || cc.halfCarry then 0x06 else 0
  -- A tens digit of nine leaves its range as soon as the units carry into it.
  let fixTens : Byte :=
    if (a > 0x8F && units > 0x09) || a > 0x99 || cc.carry then 0x60 else 0
  let sum := a.toUInt16 + (fixUnits ||| fixTens).toUInt16
  let r := Word.low sum
  ⟨r, { cc.judgeByte r with
    overflow := false
    carry := cc.carry || sum &&& 0x100 != 0 }⟩

/-- Sign extension of a byte to a word. -/
def signExtend (cc : ConditionCodes) (b : Byte) : Outcome Word :=
  let r := Word.signExtend b
  ⟨r, cc.judgeWord r⟩

end Arithmetic

end Sim6809
