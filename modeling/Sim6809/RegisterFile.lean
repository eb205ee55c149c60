/-
The register file, and the ways instructions name a part of it.

There are two accumulators which together are the word D, four 16-bit registers
that serve as index or stack pointer, the program counter, the direct page and the
flags. An instruction reaches them through one of several selectors: an
accumulator, a word register, a stack pointer, the byte a push or pull moves, the
index field of a postbyte, the register code of a transfer. Each selector is a
type, and reads and writes one place.
-/
import Sim6809.ConditionCodes

set_option autoImplicit false

namespace Sim6809

/-! ## Selectors -/

/-- One of the two accumulators. -/
inductive Accumulator
  | a | b
deriving DecidableEq

/-- A 16-bit register that instructions load, store or compare. -/
inductive WordRegister
  | d | x | y | u | s
deriving DecidableEq

/-- One of the two stacks: the hardware stack of calls and interrupts, and the
user's. -/
inductive Stack
  | s | u
deriving DecidableEq

/-- The register that bit 6 of a PSH or PUL operand moves: the other stack's
pointer, since a stack does not stack its own. -/
def Stack.other : Stack → WordRegister
  | .s => .u
  | .u => .s

/-- A 16-bit register that is stacked one byte at a time. -/
inductive Pointer
  | x | y | u | s | pc
deriving DecidableEq

/-- The byte that one push or pull moves. -/
inductive Part
  | cc | a | b | dp
  | high (register : Pointer)
  | low (register : Pointer)
deriving DecidableEq

/-- A register that an indexed address is formed from. -/
inductive IndexRegister
  | x | y | u | s
deriving DecidableEq

/-- Bits 6 and 5 of an indexed postbyte select its register. -/
def IndexRegister.ofPostbyte (postbyte : Byte) : IndexRegister :=
  match (postbyte >>> 5) &&& 3 with
  | 0 => x
  | 1 => y
  | 2 => u
  | _ => s

/-- A register that a transfer or an exchange can name. -/
inductive Transferable
  | word (register : WordRegister)
  | pc
  | accumulator (register : Accumulator)
  | cc
  | dp
deriving DecidableEq

/-- The register code in the low four bits of a byte. Six codes name nothing. -/
def Transferable.ofCode (code : Byte) : Option Transferable :=
  match code &&& 0x0F with
  | 0x0 => some (.word .d)
  | 0x1 => some (.word .x)
  | 0x2 => some (.word .y)
  | 0x3 => some (.word .u)
  | 0x4 => some (.word .s)
  | 0x5 => some .pc
  | 0x8 => some (.accumulator .a)
  | 0x9 => some (.accumulator .b)
  | 0xA => some .cc
  | 0xB => some .dp
  | _ => none

/-! ## The registers -/

/-- All registers a program can see. -/
structure RegisterFile where
  /-- Both accumulators, A in the high byte. -/
  d : Word
  x : Word
  y : Word
  /-- User stack pointer. -/
  u : Word
  /-- Hardware stack pointer. -/
  s : Word
  pc : Word
  /-- High byte of every direct address. -/
  dp : Byte
  cc : ConditionCodes
deriving DecidableEq

namespace RegisterFile

/-- Power-on contents: zero everywhere, with both interrupt masks set. -/
def powerOn : RegisterFile where
  d := 0
  x := 0
  y := 0
  u := 0
  s := 0
  pc := 0
  dp := 0
  cc := ConditionCodes.none.maskAll

/-- Accumulator A, the high half of D. -/
def a (r : RegisterFile) : Byte := Word.high r.d

/-- Accumulator B, the low half of D. -/
def b (r : RegisterFile) : Byte := Word.low r.d

def setA (r : RegisterFile) (value : Byte) : RegisterFile :=
  { r with d := Word.withHigh r.d value }

def setB (r : RegisterFile) (value : Byte) : RegisterFile :=
  { r with d := Word.withLow r.d value }

def accumulator (r : RegisterFile) : Accumulator → Byte
  | .a => r.a
  | .b => r.b

def setAccumulator (r : RegisterFile) (register : Accumulator) (value : Byte) :
    RegisterFile :=
  match register with
  | .a => r.setA value
  | .b => r.setB value

def word (r : RegisterFile) : WordRegister → Word
  | .d => r.d
  | .x => r.x
  | .y => r.y
  | .u => r.u
  | .s => r.s

def setWord (r : RegisterFile) (register : WordRegister) (value : Word) : RegisterFile :=
  match register with
  | .d => { r with d := value }
  | .x => { r with x := value }
  | .y => { r with y := value }
  | .u => { r with u := value }
  | .s => { r with s := value }

def index (r : RegisterFile) : IndexRegister → Word
  | .x => r.x
  | .y => r.y
  | .u => r.u
  | .s => r.s

def setIndex (r : RegisterFile) (register : IndexRegister) (value : Word) : RegisterFile :=
  match register with
  | .x => { r with x := value }
  | .y => { r with y := value }
  | .u => { r with u := value }
  | .s => { r with s := value }

def pointer (r : RegisterFile) : Pointer → Word
  | .x => r.x
  | .y => r.y
  | .u => r.u
  | .s => r.s
  | .pc => r.pc

def setPointer (r : RegisterFile) (register : Pointer) (value : Word) : RegisterFile :=
  match register with
  | .x => { r with x := value }
  | .y => { r with y := value }
  | .u => { r with u := value }
  | .s => { r with s := value }
  | .pc => { r with pc := value }

/-! ## Stacks

A stack grows downward and its pointer addresses the last byte pushed, so a push
decrements first and a pull increments afterwards. -/

/-- The address the stack pointer holds. -/
def stack (r : RegisterFile) : Stack → Word
  | .s => r.s
  | .u => r.u

def setStack (r : RegisterFile) (which : Stack) (value : Word) : RegisterFile :=
  match which with
  | .s => { r with s := value }
  | .u => { r with u := value }

/-- Makes room for one byte, which belongs at the address the pointer then holds. -/
def grow (r : RegisterFile) (which : Stack) : RegisterFile :=
  r.setStack which (r.stack which - 1)

/-- Gives up the byte the pointer addresses. -/
def shrink (r : RegisterFile) (which : Stack) : RegisterFile :=
  r.setStack which (r.stack which + 1)

/-- The byte a push stores. -/
def part (r : RegisterFile) : Part → Byte
  | .cc => r.cc.toByte
  | .a => r.a
  | .b => r.b
  | .dp => r.dp
  | .high register => Word.high (r.pointer register)
  | .low register => Word.low (r.pointer register)

/-- Puts a pulled byte in its place. -/
def setPart (r : RegisterFile) (which : Part) (value : Byte) : RegisterFile :=
  match which with
  | .cc => { r with cc := .ofByte value }
  | .a => r.setA value
  | .b => r.setB value
  | .dp => { r with dp := value }
  | .high register => r.setPointer register (Word.withHigh (r.pointer register) value)
  | .low register => r.setPointer register (Word.withLow (r.pointer register) value)

/-! ## Transfers

Source and destination may differ in width. A byte register is read with zeros
above it and takes the low byte of what it is given; a code that names no register
reads all ones and is not written. -/

def transferable (r : RegisterFile) : Transferable → Word
  | .word register => r.word register
  | .pc => r.pc
  | .accumulator register => (r.accumulator register).toUInt16
  | .cc => r.cc.toByte.toUInt16
  | .dp => r.dp.toUInt16

def setTransferable (r : RegisterFile) (register : Transferable) (value : Word) :
    RegisterFile :=
  match register with
  | .word register => r.setWord register value
  | .pc => { r with pc := value }
  | .accumulator register => r.setAccumulator register (Word.low value)
  | .cc => { r with cc := .ofByte (Word.low value) }
  | .dp => { r with dp := Word.low value }

/-- What a register code reads. -/
def readCode (r : RegisterFile) (code : Byte) : Word :=
  match Transferable.ofCode code with
  | some register => r.transferable register
  | none => 0xFFFF

/-- Writes the register a code names. -/
def writeCode (r : RegisterFile) (code : Byte) (value : Word) : RegisterFile :=
  match Transferable.ofCode code with
  | some register => r.setTransferable register value
  | none => r

/-! ## Reading back what was written -/

@[simp] theorem accumulator_setAccumulator (r : RegisterFile) (register : Accumulator)
    (value : Byte) : (r.setAccumulator register value).accumulator register = value := by
  cases register <;> simp [setAccumulator, accumulator, setA, setB, a, b, Word.withHigh,
    Word.withLow]

@[simp] theorem word_setWord (r : RegisterFile) (register : WordRegister) (value : Word) :
    (r.setWord register value).word register = value := by
  cases register <;> rfl

@[simp] theorem index_setIndex (r : RegisterFile) (register : IndexRegister) (value : Word) :
    (r.setIndex register value).index register = value := by
  cases register <;> rfl

@[simp] theorem pointer_setPointer (r : RegisterFile) (register : Pointer) (value : Word) :
    (r.setPointer register value).pointer register = value := by
  cases register <;> rfl

@[simp] theorem part_setPart (r : RegisterFile) (which : Part) (value : Byte) :
    (r.setPart which value).part which = value := by
  cases which <;>
    simp [setPart, part, setA, setB, a, b, Word.withHigh, Word.withLow]

/-- Writing back the byte that a part holds changes nothing. -/
@[simp] theorem setPart_part (r : RegisterFile) (which : Part) :
    r.setPart which (r.part which) = r := by
  -- The other half of a pointer is kept, so the two halves are the pointer again.
  cases which with
  | high register => cases register <;> simp [setPart, part, setPointer, pointer, Word.withHigh]
  | low register => cases register <;> simp [setPart, part, setPointer, pointer, Word.withLow]
  | _ => simp [setPart, part, setA, setB, a, b, Word.withHigh, Word.withLow]

end RegisterFile

end Sim6809
