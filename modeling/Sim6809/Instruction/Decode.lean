/-
The opcode map: which instruction an opcode byte stands for on each of the three
pages.

The map is regular. A row of sixteen, the high four bits, fixes the addressing mode
and the family; a column, the low four bits, the operation in it. Pages 2 and 3
differ from page 0 in a few rows only, and every slot they leave undefined means
what the same byte means on page 0, as on the chip.
-/
import Sim6809.Instruction

set_option autoImplicit false

namespace Sim6809.Instruction

open Arithmetic

/-! ## Page 0 -/

/-- The column of a read-modify-write row. Columns 1, 2, 5, B and E are
undocumented. -/
def unaryColumn (column : Byte) : UnaryOp :=
  match column with
  | 0x0 | 0x1 => .neg
  | 0x2 => .negOrCom
  | 0x3 => .com
  | 0x4 | 0x5 => .lsr
  | 0x6 => .ror
  | 0x7 => .asr
  | 0x8 => .asl
  | 0x9 => .rol
  | 0xA => .dec
  | 0xB => .decBorrow
  | 0xC => .inc
  | 0xD => .tst
  | 0xE => .clrKeepCarry
  | _ => .clr

/-- Rows 0, 6 and 7, which work on memory. Column E is a jump here. -/
def memoryRow (column : Byte) (mode : AddressMode) : Instruction :=
  if column == 0xE then ⟨.jmp, mode⟩ else ⟨.unary (unaryColumn column) .memory, mode⟩

/-- Rows 4 and 5, which work on an accumulator. -/
def accumulatorRow (column : Byte) (register : Accumulator) : Instruction :=
  ⟨.unary (unaryColumn column) (.accumulator register), .inherent⟩

/-- Row 1: page selection and what has no operand in memory. Columns 2 and B do
nothing, the latter undocumented. -/
def row1 (column : Byte) : Instruction :=
  match column with
  | 0x0 => ⟨.selectPage 2, .inherent⟩
  | 0x1 => ⟨.selectPage 3, .inherent⟩
  | 0x3 => ⟨.sync, .inherent⟩
  -- Undocumented, like the other door to the lock at `$CD`.
  | 0x4 | 0x5 => ⟨.lock, .inherent⟩
  | 0x6 => ⟨.lbra, .relative⟩
  | 0x7 => ⟨.lbsr, .relative⟩
  | 0x8 => ⟨.shiftFlags, .inherent⟩
  | 0x9 => ⟨.daa, .inherent⟩
  | 0xA => ⟨.orcc, .immediate⟩
  | 0xC => ⟨.andcc, .immediate⟩
  | 0xD => ⟨.sex, .inherent⟩
  | 0xE => ⟨.exg, .immediate⟩
  | 0xF => ⟨.tfr, .immediate⟩
  | _ => nop

/-- Row 3: address loads, stack operations and control. -/
def row3 (column : Byte) : Instruction :=
  match column with
  | 0x0 => ⟨.lea .x, .indexed⟩
  | 0x1 => ⟨.lea .y, .indexed⟩
  | 0x2 => ⟨.lea .s, .indexed⟩
  | 0x3 => ⟨.lea .u, .indexed⟩
  | 0x4 => ⟨.push .s, .immediate⟩
  | 0x5 => ⟨.pull .s, .immediate⟩
  | 0x6 => ⟨.push .u, .immediate⟩
  | 0x7 => ⟨.pull .u, .immediate⟩
  | 0x8 => ⟨.andccSlow, .immediate⟩
  | 0x9 => ⟨.rts, .inherent⟩
  | 0xA => ⟨.abx, .inherent⟩
  | 0xB => ⟨.rti, .inherent⟩
  | 0xC => ⟨.cwai, .immediate⟩
  | 0xD => ⟨.mul, .inherent⟩
  | 0xE => ⟨.software .reset, .inherent⟩
  | _ => ⟨.software .swi, .inherent⟩

/-- Bits 5 and 4 of an opcode from `$80` up are its addressing mode. -/
def blockMode (opcode : Byte) : AddressMode :=
  match (opcode >>> 4) &&& 3 with
  | 0 => .immediate
  | 1 => .direct
  | 2 => .indexed
  | _ => .extended

/-- The columns that mean the same operation on both accumulators. -/
def byteColumn (column : Byte) : Option ByteOp :=
  match column with
  | 0x0 => some .sub
  | 0x1 => some .cmp
  | 0x2 => some .sbc
  | 0x4 => some .and
  | 0x5 => some .bit
  | 0x6 => some .ld
  | 0x8 => some .eor
  | 0x9 => some .adc
  | 0xA => some .or
  | 0xB => some .add
  | _ => none

/-- A byte store, or what the immediate slot of one does. -/
def storeSlot (register : Accumulator) (mode : AddressMode) : Instruction :=
  ⟨if mode = .immediate then .storeImmediate register else .store register, mode⟩

/-- A word store, or what the immediate slot of one does. -/
def storeWordSlot (register : WordRegister) (mode : AddressMode) : Instruction :=
  ⟨if mode = .immediate then .storeWordImmediate register else .storeWord register, mode⟩

/-- Rows 8 to B: operations on A, and on D, X and the program counter in between. -/
def blockA (column : Byte) (mode : AddressMode) : Instruction :=
  match byteColumn column with
  | some op => ⟨.byte op .a, mode⟩
  | none =>
    match column with
    | 0x3 => ⟨.word .sub .d, mode⟩
    | 0x7 => storeSlot .a mode
    | 0xC => ⟨.word .cmp .x, mode⟩
    -- A call has no immediate operand, and its slot holds the short call.
    | 0xD => if mode = .immediate then ⟨.bsr, .relative⟩ else ⟨.jsr, mode⟩
    | 0xE => ⟨.loadWord .x, mode⟩
    | _ => storeWordSlot .x mode

/-- Rows C to F: operations on B, and on D and U in between. -/
def blockB (column : Byte) (mode : AddressMode) : Instruction :=
  match byteColumn column with
  | some op => ⟨.byte op .b, mode⟩
  | none =>
    match column with
    | 0x3 => ⟨.word .add .d, mode⟩
    | 0x7 => storeSlot .b mode
    | 0xC => ⟨.loadWord .d, mode⟩
    | 0xD => if mode = .immediate then ⟨.lock, .inherent⟩ else ⟨.storeWord .d, mode⟩
    | 0xE => ⟨.loadWord .u, mode⟩
    | _ => storeWordSlot .u mode

/-- The instruction of an opcode without a page selection. -/
def page0 (opcode : Byte) : Instruction :=
  let column := opcode &&& 0x0F
  match opcode >>> 4 with
  | 0x0 => memoryRow column .direct
  | 0x1 => row1 column
  | 0x2 => ⟨.branch (.ofOpcode opcode), .relative⟩
  | 0x3 => row3 column
  | 0x4 => accumulatorRow column .a
  | 0x5 => accumulatorRow column .b
  | 0x6 => memoryRow column .indexed
  | 0x7 => memoryRow column .extended
  | 0x8 | 0x9 | 0xA | 0xB => blockA column (blockMode opcode)
  | _ => blockB column (blockMode opcode)

/-! ## Pages 2 and 3

Each is given by the slots it defines; `none` leaves the slot to page 0. -/

/-- What page 2 defines: long branches, SWI2, and the word operations on D, Y and
S. -/
def page2 (opcode : Byte) : Option Instruction :=
  let mode := blockMode opcode
  let column := opcode &&& 0x0F
  match opcode >>> 4 with
  | 0x2 => some ⟨.longBranch (.ofOpcode opcode), .relative⟩
  | 0x3 => if column == 0xF then some ⟨.software .swi2, .inherent⟩ else none
  | 0x8 | 0x9 | 0xA | 0xB =>
    match column with
    | 0x3 => some ⟨.word .cmp .d, mode⟩
    | 0xC => some ⟨.word .cmp .y, mode⟩
    | 0xE => some ⟨.loadWord .y, mode⟩
    | 0xF => some (storeWordSlot .y mode)
    | _ => none
  | 0xC | 0xD | 0xE | 0xF =>
    match column with
    | 0xE => some ⟨.loadWord .s, mode⟩
    | 0xF => some (storeWordSlot .s mode)
    | _ => none
  | _ => none

/-- What page 3 defines: SWI3 and the compares of U and S. -/
def page3 (opcode : Byte) : Option Instruction :=
  let mode := blockMode opcode
  let column := opcode &&& 0x0F
  match opcode >>> 4 with
  | 0x3 => if column == 0xF then some ⟨.software .swi3, .inherent⟩ else none
  | 0x8 | 0x9 | 0xA | 0xB =>
    match column with
    | 0x3 => some ⟨.word .cmp .u, mode⟩
    | 0xC => some ⟨.word .cmp .s, mode⟩
    | _ => none
  | _ => none

/-- The instruction an opcode stands for on a page. Any page other than 2 and 3 is
page 0. -/
def decode (page opcode : Byte) : Instruction :=
  match page with
  | 2 => (page2 opcode).getD (page0 opcode)
  | 3 => (page3 opcode).getD (page0 opcode)
  | _ => page0 opcode

end Sim6809.Instruction
