/-
Instructions as the decoder delivers them: an operation and the addressing mode of
its operand.

Undocumented operations are operations like any other, since each has a definite
effect and a definite number of cycles.
-/
import Sim6809.Arithmetic
import Sim6809.Interrupt
import Sim6809.RegisterFile

set_option autoImplicit false

namespace Sim6809

/-- How the operand of an instruction is found. -/
inductive AddressMode
  | inherent | immediate | direct | indexed | extended | relative
deriving DecidableEq

/-- Branch conditions, in the order of their opcodes: each one is followed by its
negation. -/
inductive Condition
  | always | never | hi | ls | hs | lo | ne | eq
  | vc | vs | pl | mi | ge | lt | gt | le
deriving DecidableEq

namespace Condition

/-- The condition in the low four bits of a branch opcode. -/
def ofOpcode (opcode : Byte) : Condition :=
  match opcode &&& 0x0F with
  | 0x0 => always
  | 0x1 => never
  | 0x2 => hi
  | 0x3 => ls
  | 0x4 => hs
  | 0x5 => lo
  | 0x6 => ne
  | 0x7 => eq
  | 0x8 => vc
  | 0x9 => vs
  | 0xA => pl
  | 0xB => mi
  | 0xC => ge
  | 0xD => lt
  | 0xE => gt
  | _ => le

/-- Whether the flags satisfy the condition. -/
def holds (cc : ConditionCodes) : Condition → Bool
  | always => true
  | never => false
  | hi => !cc.carry && !cc.zero
  | ls => cc.carry || cc.zero
  | hs => !cc.carry
  | lo => cc.carry
  | ne => !cc.zero
  | eq => cc.zero
  | vc => !cc.overflow
  | vs => cc.overflow
  | pl => !cc.negative
  | mi => cc.negative
  | ge => cc.negative == cc.overflow
  | lt => cc.negative != cc.overflow
  | gt => !cc.zero && cc.negative == cc.overflow
  | le => cc.zero || cc.negative != cc.overflow

end Condition

/-- Where a read-modify-write operation finds its byte. -/
inductive UnaryTarget
  | memory
  | accumulator (register : Accumulator)
deriving DecidableEq

/-- What an instruction does, apart from how its operand is found. -/
inductive Operation
  /-- `$10` and `$11`: the next opcode is looked up on another page. -/
  | selectPage (page : Byte)
  | unary (op : Arithmetic.UnaryOp) (target : UnaryTarget)
  | byte (op : Arithmetic.ByteOp) (register : Accumulator)
  | store (register : Accumulator)
  /-- Undocumented: a byte store with an immediate operand, which is skipped. -/
  | storeImmediate (register : Accumulator)
  | word (op : Arithmetic.WordOp) (register : WordRegister)
  | loadWord (register : WordRegister)
  | storeWord (register : WordRegister)
  /-- Undocumented: a word store with an immediate operand, whose second byte is
  overwritten. -/
  | storeWordImmediate (register : WordRegister)
  | jmp
  | jsr
  | bsr
  | lbsr
  | lbra
  | branch (condition : Condition)
  | longBranch (condition : Condition)
  | lea (register : WordRegister)
  | push (stack : Stack)
  | pull (stack : Stack)
  | rts
  | abx
  | rti
  | cwai
  | mul
  | software (kind : SoftwareInterrupt)
  | sync
  | nop
  | daa
  | orcc
  | andcc
  /-- Undocumented `$38`: ANDCC with one more idle cycle. -/
  | andccSlow
  | sex
  | exg
  | tfr
  /-- Undocumented `$18`: the flags shifted left, of which H and Z survive. -/
  | shiftFlags
  /-- Undocumented: locks the processor until reset. -/
  | lock
deriving DecidableEq

/-- An operation and the addressing mode of its operand. -/
structure Instruction where
  op : Operation
  mode : AddressMode
deriving DecidableEq

/-- The instruction that does nothing, which also fills the holes of the map. -/
def Instruction.nop : Instruction := ⟨.nop, .inherent⟩

end Sim6809
