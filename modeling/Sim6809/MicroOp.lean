/-
Micro-operations: the steps an instruction or an interrupt entry is made of.

A step either is one bus cycle or happens between two of them, and the two kinds
are two types. What a bus cycle puts on the bus depends on its kind and the
registers only; everything that takes no time is an `Action`. Keeping the pending
steps as data is what lets the processor stop after any bus cycle and go on later.
-/
import Sim6809.Interrupt
import Sim6809.RegisterFile

set_option autoImplicit false

namespace Sim6809

/-- Where the processor picks up once no step is pending. -/
inductive Phase
  /-- Reset was requested and has not begun. -/
  | reset
  /-- Held in reset by HALT, before the reset vector is fetched. -/
  | resetHold
  /-- Between instructions; HALT holds the processor here. -/
  | boundary
  /-- Between instructions, not held: an interrupt may be recognised. -/
  | arbitration
  /-- A frame is stacked; the interrupt to serve is chosen now. -/
  | dispatch
  /-- A frame is stacked and no interrupt is left to serve. -/
  | cwaiWait
  /-- An instruction is being fetched or executed. -/
  | execution
  /-- SYNC waits for any interrupt input. -/
  | syncWait
  /-- SYNC waits while HALT is active. -/
  | syncHold
  /-- Locked until reset. -/
  | locked
deriving DecidableEq

/-- The name under which a phase is reported. -/
def Phase.name : Phase → String
  | reset => "reset"
  | resetHold => "reset-check-halt"
  | boundary => "label-a"
  | arbitration => "label-b"
  | dispatch => "dispatch-irq"
  | cwaiWait => "cwai-check-halt"
  | execution => "next-instruction"
  | syncWait => "sync"
  | syncHold => "sync-check-halt"
  | locked => "hcf"

/-- A step between two bus cycles. -/
inductive Action
  /-- The effect of the decoded instruction. -/
  | operate
  /-- The effective address is the index register plus a signed byte. -/
  | indexOffset8
  /-- The effective address is the index register plus a word. -/
  | indexOffset16
  /-- The effective address is PC plus a signed byte. -/
  | pcOffset8
  /-- The effective address is PC plus a word. -/
  | pcOffset16
  /-- The effective address is the pointer just read. -/
  | indirect
  /-- The target of a short call: PC plus a signed byte. -/
  | branchTarget8
  /-- The target of a long call: PC plus a word. -/
  | branchTarget16
  /-- E is set or cleared, to tell which frame is being stacked. -/
  | markEntire (entire : Bool)
  /-- Interrupts are masked and the handler's address is to be fetched. -/
  | vector (which : InterruptVector)
  /-- PC is the pointer just read. -/
  | jump
  /-- The instruction stream is left for a wait or for the lock. -/
  | enter (phase : Phase)
deriving DecidableEq

/-- A step that is one bus cycle. -/
inductive BusCycle
  /-- Reads an opcode at PC. -/
  | fetchOpcode
  /-- Reads an operand byte at PC into the operand register. -/
  | fetchOperand
  /-- Reads an address byte at PC into the address register. -/
  | fetchAddress
  /-- Reads the low byte of a direct address at PC. -/
  | fetchDirect
  /-- Reads an indexed postbyte at PC. -/
  | fetchPostbyte
  /-- Reads at PC and drops the byte. -/
  | peekPc
  /-- Reads after PC and drops the byte. -/
  | peekPcNext
  /-- Reads at the effective address and drops the byte. -/
  | peekEa
  /-- Reads at a stack pointer and drops the byte. -/
  | peekStack (stack : Stack)
  /-- Drives no valid address. -/
  | dummy
  /-- Reads an operand byte some way above the effective address. -/
  | read (offset : Byte)
  /-- Reads a byte of a pointer or vector; not an operand. -/
  | readPointer (offset : Byte)
  /-- Writes the low byte of the result at the effective address. -/
  | writeByte
  /-- Writes the high byte of the result at the effective address. -/
  | writeHigh
  /-- Writes the low byte of the result after the effective address. -/
  | writeLow
  /-- Writes the low byte of the result at PC and steps over it. -/
  | writePc
  /-- Pushes one byte of the registers. -/
  | push (stack : Stack) (part : Part)
  /-- Pulls one byte of the registers. -/
  | pull (stack : Stack) (part : Part)
deriving DecidableEq

/-- One step. -/
inductive MicroOp
  | cycle (cycle : BusCycle)
  | action (action : Action)
deriving DecidableEq

/-- The steps that occupy a bus cycle. -/
def MicroOp.usesBus : MicroOp → Bool
  | cycle _ => true
  | action _ => false

end Sim6809
