/-
What happens between two bus cycles: the effects of instructions, and the other
actions that take no time.

An effect reads the latches that the preceding cycles filled, the operand in
`data` and the address in `ea`, and writes registers or the `result` latch for the
cycles that follow. A few effects also decide how many cycles follow; those are
given by `growth`, apart from the effect itself.
-/
import Sim6809.Instruction.Program
import Sim6809.Processor
import Sim6809.Report

set_option autoImplicit false

namespace Sim6809

/-- A piece of work: the state it leaves, the steps it adds to the schedule, and
what it reports. -/
structure Move where
  next : Processor
  queued : List MicroOp := []
  reports : List Report := []

/-- The state once the steps that the move adds are scheduled. -/
def Move.landed (m : Move) : Processor :=
  { m.next with schedule := m.next.schedule.extend m.queued }

namespace Processor

open Arithmetic

/-! ## Register writes that matter elsewhere

An instruction that loads the hardware stack pointer arms NMI, since from then on
there is a stack to interrupt to. Changes of the pointer that are not loads do
not. -/

/-- Loads a word register. -/
def loadRegister (c : Processor) (register : WordRegister) (value : Word) : Processor :=
  { c with
    regs := c.regs.setWord register value
    inputs := if register = .s then c.inputs.armNmi else c.inputs }

/-- Writes the destination of a transfer. -/
def transfer (c : Processor) (code : Byte) (value : Word) : Processor :=
  { c with
    regs := c.regs.writeCode code value
    inputs :=
      if Transferable.ofCode code = some (.word .s) then c.inputs.armNmi else c.inputs }

/-- Writes the flags. -/
def setFlags (c : Processor) (cc : ConditionCodes) : Processor :=
  { c with regs := { c.regs with cc := cc } }

/-- Writes the program counter. -/
def goTo (c : Processor) (pc : Word) : Processor :=
  { c with regs := { c.regs with pc := pc } }

/-! ## Effects of instructions -/

/-- The effect of the decoded instruction. -/
def effect (c : Processor) : Processor :=
  let r := c.regs
  let operand := Word.low c.data
  match c.instruction.op with
  | .unary op .memory =>
    let out := op.apply r.cc operand
    { c.setFlags out.cc with result := out.value.toUInt16 }
  | .unary op (.accumulator register) =>
    let out := op.apply r.cc (r.accumulator register)
    { c with regs := { r with cc := out.cc }.setAccumulator register out.value }
  | .byte op register =>
    let out := op.apply r.cc (r.accumulator register) operand
    let r := { r with cc := out.cc }
    { c with regs := if op.keepsResult then r.setAccumulator register out.value else r }
  | .store register =>
    let out := passByte r.cc (r.accumulator register)
    { c.setFlags out.cc with result := out.value.toUInt16 }
  -- Nothing is stored, and the flags do not depend on the register.
  | .storeImmediate _ => c.setFlags (discard r.cc)
  | .word op register =>
    let out := op.apply r.cc (r.word register) c.data
    let c := c.setFlags out.cc
    if op.keepsResult then c.loadRegister register out.value else c
  | .loadWord register =>
    let out := passWord r.cc c.data
    (c.setFlags out.cc).loadRegister register out.value
  | .storeWord register =>
    let out := passWord r.cc (r.word register)
    { c.setFlags out.cc with result := out.value }
  | .storeWordImmediate register =>
    { c.setFlags (discard r.cc) with result := r.word register }
  | .jmp | .jsr | .bsr | .lbsr => c.goTo c.ea
  | .lbra => c.goTo (r.pc + c.data)
  | .branch condition =>
    if condition.holds r.cc then c.goTo (r.pc + Word.signExtend operand) else c
  | .longBranch condition => if condition.holds r.cc then c.goTo (r.pc + c.data) else c
  | .lea register =>
    -- Z follows the address for an index register, and never for a stack pointer.
    let c :=
      match register with
      | .x | .y => c.setFlags { r.cc with zero := c.ea == 0 }
      | _ => c
    c.loadRegister register c.ea
  | .abx => { c with regs := { r with x := r.x + r.b.toUInt16 } }
  | .cwai | .andcc | .andccSlow => c.setFlags (r.cc.keep operand)
  | .orcc => c.setFlags (r.cc.raise operand)
  | .mul =>
    let out := multiply r.cc r.a r.b
    { c with regs := { r with cc := out.cc, d := out.value } }
  | .daa =>
    let out := decimalAdjust r.cc r.a
    { c with regs := { r with cc := out.cc }.setA out.value }
  | .sex =>
    let out := signExtend r.cc r.b
    { c with regs := { r with cc := out.cc, d := out.value } }
  | .exg =>
    -- Both are read before either is written; the low code is written last.
    let first := r.readCode (operand >>> 4)
    let second := r.readCode operand
    (c.transfer (operand >>> 4) second).transfer operand first
  | .tfr => c.transfer operand (r.readCode (operand >>> 4))
  | .shiftFlags =>
    -- H comes from I, Z from V; everything else is cleared.
    c.setFlags { ConditionCodes.none with halfCarry := r.cc.irqMask, zero := r.cc.overflow }
  | .selectPage _ | .push _ | .pull _ | .rts | .rti | .software _ | .sync | .nop | .lock => c

/-- The steps that the effect of the decoded instruction adds. -/
def growth (c : Processor) : List MicroOp :=
  match c.instruction.op with
  | .longBranch condition => if condition.holds c.regs.cc then [.cycle .dummy] else []
  | .push stack => RegisterList.pushProgram stack (Word.low c.data)
  | .pull stack => RegisterList.pullProgram stack (Word.low c.data)
  -- The flags are the interrupted program's by now, E among them.
  | .rti => Frame.unwind c.regs.cc.entire
  | _ => []

/-! ## Actions -/

/-- Masks interrupts and goes for the handler's address. -/
def takeVector (c : Processor) (which : InterruptVector) : Move where
  next := { c.setFlags (c.regs.cc.raise which.mask) with ea := which.address }
  queued := .cycle .dummy :: vectorFetch
  reports := [.notice (.vectorTaken which c.regs.pc)]

/-- Leaves the instruction stream, which completes the instruction. -/
def enter (c : Processor) (phase : Phase) : Move where
  next := { c with phase := phase }
  reports := [.notice (.ofEntry phase c.regs.pc), .retired c.regs]

/-- The register the postbyte selects. -/
def indexBase (c : Processor) : Word := c.regs.index (.ofPostbyte c.postbyte)

/-- One action. -/
def act (c : Processor) : Action → Move
  | .operate => { next := c.effect, queued := c.growth }
  | .indexOffset8 =>
    { next := { c with ea := c.indexBase + Word.signExtend (Word.low c.data) } }
  | .indexOffset16 => { next := { c with ea := c.indexBase + c.data } }
  | .pcOffset8 | .branchTarget8 =>
    { next := { c with ea := c.regs.pc + Word.signExtend (Word.low c.data) } }
  | .pcOffset16 | .branchTarget16 => { next := { c with ea := c.regs.pc + c.data } }
  | .indirect => { next := { c with ea := c.data } }
  | .markEntire entire => { next := c.setFlags { c.regs.cc with entire := entire } }
  | .vector which => c.takeVector which
  | .jump => { next := c.goTo c.data }
  | .enter phase => c.enter phase

end Processor

end Sim6809
