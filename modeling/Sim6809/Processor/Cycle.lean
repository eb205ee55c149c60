/-
The bus cycle: which access the processor makes next, and what the byte it gets
does.

The work between two accesses is a sequence of moves that take no time: pending
actions first, and once the schedule has run dry the phase decides how to go on.
`settle` makes moves until none is left, so that the processor is always seen with
an access due: a scheduled bus cycle, or an idle read while it waits. One cycle is
then

* `prepare`: settle, and leave a CWAI wait whose interrupt has come,
* `access`: what goes onto the bus,
* `complete`: what the byte on the data lines does, followed by `settle`.

Moves run out because an action consumes a pending step, and because among the
phases that go on by themselves each leads only to later ones, the last of which
schedules a bus cycle. That is the bound `settle` counts down from.
-/
import Sim6809.Access
import Sim6809.Instruction.Decode
import Sim6809.Processor.Effect

set_option autoImplicit false

namespace Sim6809

namespace BusCycle

/-- What a bus cycle drives. The byte of a push is taken after the stack pointer
moved, which shows if it is a byte of that pointer. -/
def access (c : Processor) : BusCycle → Access
  | fetchOpcode | fetchOperand | fetchAddress | fetchDirect | fetchPostbyte | peekPc =>
    .read c.regs.pc
  | peekPcNext => .read (c.regs.pc + 1)
  | peekEa => .read c.ea
  | peekStack stack => .read (c.regs.stack stack)
  | dummy => .idle
  | read offset | readPointer offset => .read (c.ea + offset.toUInt16)
  | writeByte => .write c.ea (Word.low c.result)
  | writeHigh => .write c.ea (Word.high c.result)
  | writeLow => .write (c.ea + 1) (Word.low c.result)
  | writePc => .write c.regs.pc (Word.low c.result)
  | push stack part =>
    -- The pointer itself can be the byte pushed, and then it goes out decremented.
    let regs := c.regs.grow stack
    .write (regs.stack stack) (regs.part part)
  | pull stack _ => .read (c.regs.stack stack)

/-- The cycles that move an operand, which is what a watchpoint is about. Fetches,
pointers and stack traffic are not among them. -/
def isOperand : BusCycle → Bool
  | read _ | writeByte | writeHigh | writeLow | writePc => true
  | _ => false

end BusCycle

namespace Processor

/-! ## What the byte does -/

/-- PC moves past the byte just fetched. -/
def stepPc (c : Processor) : Processor := c.goTo (c.regs.pc + 1)

/-- The byte is an opcode. Of several page selections only the first counts; the
later ones just cost a cycle. -/
def absorbOpcode (c : Processor) (opcode : Byte) : Move :=
  let instruction := Instruction.decode c.page opcode
  let c := c.stepPc
  match instruction.op with
  | .selectPage page =>
    { next := { c with page := if c.page = 0 then page else c.page }
      queued := [.cycle .fetchOpcode] }
  | _ =>
    { next := { c with page := 0, announced := false, instruction := instruction }
      queued := instruction.program }

/-- The byte is an indexed postbyte. -/
def absorbPostbyte (c : Processor) (postbyte : Byte) : Move :=
  let c := { c.stepPc with postbyte := postbyte }
  let form := IndexForm.ofPostbyte postbyte
  let register := IndexRegister.ofPostbyte postbyte
  { next :=
      { c with
        ea := (form.address? postbyte c.regs).getD c.ea
        regs := c.regs.setIndex register (c.regs.index register + form.step) }
    queued := IndexForm.program postbyte ++ c.instruction.body }

/-- What a bus cycle does with the byte on the data lines. -/
def absorb (c : Processor) (byte : Byte) : BusCycle → Move
  | .fetchOpcode => c.absorbOpcode byte
  | .fetchOperand => { next := { c.stepPc with data := Word.shiftIn c.data byte } }
  | .fetchAddress => { next := { c.stepPc with ea := Word.shiftIn c.ea byte } }
  | .fetchDirect => { next := { c.stepPc with ea := Word.ofBytes c.regs.dp byte } }
  | .fetchPostbyte => c.absorbPostbyte byte
  | .read _ | .readPointer _ => { next := { c with data := Word.shiftIn c.data byte } }
  | .writePc => { next := c.stepPc }
  | .push stack _ => { next := { c with regs := c.regs.grow stack } }
  | .pull stack part =>
    -- Pulling the hardware stack pointer, as PULU can, is a load as far as NMI is
    -- concerned.
    { next :=
        { c with
          regs := (c.regs.shrink stack).setPart part byte
          inputs :=
            if part = .high .s ∨ part = .low .s then c.inputs.armNmi else c.inputs } }
  | .peekPc | .peekPcNext | .peekEa | .peekStack _ | .dummy
  | .writeByte | .writeHigh | .writeLow => { next := c }

/-! ## Moves between accesses -/

/-- The reset sequence begins. What was going on is forgotten, interrupts are
masked, and NMI waits for a stack. -/
def beginReset (c : Processor) : Processor :=
  { c with
    schedule := c.schedule.clear
    regs := { c.regs with dp := 0, cc := c.regs.cc.maskAll }
    inputs := c.inputs.clear
    page := 0
    announced := false
    phase := .resetHold }

/-- Serves the interrupt recognised now, if any, whichever one the frame was
stacked for. -/
def serve? (c : Processor) : Option Move :=
  (HardwareInterrupt.recognised c.inputs.active c.regs.cc).map fun interrupt =>
    -- An edge is used up when it is served, not when its frame is begun.
    let c := if interrupt = .nmi then c.drive .acknowledgeNmi else c
    { c with phase := .boundary }.takeVector interrupt.vector

/-- How a phase goes on by itself once the schedule is dry. HALT holds the
processor in the two phases that stand before a fetch. -/
def phaseMove? (c : Processor) : Option Move :=
  match c.phase with
  | .reset => some { next := c.beginReset, reports := [.notice .resetBegun] }
  | .resetHold =>
    if c.inputs.active.halt then none
    else some
      { next := { c with ea := InterruptVector.reset.address, phase := .boundary }
        queued := vectorFetch
        reports := [.notice .resetReleased] }
  | .boundary =>
    if c.inputs.active.halt then none else some { next := { c with phase := .arbitration } }
  | .arbitration =>
    match HardwareInterrupt.recognised c.inputs.active c.regs.cc with
    | some interrupt =>
      -- The two reads at PC are the opcode fetch that is given up.
      some
        { next := { c with phase := .dispatch }
          queued := [.cycle .peekPc, .cycle .peekPc] ++ Frame.program interrupt.stacksEntire }
    | none => some { next := { c with phase := .execution }, queued := [.cycle .fetchOpcode] }
  | .execution => some { next := { c with phase := .boundary }, reports := [.retired c.regs] }
  | .dispatch => some (c.serve?.getD { next := { c with phase := .cwaiWait } })
  | .cwaiWait | .syncWait | .syncHold | .locked => none

/-- The move that is due before any access, if there is one. -/
def move? (c : Processor) : Option Move :=
  match c.schedule.current with
  | some (.cycle _) => none
  | some (.action action) => some ({ c with schedule := c.schedule.advance }.act action)
  | none => c.phaseMove?

/-- A state together with what was reported on the way to it. -/
structure Reported where
  state : Processor
  reports : List Report := []

/-- Makes at most so many moves. -/
def settleWithin : Nat → Processor → Reported
  | 0, c => { state := c }
  | fuel + 1, c =>
    match c.move? with
    | none => { state := c }
    | some m =>
      let rest := settleWithin fuel m.landed
      { rest with reports := m.reports ++ rest.reports }

/-- Makes every move that is due. Beyond the pending steps at most three phases
follow each other. -/
def settle (c : Processor) : Reported := settleWithin (c.schedule.remaining + 3) c

/-! ## One cycle -/

/-- A CWAI wait ends before the cycle in which its interrupt is served. -/
def wake? (c : Processor) : Option Move :=
  match c.schedule.current, c.phase with
  | none, .cwaiWait => if c.inputs.active.halt then none else c.serve?
  | _, _ => none

/-- All work that is left to do before an access. -/
def prepare (c : Processor) : Reported :=
  let settled := c.settle
  match settled.state.wake? with
  | none => settled
  | some m => { state := m.landed, reports := settled.reports ++ m.reports }

/-- The scheduled bus cycle that comes next. There is none while the processor
waits. -/
def due? (c : Processor) : Option BusCycle :=
  match c.schedule.current with
  | some (.cycle cycle) => some cycle
  | _ => none

/-- The access that comes next, for a prepared processor. -/
def access (c : Processor) : Access :=
  match c.due? with
  | some cycle => cycle.access c
  | none => .idle

/-- The next access is an operand's. -/
def operandDue (c : Processor) : Bool :=
  match c.due? with
  | some cycle => cycle.isOperand
  | none => false

/-- Every access takes one cycle, during which the inputs move up by one stage. -/
def clocked (c : Processor) : Processor :=
  { c with inputs := c.inputs.cycle, cycles := c.cycles.next }

/-- What a scheduled bus cycle leads to, before any move that follows it. -/
def carryOut (c : Processor) (cycle : BusCycle) (byte : Byte) : Processor :=
  ({ c.clocked with schedule := c.schedule.advance }.absorb byte cycle).landed

/-- What an idle cycle leads to. Only SYNC looks at the inputs here; the other
waits are left at the start of a cycle. -/
def idled (c : Processor) : Reported :=
  let c := c.clocked
  match c.phase with
  | .syncWait =>
    -- A masked interrupt ends the wait as well; it is just not served then.
    if c.inputs.active.interrupting then
      { state := { c with phase := .arbitration }
        reports := [.notice (.syncReleased c.regs.pc)] }
    else if c.inputs.active.halt then { state := { c with phase := .syncHold } }
    else { state := c }
  | .syncHold =>
    { state := if c.inputs.active.halt then c else { c with phase := .syncWait } }
  | _ => { state := c }

/-- What the byte on the data lines leads to, for a prepared processor. -/
def complete (c : Processor) (byte : Byte) : Reported :=
  match c.due? with
  | some cycle => (c.carryOut cycle byte).settle
  | none => c.idled

/-! ## The announcement of an instruction

Before the first opcode byte of an instruction is fetched, instrumentation is asked
whether to go on. It is asked once: if it holds the processor there, the fetch goes
ahead the next time. -/

/-- The next access fetches the first byte of an instruction that has not been
announced. -/
def asksFirst (c : Processor) : Bool :=
  c.due? == some .fetchOpcode && c.page == 0 && !c.announced

/-- The announcement is made. -/
def announce (c : Processor) : Processor :=
  if c.asksFirst then { c with announced := true } else c

end Processor

end Sim6809
