/-
The dispatcher: a clock as a loop that does not know where its bus cycle is.

`Board.clock` has the access of a cycle in its middle, between all that comes before it and all
that comes after. A dispatcher has no such plan. It goes round and round, and in each turn it
performs the pending step, or lets the phase decide if there is none. All that it carries from
one turn to the next is a flag, which tells whether this tick has had its bus cycle. The flag is
looked at in two places: a step that uses the bus ends the tick once the flag is up, and a phase
that waits makes an idle cycle only while it is down.

Nothing in this form says that a tick makes one access, or that it ends, so the number of turns
has a limit here. `Proofs/Dispatching.lean` shows that a few are enough, and that the loop comes
to the same as the clock.
-/
import Sim6809.Board

set_option autoImplicit false

namespace Sim6809.Dispatcher

variable {β σ : Type}

/-- What performing a step came to. -/
inductive Performed
  /-- One bus cycle. -/
  | cycle
  /-- No time. -/
  | internal
  /-- The instruction hook held the processor before the fetch. -/
  | held
deriving DecidableEq

/-- How a turn of the loop ends. -/
inductive Turn (β σ : Type)
  /-- With another turn. The flag tells whether the tick has had its bus cycle. -/
  | again (cycled : Bool) (b : Board β σ)
  /-- With the end of the tick. -/
  | finished (ended : Tick) (b : Board β σ)

/-! ## Bus cycles -/

/-- One access. The inputs are promoted before it and sampled after it, and a cycle is
counted. -/
def transfer [Bus β] (access : Access) (b : Board β σ) : Byte × Board β σ :=
  let cpu := b.cpu.drive .activate
  let (byte, bus) := access.perform b.bus
  let cpu := cpu.drive .latch
  (byte, { b with cpu := { cpu with cycles := cpu.cycles.next }, bus := bus })

/-- A cycle without a valid address, whose byte is dropped. -/
def idle [Bus β] (b : Board β σ) : Board β σ := (transfer .idle b).2

/-- A cycle spent waiting, unless the tick has had its cycle. -/
def idleCycle [Bus β] (cycled : Bool) (b : Board β σ) : Board β σ :=
  if cycled then b else idle b

/-! ## Steps -/

/-- A move is made: its steps are scheduled, and its reports heard. -/
def make (m : Monitor σ) (move : Move) (b : Board β σ) : Board β σ :=
  { b with cpu := move.landed, notes := m.hearAll b.notes move.reports }

/-- A bus cycle: its access, which the hooks are shown if it moves an operand, and what the
byte does. -/
def carry [Bus β] (m : Monitor σ) (cycle : BusCycle) (b : Board β σ) : Board β σ :=
  let access := cycle.access b.cpu
  let (byte, b) := transfer access b
  let b := if cycle.isOperand then { b with notes := m.watch access byte b.notes } else b
  make m (b.cpu.absorb byte cycle) b

/-- The fetch of an opcode. The instruction hook is asked before the first byte of an
instruction, and asked once. -/
def fetchOpcode [Bus β] (m : Monitor σ) (b : Board β σ) : Performed × Board β σ :=
  if b.cpu.page = 0 ∧ b.cpu.announced = false then
    let b := { b with cpu := { b.cpu with announced := true } }
    match m.ask b.cpu.regs b.notes with
    | (.hold, notes) => (.held, { b with notes := notes })
    | (.proceed, notes) => (.cycle, carry m .fetchOpcode { b with notes := notes })
  else (.cycle, carry m .fetchOpcode b)

/-- One step. -/
def perform [Bus β] (m : Monitor σ) (op : MicroOp) (b : Board β σ) : Performed × Board β σ :=
  match op with
  | .cycle .fetchOpcode => fetchOpcode m b
  | .cycle cycle => (.cycle, carry m cycle b)
  | .action action => (.internal, make m (b.cpu.act action) b)

/-! ## The loop -/

/-- A turn with a step pending. -/
def stepTurn [Bus β] (m : Monitor σ) (cycled : Bool) (op : MicroOp) (b : Board β σ) :
    Turn β σ :=
  if cycled && op.usesBus then .finished .cycle b
  else
    match perform m op { b with cpu := { b.cpu with schedule := b.cpu.schedule.advance } } with
    | (.cycle, b) => .again true b
    | (.internal, b) => .again cycled b
    | (.held, b) =>
      .finished .held { b with cpu := { b.cpu with schedule := b.cpu.schedule.rewind } }

/-- A turn with none pending, in which the phase decides. -/
def phaseTurn [Bus β] (m : Monitor σ) (cycled : Bool) (b : Board β σ) : Turn β σ :=
  let c := b.cpu
  match c.phase with
  | .reset => .again cycled (make m { next := c.beginReset, reports := [.notice .resetBegun] } b)
  | .resetHold =>
    if c.inputs.active.halt then .finished .cycle (idleCycle cycled b)
    else
      .again cycled (make m
        { next := { c with ea := InterruptVector.reset.address, phase := .boundary }
          queued := vectorFetch
          reports := [.notice .resetReleased] } b)
  | .boundary =>
    if c.inputs.active.halt then .finished .cycle (idleCycle cycled b)
    else .again cycled (make m { next := { c with phase := .arbitration } } b)
  | .arbitration =>
    match HardwareInterrupt.recognised c.inputs.active c.regs.cc with
    | some interrupt =>
      .again cycled (make m
        { next := { c with phase := .dispatch }
          queued := [.cycle .peekPc, .cycle .peekPc] ++ Frame.program interrupt.stacksEntire } b)
    | none =>
      .again cycled (make m
        { next := { c with phase := .execution }, queued := [.cycle .fetchOpcode] } b)
  | .execution =>
    .again cycled (make m { next := { c with phase := .boundary }, reports := [.retired c.regs] } b)
  | .dispatch =>
    match c.serve? with
    | some move => .again cycled (make m move b)
    | none => .again cycled (make m { next := { c with phase := .cwaiWait } } b)
  | .cwaiWait =>
    if cycled then .finished .cycle b
    else
      match if c.inputs.active.halt then none else c.serve? with
      | some move => .again cycled (make m move b)
      | none => .finished .cycle (idle b)
  | .syncWait =>
    if cycled then .finished .cycle b
    else
      let b := idle b
      let c := b.cpu
      if c.inputs.active.interrupting then
        .finished .cycle (make m
          { next := { c with phase := .arbitration }
            reports := [.notice (.syncReleased c.regs.pc)] } b)
      else if c.inputs.active.halt then
        .finished .cycle (make m { next := { c with phase := .syncHold } } b)
      else .finished .cycle b
  | .syncHold =>
    if cycled then .finished .cycle b
    else
      let b := idle b
      let c := b.cpu
      if c.inputs.active.halt then .finished .cycle b
      else .finished .cycle (make m { next := { c with phase := .syncWait } } b)
  | .locked => .finished .cycle (idleCycle cycled b)

/-- One turn of the loop. -/
def turn [Bus β] (m : Monitor σ) (cycled : Bool) (b : Board β σ) : Turn β σ :=
  match b.cpu.schedule.current with
  | some op => stepTurn m cycled op b
  | none => phaseTurn m cycled b

/-- The loop. It has no outcome if the tick is not over within the limit. -/
def loop [Bus β] (m : Monitor σ) : Nat → Bool → Board β σ → Option (Tick × Board β σ)
  | 0, _, _ => none
  | limit + 1, cycled, b =>
    match turn m cycled b with
    | .again cycled b => loop m limit cycled b
    | .finished ended b => some (ended, b)

/-- One tick, of so many turns at most. It begins without a bus cycle. -/
def tick [Bus β] (m : Monitor σ) (limit : Nat) (b : Board β σ) : Option (Tick × Board β σ) :=
  loop m limit false b

end Sim6809.Dispatcher
