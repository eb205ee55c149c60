/-
Interrupt entries, from recognition to the handler, while the lines move.

An entry is decided twice. The interrupt that is recognised between two instructions
fixes the frame, and another look at the inputs, after stacking, fixes the vector; in
between the lines may do anything, and if none is left to serve the processor waits.
`Entry` is what all these states have in common: whichever way the entry goes on, it
leads to one and the same frame. A clock keeps an entry going or takes a vector
(`Entry.tick`), and then the frame is stacked and nothing else has changed (`Taken`).
-/
import Sim6809.Proofs.Fetching
import Sim6809.Proofs.Frames

set_option autoImplicit false

namespace Sim6809

/-! ## A log -/

/-- Nothing is installed but the log, which keeps all notices in order. -/
def Monitor.logging : Monitor (List Notice) := ⟨.none, fun notice notes => notes ++ [notice]⟩

namespace Monitor

theorem proceeds_logging : logging.Proceeds := fun _ _ => rfl

@[simp] theorem watched_logging (cycle : BusCycle) (c : Processor) (byte : Byte)
    (notes : List Notice) : Board.watched logging cycle c byte notes = notes := by
  unfold Board.watched
  split
  · cases cycle.access c <;> rfl
  · rfl

@[simp] theorem asked_logging (c : Processor) (notes : List Notice) :
    Board.asked logging c notes = notes := by
  unfold Board.asked
  split <;> rfl

/-- A log only grows. -/
theorem prefix_hearAll_logging (notes : List Notice) (reports : List Report) :
    notes <+: logging.hearAll notes reports := by
  induction reports generalizing notes with
  | nil => exact List.prefix_refl notes
  | cons report reports ih =>
    refine List.IsPrefix.trans ?_ (ih (logging.hear notes report))
    cases report with
    | notice notice => exact List.prefix_append notes [notice]
    | retired regs => exact List.prefix_refl notes

end Monitor

namespace Board

variable {β : Type}

theorem prefix_settled_logging (b : Board β (List Notice)) :
    b.notes <+: (settled .logging b).notes :=
  Monitor.prefix_hearAll_logging b.notes b.cpu.settle.reports

variable [Bus β]

theorem prefix_exchange_logging (b : Board β (List Notice)) :
    b.notes <+: (exchange .logging b).notes := by
  obtain ⟨cpu, bus, notes⟩ := b
  have heard : (if cpu.operandDue then Monitor.watch .logging cpu.access
      (cpu.access.perform bus).1 notes else notes) = notes := by
    split
    · cases cpu.access <;> rfl
    · rfl
  change notes <+: Monitor.hearAll .logging (if cpu.operandDue then Monitor.watch .logging
    cpu.access (cpu.access.perform bus).1 notes else notes) _
  rw [heard]
  exact Monitor.prefix_hearAll_logging notes _

theorem prefix_tick_logging (b : Board β (List Notice)) : b.notes <+: (tick .logging b).notes := by
  obtain ⟨cpu, bus, notes⟩ := b
  have first := Monitor.prefix_hearAll_logging notes cpu.prepare.reports
  rw [tick]
  unfold clock
  dsimp only
  split
  · exact first.trans (prefix_exchange_logging
      ⟨cpu.prepare.state.announce, bus, Monitor.hearAll .logging notes cpu.prepare.reports⟩)
  · exact first.trans (prefix_exchange_logging
      ⟨cpu.prepare.state, bus, Monitor.hearAll .logging notes cpu.prepare.reports⟩)

theorem prefix_clocks_logging (lines : List Levels) (b : Board β (List Notice)) :
    b.notes <+: (clocks .logging lines b).notes := by
  induction lines generalizing b with
  | nil => exact List.prefix_refl b.notes
  | cons levels more ih =>
    exact List.IsPrefix.trans (prefix_tick_logging (b.withLevels levels)) (ih _)

end Board

/-! ## Taking a vector -/

/-- A vector has been taken: the frame is stacked, interrupts are masked, and the fetch
of the handler's address is pending. -/
structure Taken (entire : Bool) (r : RegisterFile) (ram : Ram) (which : InterruptVector)
    (c : Processor) (contents : Ram) : Prop where
  regs : c.regs =
    { Frame.stacked entire r with cc := (Frame.stacked entire r).cc.raise which.mask }
  contents : contents = Frame.memory entire r ram
  consistent : c.schedule.Consistent
  pending : c.schedule.pending = vectorFetch ∨ c.schedule.pending = .cycle .dummy :: vectorFetch
  ea : c.ea = which.address
  phase : c.phase = .boundary ∨ c.phase = .execution

namespace Processor

/-- Serving takes the vector of the interrupt that is recognised. -/
theorem serve?_takes {c : Processor} {m : Move} (served : c.serve? = some m) :
    ∃ interrupt, HardwareInterrupt.recognised c.inputs.active c.regs.cc = some interrupt ∧
      m.next.regs = { c.regs with cc := c.regs.cc.raise interrupt.vector.mask } ∧
      m.next.ea = interrupt.vector.address ∧ m.next.phase = .boundary ∧
      m.reports = [.notice (.vectorTaken interrupt.vector c.regs.pc)] := by
  unfold serve? at served
  cases recognised : HardwareInterrupt.recognised c.inputs.active c.regs.cc with
  | none =>
    rw [recognised] at served
    cases served
  | some interrupt =>
    rw [recognised] at served
    cases served
    refine ⟨interrupt, rfl, ?_⟩
    cases interrupt <;> exact ⟨rfl, rfl, rfl, rfl⟩

end Processor

section

variable {entire : Bool} {r : RegisterFile} {ram : Ram}

/-- Serving an interrupt takes its vector. -/
theorem taken_serve (ram : Ram) {c : Processor} {m : Move} (consistent : c.schedule.Consistent)
    (dry : c.schedule.pending = []) (regs : c.regs = Frame.stacked entire r)
    (served : c.serve? = some m) :
    ∃ interrupt, HardwareInterrupt.recognised c.inputs.active r.cc = some interrupt ∧
      Taken entire r ram interrupt.vector m.landed (Frame.memory entire r ram) ∧
      m.landed.schedule.pending = .cycle .dummy :: vectorFetch ∧
      m.reports = [.notice (.vectorTaken interrupt.vector r.pc)] := by
  obtain ⟨schedule, _, _⟩ := Processor.serve?_eq_some served
  obtain ⟨interrupt, recognised, masked, ea, phase, reports⟩ := Processor.serve?_takes served
  have pending := Processor.pending_of_served consistent dry served
  -- E has no part in what is recognised.
  rw [regs] at recognised
  refine ⟨interrupt, recognised, ⟨?_, rfl, ?_, Or.inr pending, ea, Or.inl phase⟩, pending, ?_⟩
  · rw [← regs]
    exact masked
  · apply Schedule.Consistent.extend
    rw [schedule]
    exact consistent
  · rw [reports, regs]
    rfl

/-- So does the last action of a software interrupt. -/
theorem taken_vector (ram : Ram) {c : Processor} {which : InterruptVector}
    (consistent : c.schedule.Consistent)
    (pending : c.schedule.pending = [.action (.vector which)]) (phase : c.phase = .execution)
    (regs : c.regs = Frame.stacked entire r) :
    Taken entire r ram which ({ c with schedule := c.schedule.advance }.act (.vector which)).landed
        (Frame.memory entire r ram) ∧
      ({ c with schedule := c.schedule.advance }.act (.vector which)).landed.schedule.pending =
        .cycle .dummy :: vectorFetch ∧
      ({ c with schedule := c.schedule.advance }.act (.vector which)).reports =
        [.notice (.vectorTaken which r.pc)] := by
  have schedule : ({ c with schedule := c.schedule.advance }.act (.vector which)).landed.schedule =
      c.schedule.advance.extend (.cycle .dummy :: vectorFetch) := by
    rw [Move.schedule_landed, Processor.schedule_act]
    rfl
  have queued : ({ c with
      schedule := c.schedule.advance }.act (.vector which)).landed.schedule.pending =
        .cycle .dummy :: vectorFetch := by
    rw [schedule]
    exact Schedule.pending_advance_extend consistent pending _ (by decide)
  refine ⟨⟨?_, rfl, ?_, Or.inr queued, rfl, Or.inr phase⟩, queued, ?_⟩
  · rw [← regs]
    rfl
  · rw [schedule]
    exact consistent.advance.extend _
  · change [Report.notice (.vectorTaken which c.regs.pc)] = _
    rw [regs]
    rfl

/-! ## Entries -/

/-- An entry that begins with the registers `r` and the memory `ram`, at any time from
its start to the moment at which a vector is taken. -/
inductive Entry (entire : Bool) (r : RegisterFile) (ram : Ram) : Processor → Ram → Prop
  /-- The opcode of a software interrupt is being fetched. -/
  | fetching {c : Processor} {page : Byte} {n : Nat} {kind : SoftwareInterrupt}
      (start : c.AtOpcode page)
      (encoded : Encodes ram page c.regs.pc n ⟨.software kind, .inherent⟩)
      (regs : { c.regs with pc := c.regs.pc + UInt16.ofNat n } = r) (whole : entire = true) :
      Entry entire r ram c ram
  /-- A hardware interrupt is recognised. -/
  | recognised {c : Processor} {interrupt : HardwareInterrupt}
      (consistent : c.schedule.Consistent) (dry : c.schedule.pending = [])
      (phase : c.phase = .arbitration)
      (asked : HardwareInterrupt.recognised c.inputs.active c.regs.cc = some interrupt)
      (regs : c.regs = r) (frame : interrupt.stacksEntire = entire) : Entry entire r ram c ram
  /-- The frame is being stacked, and then dispatch or the vector of the instruction
  follows. -/
  | stacking {c : Processor} {contents : Ram} {goal : Processor × Ram} {cycle : BusCycle}
      {ops back : List MicroOp} (headed : Headed goal (.cycle cycle :: ops) back c contents)
      (leaves : seen goal = (Frame.stacked entire r, Frame.memory entire r ram))
      (onward : back = [] ∧ c.phase = .dispatch ∨
        ∃ which, back = [.action (.vector which)] ∧ c.phase = .execution) :
      Entry entire r ram c contents
  /-- The frame is stacked, and no interrupt is left to serve. -/
  | waiting {c : Processor} (consistent : c.schedule.Consistent) (dry : c.schedule.pending = [])
      (phase : c.phase = .cwaiWait) (regs : c.regs = Frame.stacked entire r) :
      Entry entire r ram c (Frame.memory entire r ram)

/-- An entry goes on unnoticed, or a vector is taken and noted. -/
def Progress (entire : Bool) (r : RegisterFile) (ram : Ram) (notes : List Notice)
    (b : Board Memory (List Notice)) : Prop :=
  b.notes = notes ∧ Entry entire r ram b.cpu b.bus.peek ∨
    ∃ which, b.notes = notes ++ [.vectorTaken which r.pc] ∧
      Taken entire r ram which b.cpu b.bus.peek

variable (notes : List Notice)

/-- The frame of a hardware interrupt is complete: whatever is recognised then is served,
and without anything the processor waits. -/
theorem progress_dispatch {c : Processor} {mem : Memory}
    (consistent : c.schedule.Consistent) (dry : c.schedule.pending = [])
    (phase : c.phase = .dispatch) (regs : c.regs = Frame.stacked entire r)
    (contents : mem.peek = Frame.memory entire r ram) :
    Progress entire r ram notes (Board.settled .logging ⟨c, mem, notes⟩) := by
  have due := Processor.move?_of_dispatch consistent dry phase
  cases served : c.serve? with
  | some m =>
    obtain ⟨interrupt, _, taken, fetch, reports⟩ := taken_serve ram consistent dry regs served
    rw [served, Option.getD_some] at due
    rw [Board.settled_of_move consistent due, reports,
      Board.settled_of_rest (Processor.move?_of_cycle taken.consistent fetch)]
    refine Or.inr ⟨interrupt.vector, rfl, ?_⟩
    rw [contents]
    exact taken
  | none =>
    rw [served, Option.getD_none] at due
    have still : Processor.move? { c with phase := .cwaiWait } = none :=
      Processor.move?_of_dry consistent dry
    rw [Board.settled_of_move consistent due]
    change Progress entire r ram notes
      (Board.settled .logging ⟨{ c with phase := .cwaiWait }, mem, notes⟩)
    rw [Board.settled_of_rest still]
    refine Or.inl ⟨rfl, ?_⟩
    rw [contents]
    exact .waiting consistent dry rfl regs

/-- The frame of a software interrupt is complete, and its vector is taken. -/
theorem progress_vector {c : Processor} {mem : Memory}
    {which : InterruptVector} (consistent : c.schedule.Consistent)
    (pending : c.schedule.pending = [.action (.vector which)]) (phase : c.phase = .execution)
    (regs : c.regs = Frame.stacked entire r) (contents : mem.peek = Frame.memory entire r ram) :
    Progress entire r ram notes (Board.settled .logging ⟨c, mem, notes⟩) := by
  have due := Processor.move?_of_action consistent pending
  obtain ⟨taken, fetch, reports⟩ := taken_vector ram consistent pending phase regs
  rw [Board.settled_of_move consistent due, reports,
    Board.settled_of_rest (Processor.move?_of_cycle taken.consistent fetch)]
  refine Or.inr ⟨which, rfl, ?_⟩
  rw [contents]
  exact taken

/-- Settling in the middle of an entry: the next bus cycle comes up, or the frame is
complete and it is decided how to go on. -/
theorem progress_settled (mem : Memory) {c : Processor} {goal : Processor × Ram}
    {ops back : List MicroOp} (headed : Headed goal ops back c mem.peek)
    (leaves : seen goal = (Frame.stacked entire r, Frame.memory entire r ram))
    (onward : back = [] ∧ c.phase = .dispatch ∨
      ∃ which, back = [.action (.vector which)] ∧ c.phase = .execution) :
    Progress entire r ram notes (Board.settled .logging ⟨c, mem, notes⟩) := by
  induction ops generalizing c with
  | nil =>
    obtain ⟨pending, alike⟩ := headed.nothingLeft
    have sees := alike.seen.trans leaves
    have regs : c.regs = Frame.stacked entire r := congrArg Prod.fst sees
    have contents : mem.peek = Frame.memory entire r ram := congrArg Prod.snd sees
    rcases onward with ⟨rfl, phase⟩ | ⟨which, rfl, phase⟩
    · exact progress_dispatch notes headed.consistent pending phase regs contents
    · exact progress_vector notes headed.consistent pending phase regs contents
  | cons op ops ih =>
    cases op with
    | action action =>
      obtain ⟨d, same, on, stays⟩ := headed.settled .logging notes
      rw [← stays.phase] at onward
      rw [same]
      exact ih on onward
    | cycle cycle =>
      rw [Board.settled_of_rest (Processor.move?_of_cycle headed.consistent headed.pending)]
      exact Or.inl ⟨rfl, .stacking headed leaves onward⟩

/-! ## One clock of an entry -/

theorem straight_frame (instruction : Instruction) (entire : Bool) :
    Straight instruction (Frame.program entire) := by
  cases entire <;> simp [Straight, Frame.program, Frame.entirePushed, MicroOp.straight,
    MicroOp.queues]

/-- The frame of a software interrupt is stacked once its opcode is fetched. -/
theorem Processor.Decoded.headed {c : Processor} {kind : SoftwareInterrupt} {regs : RegisterFile}
    (h : c.Decoded ⟨.software kind, .inherent⟩ regs) (ram : Ram) :
    ∃ goal, Headed goal (.cycle .peekPc :: Frame.program true) [.action (.vector kind.vector)]
        c ram ∧
      seen goal = (Frame.stacked true regs, Frame.memory true regs ram) := by
  have program : c.schedule.pending =
      (.cycle .peekPc :: Frame.program true) ++ [.action (.vector kind.vector)] := h.pending
  have straight : Straight c.instruction (.cycle .peekPc :: Frame.program true) :=
    (show Straight _ [.cycle .peekPc] by simp [Straight, MicroOp.straight, MicroOp.queues]).append
      (straight_frame _ true)
  have here := congrArg seen (enact_frame true c ram)
  rw [h.regs] at here
  exact ⟨_, Headed.start ram _ h.consistent program straight, here⟩

theorem progress_stacking {c : Processor} {mem : Memory} {goal : Processor × Ram}
    {cycle : BusCycle} {ops back : List MicroOp}
    (headed : Headed goal (.cycle cycle :: ops) back c mem.peek)
    (leaves : seen goal = (Frame.stacked entire r, Frame.memory entire r ram))
    (onward : back = [] ∧ c.phase = .dispatch ∨
      ∃ which, back = [.action (.vector which)] ∧ c.phase = .execution) (levels : Levels) :
    Progress entire r ram notes
      (Board.tick .logging (Board.withLevels levels ⟨c, mem, notes⟩)) := by
  obtain ⟨d, mem', byte, clocked, on, stays, _⟩ :=
    headed.clock .logging notes levels
  rw [Monitor.watched_logging] at clocked
  rw [← stays.phase] at onward
  rw [Board.tick, clocked]
  exact progress_settled notes mem' on leaves onward

theorem progress_fetching {c : Processor} {mem : Memory} {page : Byte} {n : Nat}
    {kind : SoftwareInterrupt} (start : c.AtOpcode page)
    (encoded : Encodes mem.peek page c.regs.pc n ⟨.software kind, .inherent⟩)
    (regs : { c.regs with pc := c.regs.pc + UInt16.ofNat n } = r) (levels : Levels) :
    Progress true r mem.peek notes
      (Board.tick .logging (Board.withLevels levels ⟨c, mem, notes⟩)) := by
  obtain ⟨e, clocked, ready, same, _⟩ :=
    Board.clock_fetch Monitor.proceeds_logging start mem notes levels
  rw [Monitor.asked_logging] at clocked
  rw [Board.tick, clocked]
  generalize found : Instruction.mk (.software kind) .inherent = i at encoded
  cases encoded with
  | opcode final =>
    have decoded := Processor.decoded_carryOut ready final
    rw [← found, same] at decoded
    obtain ⟨goal, headed, leaves⟩ := decoded.headed mem.peek
    refine progress_settled notes mem.counted headed ?_
      (Or.inr ⟨kind.vector, rfl, decoded.phase⟩)
    rw [← regs]
    exact leaves
  | @select _ selected _ n _ selects more =>
    obtain ⟨next, moved⟩ := Processor.atOpcode_carryOut ready selects
    rw [same] at moved
    rw [Board.settled_of_rest (Processor.move?_of_cycle next.consistent next.pending)]
    rw [← found] at more
    refine Or.inl ⟨rfl, .fetching next (by rw [moved]; exact more) ?_ rfl⟩
    rw [moved, ← regs, UInt16.ofNat_add, UInt16.add_assoc, UInt16.add_comm 1]
    rfl

namespace Processor

/-- The frame of a hardware interrupt is scheduled, behind two reads that stand for the
fetch given up. -/
def interrupted (c : Processor) (interrupt : HardwareInterrupt) : Processor :=
  { c with
    phase := .dispatch
    schedule := c.schedule.extend
      ([.cycle .peekPc, .cycle .peekPc] ++ Frame.program interrupt.stacksEntire) }

theorem schedule_interrupted (c : Processor) (interrupt : HardwareInterrupt) :
    (c.interrupted interrupt).schedule = c.schedule.extend
      ([.cycle .peekPc, .cycle .peekPc] ++ Frame.program interrupt.stacksEntire) := by
  simp only [interrupted]

theorem regs_interrupted (c : Processor) (interrupt : HardwareInterrupt) :
    (c.interrupted interrupt).regs = c.regs := rfl

theorem consistent_interrupted {c : Processor} (h : c.schedule.Consistent)
    (interrupt : HardwareInterrupt) : (c.interrupted interrupt).schedule.Consistent := by
  rw [schedule_interrupted]
  exact h.extend _

/-- That is the move of a recognised interrupt, and it is the last one. -/
theorem settle_of_asked {c : Processor} {interrupt : HardwareInterrupt}
    (consistent : c.schedule.Consistent) (dry : c.schedule.pending = [])
    (phase : c.phase = .arbitration)
    (asked : HardwareInterrupt.recognised c.inputs.active c.regs.cc = some interrupt) :
    c.settle = { state := c.interrupted interrupt } ∧
      (c.interrupted interrupt).schedule.pending =
        [.cycle .peekPc, .cycle .peekPc] ++ Frame.program interrupt.stacksEntire := by
  have due := move?_of_asked consistent dry phase asked
  have pending : (c.interrupted interrupt).schedule.pending =
      [.cycle .peekPc, .cycle .peekPc] ++ Frame.program interrupt.stacksEntire := by
    rw [schedule_interrupted]
    exact Schedule.pending_extend_of_dry consistent dry _ (by cases interrupt <;> decide)
  have still := move?_of_cycle (consistent_interrupted consistent interrupt) pending
  have onward := settle_of_move consistent due
  change c.settle = { state := (c.interrupted interrupt).settle.state
                      reports := (c.interrupted interrupt).settle.reports } at onward
  rw [settle_of_rest still] at onward
  exact ⟨onward, pending⟩

end Processor

/-- From then on the frame is being stacked. -/
theorem headed_interrupted (ram : Ram) {c : Processor} {interrupt : HardwareInterrupt}
    (consistent : c.schedule.Consistent)
    (pending : (c.interrupted interrupt).schedule.pending =
      [.cycle .peekPc, .cycle .peekPc] ++ Frame.program interrupt.stacksEntire) :
    ∃ goal, Headed goal
        (.cycle .peekPc :: .cycle .peekPc :: Frame.program interrupt.stacksEntire) []
        (c.interrupted interrupt) ram ∧
      seen goal = (Frame.stacked interrupt.stacksEntire c.regs,
        Frame.memory interrupt.stacksEntire c.regs ram) := by
  have straight : Straight (c.interrupted interrupt).instruction
      ([.cycle .peekPc, .cycle .peekPc] ++ Frame.program interrupt.stacksEntire) :=
    (show Straight _ [.cycle .peekPc, .cycle .peekPc] by
      simp [Straight, MicroOp.straight, MicroOp.queues]).append (straight_frame _ _)
  have headed := Headed.start ram []
    (Processor.consistent_interrupted consistent interrupt)
    (by rw [pending, List.append_nil]) straight
  have here := congrArg seen (enact_frame interrupt.stacksEntire (c.interrupted interrupt) ram)
  rw [Processor.regs_interrupted] at here
  exact ⟨_, headed, here⟩

theorem progress_recognised {c : Processor} {mem : Memory} {interrupt : HardwareInterrupt}
    (consistent : c.schedule.Consistent) (dry : c.schedule.pending = [])
    (phase : c.phase = .arbitration)
    (asked : HardwareInterrupt.recognised c.inputs.active c.regs.cc = some interrupt) :
    Progress interrupt.stacksEntire c.regs mem.peek notes
      (Board.tick .logging ⟨c, mem, notes⟩) := by
  obtain ⟨settled, pending⟩ := Processor.settle_of_asked consistent dry phase asked
  have scheduled := Processor.consistent_interrupted consistent interrupt
  have prepared : c.prepare = { state := c.interrupted interrupt } := by
    simp only [Processor.prepare, settled, Processor.wake?_of_pending scheduled pending]
  have clocked := Board.clock_prepared .logging mem notes consistent
  rw [prepared] at clocked
  obtain ⟨goal, headed, leaves⟩ := headed_interrupted mem.peek consistent pending
  have on := progress_stacking notes headed leaves (Or.inl ⟨rfl, rfl⟩)
    (c.interrupted interrupt).inputs.live
  rw [Board.tick, ← clocked]
  rw [Board.tick, show Board.withLevels _ _ = _ from
    Board.withLevels_live ⟨c.interrupted interrupt, mem, notes⟩] at on
  exact on

/-- A clock of a wait, which goes on. -/
theorem Board.clock_of_waiting {σ : Type} {m : Monitor σ} {c : Processor} (mem : Memory)
    (notes : σ) (consistent : c.schedule.Consistent) (dry : c.schedule.pending = [])
    (phase : c.phase = .cwaiWait) (prepared : c.prepare = { state := c }) :
    clock m ⟨c, mem, notes⟩ = (.cycle, ⟨c.clocked, mem.counted, notes⟩) := by
  have due := Processor.due?_of_dry consistent dry
  have asks : c.asksFirst = false := by
    simp [Processor.asksFirst, due]
  have idled : c.idled = { state := c.clocked } := by
    rw [Processor.idled]
    simp only [Processor.clocked, phase]
  simp only [clock, prepared, asks, Monitor.hearAll, List.foldl_nil]
  simp only [exchange, Processor.access, due, Processor.complete, Processor.operandDue, idled,
    Monitor.hearAll, List.foldl_nil]
  rfl

/-- The cycle between taking a vector and fetching it. -/
theorem Taken.carryOut {which : InterruptVector} {c : Processor} {contents : Ram}
    (h : Taken entire r ram which c contents)
    (pending : c.schedule.pending = .cycle .dummy :: vectorFetch) (byte : Byte) :
    Taken entire r ram which (c.carryOut .dummy byte) contents ∧
      (c.carryOut .dummy byte).schedule.pending = vectorFetch := by
  have fetch : (c.carryOut .dummy byte).schedule.pending = vectorFetch := by
    change (c.schedule.advance.extend []).pending = _
    change c.schedule.advance.pending = _
    rw [Schedule.pending_advance h.consistent, pending, List.tail_cons]
  exact ⟨⟨h.regs, h.contents, h.consistent.advance, Or.inl fetch, h.ea, h.phase⟩, fetch⟩

/-- The clock that ends a wait: the cycle before the fetch of the vector. -/
theorem Board.clock_of_waking {σ : Type} (m : Monitor σ) {c : Processor} {mem : Memory} (notes : σ)
    (consistent : c.schedule.Consistent) (dry : c.schedule.pending = [])
    (regs : c.regs = Frame.stacked entire r) (contents : mem.peek = Frame.memory entire r ram)
    {move : Move} (wake : c.wake? = some move) :
    c.ready.access = .idle ∧ ∃ interrupt d,
      HardwareInterrupt.recognised c.inputs.active r.cc = some interrupt ∧
      clock m ⟨c, mem, notes⟩ =
        (.cycle, ⟨d, mem.counted, m.log (.vectorTaken interrupt.vector r.pc) notes⟩) ∧
      Taken entire r ram interrupt.vector d mem.peek := by
  obtain ⟨_, phase, _, served⟩ := Processor.wake?_eq_some wake
  obtain ⟨interrupt, recognised, taken, pending, reports⟩ :=
    taken_serve ram consistent dry regs served
  have still : c.move? = none := by
    rw [Processor.move?_of_dry consistent dry, Processor.phaseMove?, phase]
  have settled := Processor.settle_of_rest still
  have prepared : c.prepare = { state := move.landed, reports := move.reports } := by
    simp only [Processor.prepare, settled, wake, List.nil_append]
  have due := Processor.due?_of_cycle taken.consistent pending
  have ready : c.ready = move.landed := by
    rw [Processor.ready, prepared]
    exact Processor.announce_of_unasked (by simp [Processor.asksFirst, due])
  have access : c.ready.access = .idle := by
    rw [ready, Processor.access, due]
    rfl
  obtain ⟨on, fetch⟩ := taken.carryOut pending ((BusCycle.dummy.access move.landed).perform mem).1
  have clocked := clock_prepared m mem notes consistent
  rw [prepared] at clocked
  dsimp only at clocked
  rw [clock_of_cycle _ _ _ taken.consistent pending (by decide),
    settled_of_rest (Processor.move?_of_cycle on.consistent fetch), reports] at clocked
  refine ⟨access, interrupt, _, recognised, clocked.symm, ?_⟩
  rw [contents]
  exact on

theorem progress_waiting {c : Processor} {mem : Memory} (consistent : c.schedule.Consistent)
    (dry : c.schedule.pending = []) (phase : c.phase = .cwaiWait)
    (regs : c.regs = Frame.stacked entire r) (contents : mem.peek = Frame.memory entire r ram) :
    Progress entire r ram notes (Board.tick .logging ⟨c, mem, notes⟩) := by
  have still : c.move? = none := by
    rw [Processor.move?_of_dry consistent dry, Processor.phaseMove?, phase]
  rw [Board.tick]
  cases wake : c.wake? with
  | none =>
    rw [Board.clock_of_waiting mem notes consistent dry phase
      (Processor.prepare_of_rest still wake)]
    refine Or.inl ⟨rfl, ?_⟩
    change Entry entire r ram c.clocked mem.peek
    rw [contents]
    exact .waiting consistent dry phase regs
  | some m =>
    obtain ⟨_, interrupt, d, _, clocked, taken⟩ :=
      Board.clock_of_waking .logging notes consistent dry regs contents wake
    rw [clocked]
    exact Or.inr ⟨interrupt.vector, rfl, taken⟩

/-- Whatever the lines do, a clock goes on with an entry or takes a vector. -/
theorem Entry.tick {b : Board Memory (List Notice)} (h : Entry entire r ram b.cpu b.bus.peek)
    (levels : Levels) :
    Progress entire r ram b.notes (Board.tick .logging (b.withLevels levels)) := by
  obtain ⟨c, mem, notes⟩ := b
  dsimp only at h ⊢
  generalize contents : mem.peek = seenRam at h
  cases h with
  | fetching start encoded regs whole =>
    subst whole contents
    exact progress_fetching notes start encoded regs levels
  | recognised consistent dry phase asked regs frame =>
    subst regs frame contents
    exact progress_recognised notes (c := c.withLevels levels) consistent dry phase asked
  | stacking headed leaves onward =>
    subst contents
    exact progress_stacking notes headed leaves onward levels
  | waiting consistent dry phase regs =>
    exact progress_waiting notes (c := c.withLevels levels) consistent dry phase regs contents

/-- Until a vector is taken the entry goes on, and nothing is noted. -/
theorem Entry.clocks {lines : List Levels} {b : Board Memory (List Notice)}
    (h : Entry entire r ram b.cpu b.bus.peek) (silent : b.notes = [])
    (untaken : ∀ which pc, .vectorTaken which pc ∉ (Board.clocks .logging lines b).notes) :
    Entry entire r ram (Board.clocks .logging lines b).cpu
        (Board.clocks .logging lines b).bus.peek ∧
      (Board.clocks .logging lines b).notes = [] := by
  induction lines generalizing b with
  | nil => exact ⟨h, silent⟩
  | cons levels more ih =>
    rcases h.tick levels with ⟨same, on⟩ | ⟨which, noted, _⟩
    · exact ih on (same.trans silent) untaken
    · have kept := Board.prefix_clocks_logging more (Board.tick .logging (b.withLevels levels))
      rw [noted] at kept
      refine absurd (kept.subset ?_) (untaken which r.pc)
      exact List.mem_append_right b.notes List.mem_cons_self

/-! ## How an entry begins -/

/-- An entry is about to begin, with this kind of frame and these registers. -/
inductive EntryBegins (ram : Ram) : Processor → Bool → RegisterFile → Prop
  /-- A hardware interrupt is recognised between two instructions. -/
  | hardware {c : Processor} {interrupt : HardwareInterrupt}
      (consistent : c.schedule.Consistent) (dry : c.schedule.pending = [])
      (phase : c.phase = .arbitration)
      (asked : HardwareInterrupt.recognised c.inputs.active c.regs.cc = some interrupt) :
      EntryBegins ram c interrupt.stacksEntire c.regs
  /-- The same, as it is seen between two clocks. -/
  | settled {c : Processor} {interrupt : HardwareInterrupt}
      (consistent : c.schedule.Consistent) (dry : c.schedule.pending = [])
      (phase : c.phase = .arbitration)
      (asked : HardwareInterrupt.recognised c.inputs.active c.regs.cc = some interrupt) :
      EntryBegins ram c.settle.state interrupt.stacksEntire c.regs
  /-- The next instruction is a software interrupt. PC is past it once the frame is
  stacked. -/
  | software {c : Processor} {n : Nat} {kind : SoftwareInterrupt} (start : c.AtOpcode 0)
      (encoded : Encodes ram 0 c.regs.pc n ⟨.software kind, .inherent⟩) :
      EntryBegins ram c true { c.regs with pc := c.regs.pc + UInt16.ofNat n }

theorem EntryBegins.entry {c : Processor} (h : EntryBegins ram c entire r) :
    Entry entire r ram c ram := by
  cases h with
  | hardware consistent dry phase asked =>
    exact .recognised consistent dry phase asked rfl rfl
  | settled consistent dry phase asked =>
    obtain ⟨settled, pending⟩ := Processor.settle_of_asked consistent dry phase asked
    obtain ⟨goal, headed, leaves⟩ := headed_interrupted ram consistent pending
    rw [settled]
    exact .stacking headed leaves (Or.inl ⟨rfl, rfl⟩)
  | software start encoded => exact .fetching start encoded rfl rfl

/-- The clock in which an entry takes its vector. -/
theorem EntryBegins.taken {c : Processor} {mem : Memory} (h : EntryBegins mem.peek c entire r)
    {lines : List Levels} {levels : Levels}
    (untaken : ∀ which pc,
      .vectorTaken which pc ∉ (Board.clocks .logging lines ⟨c, mem, []⟩).notes)
    {which : InterruptVector} {pc : Word}
    (noted : .vectorTaken which pc ∈
      (Board.clocks .logging (lines ++ [levels]) ⟨c, mem, []⟩).notes) :
    Taken entire r mem.peek which
        (Board.clocks .logging (lines ++ [levels]) ⟨c, mem, []⟩).cpu
        (Board.clocks .logging (lines ++ [levels]) ⟨c, mem, []⟩).bus.peek ∧
      pc = r.pc := by
  obtain ⟨on, silent⟩ := h.entry.clocks (b := ⟨c, mem, []⟩) rfl untaken
  rw [Board.clocks_append] at noted ⊢
  rcases on.tick levels with ⟨same, _⟩ | ⟨vector, first, taken⟩
  · rw [silent] at same
    rw [Board.clocks, Board.clocks, same] at noted
    cases noted
  · rw [silent, List.nil_append] at first
    rw [Board.clocks, Board.clocks, first, List.mem_singleton] at noted
    cases noted
    exact ⟨taken, rfl⟩

/-- A software interrupt takes its own vector, and it takes it after a fixed time. -/
theorem software_taken {c : Processor} {mem : Memory} {n : Nat} {kind : SoftwareInterrupt}
    (start : c.AtOpcode 0)
    (encoded : Encodes mem.peek 0 c.regs.pc n ⟨.software kind, .inherent⟩) {lines : List Levels}
    (length : lines.length = n + 14) :
    .vectorTaken kind.vector (c.regs.pc + UInt16.ofNat n) ∈
      (Board.clocks .logging lines ⟨c, mem, notes⟩).notes := by
  obtain ⟨front, back, rfl, first, second⟩ := exists_append_of_length length
  obtain ⟨d, mem', notes', fetch, decoded, _, _⟩ :=
    encoded.runs Monitor.proceeds_logging mem notes start rfl rfl first
  obtain ⟨goal, headed, leaves⟩ := decoded.headed mem'.peek
  obtain ⟨e, mem'', notes'', runs, done, stays⟩ :=
    headed.runs .logging notes' second
  obtain ⟨pending, alike⟩ := done.nothingLeft
  have regs : e.regs = _ := congrArg Prod.fst (alike.seen.trans leaves)
  obtain ⟨_, _, reports⟩ := taken_vector mem''.peek done.consistent pending
    (stays.phase.trans decoded.phase) regs
  rw [Board.clocks_append, fetch.clocks_eq, runs.clocks_eq,
    Board.settled_of_move done.consistent (Processor.move?_of_action done.consistent pending),
    reports]
  apply (Board.prefix_settled_logging _).subset
  exact List.mem_append_right notes'' List.mem_cons_self

end

end Sim6809
