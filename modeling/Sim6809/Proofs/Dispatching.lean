/-
The dispatcher comes to the clock.

A tick of the dispatcher is the same chain of moves that `settle` makes, cut by one access, and
the flag is what tells the two halves apart. So the proof follows the tick. A turn in which a
move is due makes that move, whatever the flag (`turn_of_move`), and as many turns as `settle`
has moves lead to the settled board (`Ends.settle`). There the flag decides: if it is up the tick
is over (`turn_of_rest`), and otherwise the turn wakes, waits, or makes the bus cycle that is due,
after which the flag is up and the moves start once more.

The schedule has thirty-two slots and three phases can follow on it, so that 35 turns are enough
for each half. With a turn to wake, one for the access and one to end, `turnLimit` covers a tick.
-/
import Sim6809.Dispatcher
import Sim6809.Proofs.Straight

set_option autoImplicit false

namespace Sim6809.Dispatcher

variable {β σ : Type} [Bus β] {m : Monitor σ} {cycled : Bool} {b : Board β σ}

/-! ## Turn by turn -/

theorem turn_of_step {op : MicroOp} (current : b.cpu.schedule.current = some op) :
    turn m cycled b = stepTurn m cycled op b := by
  rw [turn, current]

theorem turn_of_dry (current : b.cpu.schedule.current = none) :
    turn m cycled b = phaseTurn m cycled b := by
  rw [turn, current]

/-- A phase that goes on by itself does so in one turn. -/
theorem phaseTurn_of_move {move : Move} (due : b.cpu.phaseMove? = some move) :
    phaseTurn m cycled b = .again cycled (make m move b) := by
  unfold Processor.phaseMove? at due
  cases phase : b.cpu.phase with
  | reset | execution =>
    simp only [phase] at due
    cases due
    simp only [phaseTurn, phase]
  | resetHold | boundary =>
    simp only [phase] at due
    split at due
    · cases due
    · next free =>
      cases due
      simp only [phaseTurn, phase, if_neg free]
  | arbitration =>
    simp only [phase] at due
    split at due
    · next interrupt recognised =>
      cases due
      simp only [phaseTurn, phase, recognised]
    · next none =>
      cases due
      simp only [phaseTurn, phase, none]
  | dispatch =>
    simp only [phase] at due
    cases served : b.cpu.serve? with
    | some move =>
      rw [served] at due
      cases due
      simp only [phaseTurn, phase, served, Option.getD_some]
    | none =>
      rw [served] at due
      cases due
      simp only [phaseTurn, phase, served, Option.getD_none]
  | cwaiWait | syncWait | syncHold | locked =>
    simp only [phase] at due
    cases due

/-- A move that is due is made, whatever the flag: no move uses the bus. -/
theorem turn_of_move {move : Move} (due : b.cpu.move? = some move) :
    turn m cycled b = .again cycled (make m move b) := by
  unfold Processor.move? at due
  split at due
  · cases due
  · next action current =>
    cases due
    rw [turn_of_step current, stepTurn, MicroOp.usesBus, Bool.and_false]
    rfl
  · next current =>
    rw [turn_of_dry current]
    exact phaseTurn_of_move due

/-- The phases that do not go on: two that HALT holds, and those that wait. -/
inductive Stands (c : Processor) : Prop
  | held (phase : c.phase = .resetHold ∨ c.phase = .boundary) (halt : c.inputs.active.halt = true)
  | waits (phase : c.phase ∈ [Phase.cwaiWait, .syncWait, .syncHold, .locked])

theorem stands {c : Processor} (still : c.phaseMove? = none) : Stands c := by
  unfold Processor.phaseMove? at still
  cases phase : c.phase with
  | reset | execution | dispatch =>
    simp only [phase] at still
    cases still
  | arbitration =>
    simp only [phase] at still
    split at still <;> cases still
  | resetHold | boundary =>
    simp only [phase] at still
    split at still
    · next halt => exact .held (by simp [phase]) halt
    · cases still
  | cwaiWait | syncWait | syncHold | locked => exact .waits (by simp [phase])

/-- With the flag up, a phase that does not go on ends the tick. -/
theorem phaseTurn_of_rest (still : b.cpu.phaseMove? = none) :
    phaseTurn m true b = .finished .cycle b := by
  rcases stands still with ⟨phase | phase, halt⟩ | phase
  · simp only [phaseTurn, phase, halt, if_true, idleCycle]
  · simp only [phaseTurn, phase, halt, if_true, idleCycle]
  · simp only [List.mem_cons, List.not_mem_nil, or_false] at phase
    rcases phase with phase | phase | phase | phase <;>
      simp only [phaseTurn, phase, if_true, idleCycle]

/-- With the flag up, the tick of a board without a move is over. -/
theorem turn_of_rest (still : b.cpu.move? = none) : turn m true b = .finished .cycle b := by
  unfold Processor.move? at still
  split at still
  · next cycle current =>
    rw [turn_of_step current]
    rfl
  · cases still
  · next current =>
    rw [turn_of_dry current]
    exact phaseTurn_of_rest still

/-- A CWAI wait whose interrupt has come is left in a turn of its own, if the flag is down. -/
theorem turn_of_wake {move : Move} (wake : b.cpu.wake? = some move) :
    turn m false b = .again false (make m move b) := by
  obtain ⟨current, phase, free, served⟩ := Processor.wake?_eq_some wake
  rw [turn_of_dry current]
  simp only [phaseTurn, phase, free, served]
  rfl

/-- A bus cycle and what its byte does, up to the moves that follow. -/
def carried (m : Monitor σ) (cycle : BusCycle) (b : Board β σ) : Board β σ :=
  let byte := (cycle.access b.cpu).perform b.bus
  ⟨b.cpu.carryOut cycle byte.1, byte.2, Board.watched m cycle b.cpu byte.1 b.notes⟩

/-- What the processor does with a byte is not reported. -/
theorem reports_absorb (c : Processor) (byte : Byte) (cycle : BusCycle) :
    (c.absorb byte cycle).reports = [] := by
  cases cycle with
  | fetchOpcode =>
    rw [Processor.absorb, Processor.absorbOpcode]
    split <;> rfl
  | _ => rfl

/-- Performing a bus cycle, once the schedule is past it. -/
theorem carry_advanced (cycle : BusCycle) :
    carry m cycle { b with cpu := { b.cpu with schedule := b.cpu.schedule.advance } } =
      carried m cycle b := by
  unfold carried Board.watched carry
  cases operand : cycle.isOperand with
  | true | false =>
    simp only [make, reports_absorb]
    rfl

/-- What is due is the pending step, of which there is one. -/
theorem current_of_due {c : Processor} {cycle : BusCycle} (due : c.due? = some cycle) :
    c.schedule.current = some (.cycle cycle) ∧ c.schedule.cursor < c.schedule.filled := by
  have current : c.schedule.current = some (.cycle cycle) := by
    unfold Processor.due? at due
    split at due
    · next current =>
      cases due
      exact current
    · cases due
  refine ⟨current, ?_⟩
  unfold Schedule.current at current
  split at current
  · next more => exact more
  · cases current

/-- The bus cycle that is due is made, with the flag down, unless the instruction hook is to be
asked first. -/
theorem turn_of_cycle {cycle : BusCycle} (due : b.cpu.due? = some cycle)
    (unasked : b.cpu.asksFirst = false) :
    turn m false b = .again true (carried m cycle b) := by
  rw [turn_of_step (current_of_due due).1, stepTurn, Bool.false_and, ← carry_advanced]
  cases cycle with
  | fetchOpcode =>
    have declined : ¬(b.cpu.page = 0 ∧ b.cpu.announced = false) := by
      simpa [Processor.asksFirst, due] using unasked
    simp only [perform, fetchOpcode, if_neg declined]
    rfl
  | _ => rfl

/-- Before the first opcode byte of an instruction its hook is asked, and the turn goes by the
answer. If it holds, the step that was moved past is put back. -/
theorem turn_of_ask (consistent : b.cpu.schedule.Consistent) (asks : b.cpu.asksFirst = true) :
    turn m false b =
      match m.ask b.cpu.regs b.notes with
      | (.hold, notes) => .finished .held ⟨b.cpu.announce, b.bus, notes⟩
      | (.proceed, notes) =>
        .again true (carried m .fetchOpcode ⟨b.cpu.announce, b.bus, notes⟩) := by
  have announced := Processor.announce_of_asked asks
  simp only [Processor.asksFirst, Bool.and_eq_true, beq_iff_eq, Bool.not_eq_true'] at asks
  obtain ⟨⟨due, page⟩, fresh⟩ := asks
  obtain ⟨current, more⟩ := current_of_due due
  have asked : b.cpu.page = 0 ∧ b.cpu.announced = false := ⟨page, fresh⟩
  rw [turn_of_step current, stepTurn, Bool.false_and, announced]
  simp only [perform, fetchOpcode, if_pos asked]
  cases answer : m.ask b.cpu.regs b.notes with
  | mk verdict notes =>
    cases verdict with
    | hold =>
      simp only [Schedule.rewind_advance consistent more]
      rfl
    | proceed =>
      exact congrArg (Turn.again true)
        (carry_advanced (b := ⟨{ b.cpu with announced := true }, b.bus, notes⟩) .fetchOpcode)

/-- The exchange of a processor with nothing due is an idle cycle. -/
theorem exchange_of_dry (none : b.cpu.due? = none) :
    Board.exchange m b = ⟨b.cpu.idled.state, (Access.idle.perform b.bus).2,
      m.hearAll b.notes b.cpu.idled.reports⟩ := by
  obtain ⟨cpu, bus, notes⟩ := b
  simp only [Board.exchange, Processor.access, Processor.operandDue, Processor.complete, none]
  rfl

/-- Outside of SYNC the processor does nothing in it. -/
theorem exchange_eq_idle (none : b.cpu.due? = none)
    (awake : b.cpu.phase ≠ .syncWait ∧ b.cpu.phase ≠ .syncHold) :
    Board.exchange m b = idle b := by
  have quiet : b.cpu.idled = { state := b.cpu.clocked } := by
    unfold Processor.idled
    dsimp only
    split
    · next phase => exact absurd phase awake.1
    · next phase => exact absurd phase awake.2
    · rfl
  rw [exchange_of_dry none, quiet]
  rfl

/-- With nothing due and nothing to wake for the tick is an idle cycle. -/
theorem turn_of_wait (consistent : b.cpu.schedule.Consistent) (still : b.cpu.move? = none)
    (asleep : b.cpu.wake? = none) (none : b.cpu.due? = none) :
    turn m false b = .finished .cycle (Board.exchange m b) := by
  have dry : b.cpu.schedule.current = .none := by
    rw [Schedule.current_eq_head? consistent, Processor.pending_of_idle consistent still none,
      List.head?_nil]
  rw [turn_of_dry dry]
  simp only [Processor.move?, dry] at still
  rcases stands still with ⟨phase | phase, halt⟩ | phase
  · rw [exchange_eq_idle none (by simp [phase])]
    simp only [phaseTurn, phase, halt, if_true]
    rfl
  · rw [exchange_eq_idle none (by simp [phase])]
    simp only [phaseTurn, phase, halt, if_true]
    rfl
  simp only [List.mem_cons, List.not_mem_nil, or_false] at phase
  have seen : (idle b).cpu = b.cpu.clocked := rfl
  rcases phase with phase | phase | phase | phase
  -- cwaiWait
  · simp only [Processor.wake?, dry, phase] at asleep
    rw [exchange_eq_idle none (by simp [phase])]
    simp only [phaseTurn, phase, asleep]
    rfl
  -- syncWait
  · have clocked : b.cpu.clocked.phase = .syncWait := phase
    rw [exchange_of_dry none]
    simp only [phaseTurn, phase, Processor.idled, clocked, seen, Bool.false_eq_true, if_false]
    split
    · rfl
    · split <;> rfl
  -- syncHold
  · have clocked : b.cpu.clocked.phase = .syncHold := phase
    rw [exchange_of_dry none]
    simp only [phaseTurn, phase, Processor.idled, clocked, seen, Bool.false_eq_true, if_false]
    split <;> rfl
  -- locked
  · rw [exchange_eq_idle none (by simp [phase])]
    simp only [phaseTurn, phase]
    rfl

/-! ## From turns to the tick -/

/-- A limit that is enough can be raised. -/
theorem loop_of_le {limit more : Nat} {outcome : Tick × Board β σ}
    (ended : loop m limit cycled b = some outcome) (le : limit ≤ more) :
    loop m more cycled b = some outcome := by
  induction limit generalizing more cycled b with
  | zero => cases ended
  | succ limit ih =>
    obtain ⟨k, rfl⟩ := Nat.exists_eq_add_of_le' (Nat.le_of_add_left_le le)
    rw [loop] at ended ⊢
    split
    · next cycled' b' turned =>
      rw [turned] at ended
      exact ih ended (Nat.le_of_succ_le_succ le)
    · next ended' b' turned =>
      rw [turned] at ended
      exact ended

/-- The loop comes to this outcome in so many turns, or fewer. -/
def Ends (m : Monitor σ) (cycled : Bool) (b : Board β σ) (turns : Nat)
    (outcome : Tick × Board β σ) : Prop :=
  ∀ limit, turns ≤ limit → loop m limit cycled b = some outcome

namespace Ends

variable {turns : Nat} {outcome : Tick × Board β σ}

theorem finished {ended : Tick} {b' : Board β σ}
    (finished : turn m cycled b = .finished ended b') :
    Ends m cycled b 1 (ended, b') := by
  intro limit enough
  obtain ⟨k, rfl⟩ := Nat.exists_eq_add_of_le' enough
  rw [loop, finished]

theorem again {cycled' : Bool} {b' : Board β σ} (again : turn m cycled b = .again cycled' b')
    (rest : Ends m cycled' b' turns outcome) : Ends m cycled b (turns + 1) outcome := by
  intro limit enough
  obtain ⟨k, rfl⟩ := Nat.exists_eq_add_of_le' (Nat.le_of_add_left_le enough)
  rw [loop, again]
  exact rest k (by omega)

theorem mono (ends : Ends m cycled b turns outcome) {more : Nat} (le : turns ≤ more) :
    Ends m cycled b more outcome :=
  fun limit enough => ends limit (Nat.le_trans le enough)

/-- The moves that are due come first, one in each turn. -/
theorem settle (ends : Ends m cycled (Board.settled m b) turns outcome)
    (consistent : b.cpu.schedule.Consistent) :
    Ends m cycled b (turns + b.cpu.work) outcome := by
  induction work : b.cpu.work using Nat.strongRecOn generalizing b with
  | ind n ih =>
    obtain ⟨cpu, bus, notes⟩ := b
    cases due : cpu.move? with
    | none =>
      rw [Board.settled_of_rest due] at ends
      exact ends.mono (Nat.le_add_right _ _)
    | some move =>
      have less : move.landed.work < n := work ▸ Processor.work_landed_lt consistent due
      rw [Board.settled_of_move consistent due] at ends
      have rest := ih _ less ends (Processor.consistent_landed consistent due) rfl
      exact (rest.again (turn_of_move due)).mono (Nat.add_le_add_left less turns)

end Ends

/-! ## The tick -/

/-- The steps that fit into the schedule, and the phases that can follow. -/
theorem work_le {c : Processor} (consistent : c.schedule.Consistent) : c.work ≤ 35 := by
  have work := Processor.work_le_remaining c consistent
  have remaining := Schedule.remaining_le consistent
  omega

/-- Once the flag is up, the moves that are due end the tick. -/
theorem ends_settled (consistent : b.cpu.schedule.Consistent) :
    Ends m true b 36 (.cycle, Board.settled m b) := by
  have ended : Ends m true (Board.settled m b) 1 (.cycle, Board.settled m b) :=
    .finished (turn_of_rest (Processor.move?_settle consistent))
  refine (ended.settle consistent).mono ?_
  have work := work_le consistent
  omega

/-- The exchange of a bus cycle carries it out, and settles. -/
theorem exchange_of_due {cycle : BusCycle} (due : b.cpu.due? = some cycle) :
    Board.exchange m b = Board.settled m (carried m cycle b) := by
  obtain ⟨cpu, bus, notes⟩ := b
  simp only [Board.exchange, Processor.access, Processor.operandDue, Processor.complete, due]
  rfl

/-- A turn that makes the bus cycle raises the flag, so that the moves which follow end the
tick. -/
theorem ends_exchange {cycle : BusCycle} {b' : Board β σ}
    (consistent : b'.cpu.schedule.Consistent) (due : b'.cpu.due? = some cycle)
    (turned : turn m false b = .again true (carried m cycle b')) :
    Ends m false b 37 (.cycle, Board.exchange m b') := by
  rw [exchange_of_due due]
  exact (ends_settled (Processor.consistent_carryOut consistent cycle _)).again turned

/-- A board that is prepared for its access goes by the instruction hook, if that is to be asked,
and makes its exchange. -/
theorem ends_prepared (consistent : b.cpu.schedule.Consistent) (still : b.cpu.move? = none)
    (asleep : b.cpu.wake? = none) : Ends m false b 37 (Board.clock m b) := by
  have prepared : b.cpu.prepare = { state := b.cpu } := Processor.prepare_of_rest still asleep
  cases asks : b.cpu.asksFirst with
  | true =>
    have turned := turn_of_ask (m := m) consistent asks
    have fetch : b.cpu.due? = some .fetchOpcode := by
      simp only [Processor.asksFirst, Bool.and_eq_true, beq_iff_eq] at asks
      exact asks.1.1
    have same : b.cpu.announce.schedule = b.cpu.schedule := by rw [Processor.announce_eq]
    have fetch' : b.cpu.announce.due? = some .fetchOpcode := by
      rw [Processor.due?, same]
      exact fetch
    simp only [Board.clock, prepared, asks, if_true, Monitor.hearAll, List.foldl_nil]
    cases answer : m.ask b.cpu.regs b.notes with
    | mk verdict notes =>
      rw [answer] at turned
      cases verdict with
      | hold => exact (Ends.finished turned).mono (by decide)
      | proceed =>
        have ready : (⟨b.cpu.announce, b.bus, notes⟩ : Board β σ).cpu.schedule.Consistent :=
          same ▸ consistent
        exact ends_exchange ready fetch' turned
  | false =>
    simp only [Board.clock, prepared, asks]
    cases due : b.cpu.due? with
    | some cycle => exact ends_exchange consistent due (turn_of_cycle due asks)
    | none => exact (Ends.finished (turn_of_wait consistent still asleep due)).mono (by decide)

/-- Turns that are enough for a tick: the moves before its access and those after it, and one to
wake, one to make the access, one to end. -/
def turnLimit : Nat := 73

/-- **The dispatcher comes to the clock.** From every consistent schedule the loop ends, with the
outcome of the clock. -/
theorem tick_eq_clock (consistent : b.cpu.schedule.Consistent) {limit : Nat}
    (enough : turnLimit ≤ limit) : tick m limit b = some (Board.clock m b) := by
  obtain ⟨cpu, bus, notes⟩ := b
  have settles := work_le consistent
  have prepared : Ends m false ⟨cpu.prepare.state, bus, m.hearAll notes cpu.prepare.reports⟩ 37
      (Board.clock m ⟨cpu, bus, notes⟩) := by
    rw [← Board.clock_prepared m bus notes consistent]
    exact ends_prepared (Processor.consistent_prepare consistent)
      (Processor.move?_prepare consistent) (Processor.wake?_prepare consistent)
  have settled : Ends m false (Board.settled m ⟨cpu, bus, notes⟩) 38
      (Board.clock m ⟨cpu, bus, notes⟩) := by
    rcases Processor.prepare_cases cpu with ⟨_, same⟩ | ⟨move, wake, woken⟩
    · rw [same] at prepared
      exact prepared.mono (by decide)
    · refine Ends.again (turn_of_wake wake) ?_
      simp only [woken, Monitor.hearAll, List.foldl_append] at prepared
      exact prepared
  exact settled.settle consistent limit (Nat.le_trans (Nat.add_le_add_left settles 38) enough)

/-- And it has no other outcome, however small the limit is. -/
theorem eq_clock_of_tick (consistent : b.cpu.schedule.Consistent) {limit : Nat}
    {outcome : Tick × Board β σ} (ended : tick m limit b = some outcome) :
    outcome = Board.clock m b := by
  have raised := loop_of_le ended (Nat.le_add_left limit turnLimit)
  have clocked := tick_eq_clock (m := m) consistent (Nat.le_add_right turnLimit limit)
  exact Option.some.inj (raised.symm.trans clocked)

end Sim6809.Dispatcher
