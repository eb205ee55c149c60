/-
Settling, without its counter: the moves before an access as a chain.

`settle` counts down from a bound so that it is a total function, and no statement
about the processor should have to mention that count. `Processor/Settle.lean` shows
that the bound is enough; this file draws the consequences. A settled processor is
reached by a finite chain of moves and has none left (`movesTo_settle`), a move that
is due may be taken out in front (`settle_of_move`), and what every move preserves,
settling preserves (`settle_preserves`). Later files reason by these three and never
unfold `settle`.
-/
import Sim6809.Processor.Settle
import Sim6809.Proofs.Untouched

set_option autoImplicit false

namespace Sim6809

theorem Move.schedule_landed (m : Move) :
    m.landed.schedule = m.next.schedule.extend m.queued := rfl

namespace Processor

/-! ## The chain of moves -/

/-- `c` comes to `d` in `n` moves. -/
inductive MovesTo : Nat → Processor → Processor → Prop
  | rest (c : Processor) : MovesTo 0 c c
  | move {n : Nat} {c d : Processor} {m : Move} (due : c.move? = some m)
      (on : MovesTo n m.landed d) : MovesTo (n + 1) c d

/-- What every move preserves, a chain of moves preserves. -/
theorem MovesTo.preserves {P : Processor → Prop}
    (step : ∀ {c : Processor} {m : Move}, P c → c.move? = some m → P m.landed)
    {n : Nat} {c d : Processor} (chain : MovesTo n c d) (h : P c) : P d := by
  induction chain with
  | rest => exact h
  | move due _ ih => exact ih (step h due)

theorem movesTo_settleWithin (fuel : Nat) (c : Processor) :
    ∃ n ≤ fuel, MovesTo n c (settleWithin fuel c).state := by
  induction fuel generalizing c with
  | zero => exact ⟨0, Nat.le_refl 0, .rest c⟩
  | succ fuel ih =>
    rw [settleWithin]
    cases due : c.move? with
    | none => exact ⟨0, Nat.zero_le _, .rest c⟩
    | some m =>
      obtain ⟨n, bound, chain⟩ := ih m.landed
      exact ⟨n + 1, Nat.succ_le_succ bound, .move due chain⟩

/-- Settling is a chain of moves, no longer than the schedule and three phases
allow. That none is left at its end is `move?_settle`. -/
theorem movesTo_settle (c : Processor) :
    ∃ n ≤ c.schedule.remaining + 3, MovesTo n c c.settle.state :=
  movesTo_settleWithin _ c

/-- What every move preserves, settling preserves. -/
theorem settle_preserves {P : Processor → Prop}
    (step : ∀ {c : Processor} {m : Move}, P c → c.move? = some m → P m.landed)
    {c : Processor} (h : P c) : P c.settle.state := by
  obtain ⟨n, _, chain⟩ := movesTo_settle c
  exact chain.preserves step h

/-! ## Settling, move by move

The counter never decides anything: two counters that are both enough give the same
result. So a move that is due can be taken out in front, although the bound that
`settle` computes from the schedule is a different one before and after it. -/

theorem settleWithin_congr {fuel fuel' : Nat} {c : Processor} (h : c.schedule.Consistent)
    (enough : c.work ≤ fuel) (enough' : c.work ≤ fuel') :
    settleWithin fuel c = settleWithin fuel' c := by
  induction fuel generalizing c fuel' with
  | zero =>
    have still : c.move? = none := by
      cases due : c.move? with
      | none => rfl
      | some m => exact absurd (work_landed_lt h due) (by omega)
    cases fuel' with
    | zero => rfl
    | succ fuel' => rw [settleWithin, settleWithin, still]
  | succ fuel ih =>
    cases due : c.move? with
    | none =>
      cases fuel' with
      | zero => rw [settleWithin, settleWithin, due]
      | succ fuel' => rw [settleWithin, settleWithin, due]
    | some m =>
      have less := work_landed_lt h due
      obtain ⟨k, rfl⟩ : ∃ k, fuel' = k + 1 := ⟨fuel' - 1, by omega⟩
      have same : settleWithin fuel m.landed = settleWithin k m.landed :=
        ih (consistent_landed h due) (by omega) (by omega)
      simp only [settleWithin, due, same]

/-- A processor without a move is settled. -/
theorem settle_of_rest {c : Processor} (still : c.move? = none) : c.settle = { state := c } := by
  simp only [settle, settleWithin, still]

/-- A processor with a move makes it, and settles from there. -/
theorem settle_of_move {c : Processor} {m : Move} (h : c.schedule.Consistent)
    (due : c.move? = some m) :
    c.settle = { state := m.landed.settle.state
                 reports := m.reports ++ m.landed.settle.reports } := by
  have less := work_landed_lt h due
  have bound := work_le_remaining c h
  have same : settleWithin (c.schedule.remaining + 2) m.landed = m.landed.settle :=
    settleWithin_congr (consistent_landed h due) (by omega)
      (work_le_remaining _ (consistent_landed h due))
  rw [← same]
  simp only [settle, settleWithin, due]

/-- Induction along the moves that are due, up to where they end. -/
theorem settle_induction {P : Processor → Processor → Prop}
    (rest : ∀ {c : Processor}, c.move? = none → P c c)
    (move : ∀ {c : Processor} {m : Move}, c.schedule.Consistent → c.move? = some m →
      P m.landed m.landed.settle.state → P c m.landed.settle.state)
    {c : Processor} (h : c.schedule.Consistent) : P c c.settle.state := by
  induction work : c.work using Nat.strongRecOn generalizing c with
  | ind n ih =>
    cases due : c.move? with
    | none =>
      rw [settle_of_rest due]
      exact rest due
    | some m =>
      rw [settle_of_move h due]
      have less := work_landed_lt h due
      rw [work] at less
      exact move h due (ih _ less (consistent_landed h due) rfl)

/-! ## Which move is due

By the head of the pending list, which is how the rest of the theory sees the
schedule. -/

theorem move?_of_cycle {c : Processor} {cycle : BusCycle} {rest : List MicroOp}
    (h : c.schedule.Consistent) (pending : c.schedule.pending = .cycle cycle :: rest) :
    c.move? = none := by
  rw [move?, Schedule.current_eq_head? h, pending, List.head?_cons]

theorem move?_of_action {c : Processor} {action : Action} {rest : List MicroOp}
    (h : c.schedule.Consistent) (pending : c.schedule.pending = .action action :: rest) :
    c.move? = some ({ c with schedule := c.schedule.advance }.act action) := by
  rw [move?, Schedule.current_eq_head? h, pending, List.head?_cons]

theorem move?_of_dry {c : Processor} (h : c.schedule.Consistent)
    (pending : c.schedule.pending = []) : c.move? = c.phaseMove? := by
  rw [move?, Schedule.current_eq_head? h, pending, List.head?_nil]

/-- A move that schedules a cycle is the last one. -/
theorem settle_of_cycle {c : Processor} {m : Move} (h : c.schedule.Consistent)
    (due : c.move? = some m) {cycle : BusCycle} {rest : List MicroOp}
    (pending : m.landed.schedule.pending = .cycle cycle :: rest) : c.settle.state = m.landed := by
  rw [settle_of_move h due, settle_of_rest (move?_of_cycle (consistent_landed h due) pending)]

/-- Once nothing is pending an instruction retires. -/
theorem move?_of_execution {c : Processor} (h : c.schedule.Consistent)
    (dry : c.schedule.pending = []) (phase : c.phase = .execution) :
    c.move? = some { next := { c with phase := .boundary }, reports := [.retired c.regs] } := by
  rw [move?_of_dry h dry, phaseMove?, phase]

theorem move?_of_resetHold {c : Processor} (h : c.schedule.Consistent)
    (dry : c.schedule.pending = []) (phase : c.phase = .resetHold)
    (free : c.inputs.active.halt = false) :
    c.move? = some
      { next := { c with ea := InterruptVector.reset.address, phase := .boundary }
        queued := vectorFetch
        reports := [.notice .resetReleased] } := by
  rw [move?_of_dry h dry, phaseMove?, phase]
  exact if_neg (by rw [free]; decide)

theorem move?_of_boundary {c : Processor} (h : c.schedule.Consistent)
    (dry : c.schedule.pending = []) (phase : c.phase = .boundary)
    (free : c.inputs.active.halt = false) :
    c.move? = some { next := { c with phase := .arbitration } } := by
  rw [move?_of_dry h dry, phaseMove?, phase]
  exact if_neg (by rw [free]; decide)

theorem move?_of_unasked {c : Processor} (h : c.schedule.Consistent)
    (dry : c.schedule.pending = []) (phase : c.phase = .arbitration)
    (unasked : HardwareInterrupt.recognised c.inputs.active c.regs.cc = none) :
    c.move? = some { next := { c with phase := .execution }, queued := [.cycle .fetchOpcode] } := by
  rw [move?_of_dry h dry, phaseMove?, phase]
  simp only [unasked]

/-- Without an interrupt the next opcode is fetched. -/
theorem settle_of_unasked {c : Processor} (h : c.schedule.Consistent)
    (dry : c.schedule.pending = []) (phase : c.phase = .arbitration)
    (unasked : HardwareInterrupt.recognised c.inputs.active c.regs.cc = none) :
    c.settle = { state := { c with
        phase := .execution, schedule := c.schedule.extend [.cycle .fetchOpcode] } } ∧
      (c.schedule.extend [.cycle .fetchOpcode]).pending = [.cycle .fetchOpcode] := by
  have pending := Schedule.pending_extend_of_dry h dry [.cycle .fetchOpcode] (by decide)
  have still := move?_of_cycle (c := { c with
    phase := .execution, schedule := c.schedule.extend [.cycle .fetchOpcode] })
    (h.extend _) pending
  refine ⟨?_, pending⟩
  rw [settle_of_move h (move?_of_unasked h dry phase unasked)]
  change ({ state := (settle { c with
    phase := .execution, schedule := c.schedule.extend [.cycle .fetchOpcode] }).state
            reports := (settle { c with
    phase := .execution, schedule := c.schedule.extend [.cycle .fetchOpcode] }).reports } :
      Reported) = _
  rw [settle_of_rest still]

/-- An interrupt recognised between two instructions has its frame stacked. -/
theorem move?_of_asked {c : Processor} (h : c.schedule.Consistent)
    (dry : c.schedule.pending = []) (phase : c.phase = .arbitration)
    {interrupt : HardwareInterrupt}
    (asked : HardwareInterrupt.recognised c.inputs.active c.regs.cc = some interrupt) :
    c.move? = some
      { next := { c with phase := .dispatch }
        queued := [.cycle .peekPc, .cycle .peekPc] ++ Frame.program interrupt.stacksEntire } := by
  rw [move?_of_dry h dry, phaseMove?, phase]
  simp only [asked]

/-- Once a frame is stacked, whatever is recognised then is served. -/
theorem move?_of_dispatch {c : Processor} (h : c.schedule.Consistent)
    (dry : c.schedule.pending = []) (phase : c.phase = .dispatch) :
    c.move? = some (c.serve?.getD { next := { c with phase := .cwaiWait } }) := by
  rw [move?_of_dry h dry, phaseMove?, phase]

theorem due?_of_cycle {c : Processor} {cycle : BusCycle} {rest : List MicroOp}
    (h : c.schedule.Consistent) (pending : c.schedule.pending = .cycle cycle :: rest) :
    c.due? = some cycle := by
  rw [due?, Schedule.current_eq_head? h, pending, List.head?_cons]

theorem due?_of_dry {c : Processor} (h : c.schedule.Consistent)
    (pending : c.schedule.pending = []) : c.due? = none := by
  rw [due?, Schedule.current_eq_head? h, pending, List.head?_nil]

/-- A scheduled bus cycle is due exactly if it is at the head of the list. -/
theorem due?_eq_some_iff {c : Processor} {cycle : BusCycle} (h : c.schedule.Consistent) :
    c.due? = some cycle ↔ ∃ rest, c.schedule.pending = .cycle cycle :: rest := by
  constructor
  · intro due
    cases pending : c.schedule.pending with
    | nil =>
      rw [due?_of_dry h pending] at due
      cases due
    | cons op rest =>
      cases op with
      | cycle next =>
        rw [due?_of_cycle h pending] at due
        cases due
        exact ⟨rest, rfl⟩
      | action action =>
        rw [due?, Schedule.current_eq_head? h, pending, List.head?_cons] at due
        cases due
  · rintro ⟨rest, pending⟩
    exact due?_of_cycle h pending

/-! ## What prepares and completes a cycle -/

theorem wake?_of_pending {c : Processor} {op : MicroOp} {rest : List MicroOp}
    (h : c.schedule.Consistent) (pending : c.schedule.pending = op :: rest) :
    c.wake? = none := by
  rw [wake?, Schedule.current_eq_head? h, pending, List.head?_cons]

/-- Waking happens in a CWAI wait without HALT, and serves an interrupt. -/
theorem wake?_eq_some {c : Processor} {m : Move} (due : c.wake? = some m) :
    c.schedule.current = none ∧ c.phase = .cwaiWait ∧ c.inputs.active.halt = false ∧
      c.serve? = some m := by
  unfold wake? at due
  split at due
  · next current phase =>
    split at due
    · cases due
    · next free => exact ⟨current, phase, by simpa using free, due⟩
  · cases due

/-- Without HALT a CWAI wait ends as soon as there is something to serve. -/
theorem wake?_of_wait {c : Processor} (h : c.schedule.Consistent) (dry : c.schedule.pending = [])
    (phase : c.phase = .cwaiWait) (free : c.inputs.active.halt = false) :
    c.wake? = c.serve? := by
  rw [wake?, Schedule.current_eq_head? h, dry, phase]
  simp [free]

/-- With HALT nothing wakes. -/
theorem wake?_of_halt {c : Processor} (halt : c.inputs.active.halt = true) : c.wake? = none := by
  unfold wake?
  split
  · exact if_pos halt
  · rfl

/-- With a bus cycle at the head there is nothing to do before it. -/
theorem prepare_of_cycle {c : Processor} {cycle : BusCycle} {rest : List MicroOp}
    (h : c.schedule.Consistent) (pending : c.schedule.pending = .cycle cycle :: rest) :
    c.prepare = { state := c } := by
  have settled := settle_of_rest (move?_of_cycle h pending)
  simp only [prepare, settled, wake?_of_pending h pending]

/-- A preparation settles, and may wake. -/
theorem prepare_cases (c : Processor) :
    c.settle.state.wake? = none ∧ c.prepare = c.settle ∨
      ∃ m, c.settle.state.wake? = some m ∧
        c.prepare = { state := m.landed, reports := c.settle.reports ++ m.reports } := by
  unfold prepare
  cases wake : c.settle.state.wake? with
  | none => exact Or.inl ⟨rfl, by simp only [wake]⟩
  | some m => exact Or.inr ⟨m, rfl, by simp only [wake]⟩

/-- With nothing to do and nothing to wake for there is nothing, either. -/
theorem prepare_of_rest {c : Processor} (still : c.move? = none) (asleep : c.wake? = none) :
    c.prepare = { state := c } := by
  have settled := settle_of_rest still
  simp only [prepare, settled, asleep]

/-- Outside of a CWAI wait there is nothing to wake from. -/
theorem wake?_of_phase {c : Processor} (other : c.phase ≠ .cwaiWait) : c.wake? = none := by
  unfold wake?
  split
  · next _ phase => exact absurd phase other
  · rfl

/-- A processor with a move makes it, and prepares from there. -/
theorem prepare_of_move {c : Processor} {m : Move} (h : c.schedule.Consistent)
    (due : c.move? = some m) :
    c.prepare = { state := m.landed.prepare.state
                  reports := m.reports ++ m.landed.prepare.reports } := by
  have settled := settle_of_move h due
  cases wake : m.landed.settle.state.wake? with
  | none => simp only [prepare, settled, wake]
  | some woken => simp only [prepare, settled, wake, List.append_assoc]

/-- Serving an interrupt schedules the vector fetch, and does no other scheduling. -/
theorem serve?_eq_some {c : Processor} {m : Move} (served : c.serve? = some m) :
    m.next.schedule = c.schedule ∧ m.next.instruction = c.instruction ∧
      m.queued = .cycle .dummy :: vectorFetch := by
  unfold serve? at served
  cases recognised : HardwareInterrupt.recognised c.inputs.active c.regs.cc with
  | none =>
    rw [recognised] at served
    cases served
  | some interrupt =>
    rw [recognised] at served
    cases served
    cases interrupt <;> exact ⟨rfl, rfl, rfl⟩

theorem consistent_prepare {c : Processor} (h : c.schedule.Consistent) :
    c.prepare.state.schedule.Consistent := by
  have settled := consistent_settle h
  rcases prepare_cases c with ⟨_, same⟩ | ⟨m, wake, woken⟩
  · rw [same]
    exact settled
  · obtain ⟨_, _, _, served⟩ := wake?_eq_some wake
    rw [woken]
    apply Schedule.Consistent.extend
    rw [(serve?_eq_some served).1]
    exact settled

theorem pending_eq_nil_of_current {c : Processor} (h : c.schedule.Consistent)
    (current : c.schedule.current = none) : c.schedule.pending = [] := by
  rw [Schedule.current_eq_head? h, List.head?_eq_none_iff] at current
  exact current

/-- Once an interrupt is served, the vector fetch is pending. -/
theorem pending_of_served {c : Processor} {m : Move} (h : c.schedule.Consistent)
    (dry : c.schedule.pending = []) (served : c.serve? = some m) :
    m.landed.schedule.pending = .cycle .dummy :: vectorFetch := by
  obtain ⟨schedule, _, queued⟩ := serve?_eq_some served
  rw [Move.schedule_landed, schedule, queued]
  exact Schedule.pending_extend_of_dry h dry _ (by decide)

/-- A prepared processor is settled, or it was woken and is about to fetch a vector. -/
theorem prepared {c : Processor} (h : c.schedule.Consistent) :
    c.settle.state.wake? = none ∧ c.prepare = c.settle ∨
      c.prepare.state.schedule.pending = .cycle .dummy :: vectorFetch := by
  rcases prepare_cases c with asleep | ⟨m, wake, woken⟩
  · exact Or.inl asleep
  · obtain ⟨current, _, _, served⟩ := wake?_eq_some wake
    have settled := consistent_settle h
    refine Or.inr ?_
    rw [woken]
    exact pending_of_served settled (pending_eq_nil_of_current settled current) served

/-- A prepared processor has no move left. -/
theorem move?_prepare {c : Processor} (h : c.schedule.Consistent) :
    c.prepare.state.move? = none := by
  rcases prepared h with ⟨_, same⟩ | pending
  · rw [same]
    exact move?_settle h
  · exact move?_of_cycle (consistent_prepare h) pending

/-- Nor anything to wake from. -/
theorem wake?_prepare {c : Processor} (h : c.schedule.Consistent) :
    c.prepare.state.wake? = none := by
  rcases prepared h with ⟨asleep, same⟩ | pending
  · rw [same]
    exact asleep
  · exact wake?_of_pending (consistent_prepare h) pending

/-- A prepared processor stays as it is. -/
theorem prepare_prepare {c : Processor} (h : c.schedule.Consistent) :
    c.prepare.state.prepare = { state := c.prepare.state } :=
  prepare_of_rest (move?_prepare h) (wake?_prepare h)

/-- A processor idles because nothing is pending. -/
theorem pending_of_idle {c : Processor} (h : c.schedule.Consistent) (still : c.move? = none)
    (idle : c.due? = none) : c.schedule.pending = [] := by
  cases pending : c.schedule.pending with
  | nil => rfl
  | cons op rest =>
    cases op with
    | cycle cycle =>
      rw [due?_of_cycle h pending] at idle
      cases idle
    | action action =>
      rw [move?_of_action h pending] at still
      cases still

/-- What a byte does leaves the schedule to what it queues. -/
@[simp] theorem schedule_absorb (c : Processor) (byte : Byte) (cycle : BusCycle) :
    (c.absorb byte cycle).next.schedule = c.schedule := by
  rw [absorb_eq]

theorem consistent_carryOut {c : Processor} (h : c.schedule.Consistent) (cycle : BusCycle)
    (byte : Byte) : (c.carryOut cycle byte).schedule.Consistent := by
  apply Schedule.Consistent.extend
  rw [schedule_absorb]
  exact h.advance

@[simp] theorem schedule_idled (c : Processor) : c.idled.state.schedule = c.schedule := by
  rw [idled_eq]

@[simp] theorem schedule_announce (c : Processor) : c.announce.schedule = c.schedule := by
  rw [announce_eq]

end Processor

end Sim6809
