/-
One clock is one bus access.

The dispatcher may go through many turns in a clock, and it could make a second access,
miss one, or never come to one. That it comes to an end, and that its outcome is the one
of `Board.clock`, is `Dispatcher.tick_eq_clock`. That there is one access among its turns
is an account kept by the flag: as long as it is down the tick owes an access, a turn that
makes one raises it, and no turn ends the tick with a debt unless it is held
(`Dispatcher.accounted_turn`, `Dispatcher.balanced_loop`).

For a clock the same follows from `settle`: its moves end (`movesTo_settle`), make no
access, and do not count, and the one access of a clock stands between two such chains. So
a clock is balanced (`balanced_clock`): what it adds to the count is what it adds to the
bus. A run is balanced because its clocks are.

A clock that is held makes no access. It leaves registers, inputs and page alone as
well, unless the state is one that no run leads to: with an action in front of the
opcode fetch, that action would have been done. That is where `Resting` comes in.
-/
import Sim6809.Memory
import Sim6809.Proofs.Dispatching
import Sim6809.Proofs.Order

set_option autoImplicit false

namespace Sim6809

namespace Processor

/-! ## Who counts -/

theorem cycles_move {c : Processor} {m : Move} (due : c.move? = some m) :
    m.landed.cycles = c.cycles := by
  change m.next.cycles = c.cycles
  unfold move? at due
  split at due
  · cases due
  · cases due
    rw [act_eq]
  · rw [phaseMove?_eq due]

theorem cycles_settle (c : Processor) : c.settle.state.cycles = c.cycles :=
  settle_preserves (P := fun d => d.cycles = c.cycles)
    (fun same due => (cycles_move due).trans same) rfl

theorem cycles_wake {c : Processor} {m : Move} (due : c.wake? = some m) :
    m.landed.cycles = c.cycles := by
  obtain ⟨_, _, _, served⟩ := wake?_eq_some due
  change m.next.cycles = c.cycles
  rw [serve?_eq served]

theorem cycles_ready (c : Processor) : c.ready.cycles = c.cycles := by
  rw [ready, announce_eq]
  change c.prepare.state.cycles = c.cycles
  rcases prepare_cases c with ⟨_, same⟩ | ⟨m, wake, woken⟩
  · rw [same]
    exact cycles_settle c
  · rw [woken]
    exact (cycles_wake wake).trans (cycles_settle c)

theorem cycles_carryOut (c : Processor) (cycle : BusCycle) (byte : Byte) :
    (c.carryOut cycle byte).cycles = c.cycles.next := by
  change (Processor.absorb _ byte cycle).next.cycles = c.cycles.next
  rw [absorb_eq]
  rfl

theorem cycles_complete (c : Processor) (byte : Byte) :
    (c.complete byte).state.cycles = c.cycles.next := by
  unfold complete
  split
  · rw [cycles_settle, cycles_carryOut]
  · rw [idled_eq]

/-! ## What a held clock leaves alone

A hold comes before an opcode fetch. From a resting processor only the phases between
two instructions lead to one, and they write nothing. -/

/-- Registers, inputs and page are those of `c`. -/
structure SameOutside (c d : Processor) : Prop where
  regs : d.regs = c.regs
  inputs : d.inputs = c.inputs
  page : d.page = c.page

/-- An opcode fetch comes next, or one of the phases that lead to it. -/
def Fetching (c : Processor) : Prop :=
  c.schedule.pending.head? = some (.cycle .fetchOpcode) ∨
    c.schedule.pending = [] ∧
      (c.phase = .execution ∨ c.phase = .boundary ∨ c.phase = .arbitration)

/-- A phase goes on with nothing pending but what it queues. -/
theorem dry_phaseMove {c : Processor} {m : Move} (dry : c.schedule.pending = [])
    (due : c.phaseMove? = some m) : m.next.schedule.pending = [] := by
  rcases (phaseMove_progress due).1 with same | cleared
  · rw [same, dry]
  · rw [cleared, Schedule.pending_clear]

theorem pending_phaseMove {c : Processor} {m : Move} (h : Orderly c)
    (dry : c.schedule.pending = []) (due : c.phaseMove? = some m) :
    m.landed.schedule.pending = m.queued := by
  rw [(orderly_phaseMove h dry due).pending_landed, dry_phaseMove dry due, List.nil_append]

/-- No phase leaves an action waiting. -/
theorem resting_phaseMove {c : Processor} {m : Move} (h : Orderly c)
    (dry : c.schedule.pending = []) (due : c.phaseMove? = some m) : Resting m.landed := by
  intro op current
  have consistent := (orderly_phaseMove h dry due).landed.consistent
  rw [Schedule.current_eq_head? consistent, pending_phaseMove h dry due] at current
  rcases (phaseMove_progress due).2 with ⟨quiet, _⟩ | ⟨_, cycle, rest, queued⟩
  · rw [quiet] at current
    cases current
  · rw [queued] at current
    cases current
    rfl

/-- A phase that leads to an opcode fetch is one of the three, and writes nothing. -/
theorem fetching_of_landed {c : Processor} {m : Move} (h : Orderly c)
    (dry : c.schedule.pending = []) (due : c.phaseMove? = some m) (fetching : Fetching m.landed) :
    Fetching c ∧ SameOutside c m.landed := by
  rw [Fetching, pending_phaseMove h dry due] at fetching
  unfold phaseMove? at due
  split at due
  -- reset
  · cases due
    rcases fetching with head | ⟨_, phase | phase | phase⟩
    · cases head
    all_goals cases phase
  -- resetHold
  · split at due
    · cases due
    · cases due
      rcases fetching with head | ⟨empty, _⟩
      · cases head
      · cases empty
  -- boundary
  · next phase =>
    split at due
    · cases due
    · cases due
      exact ⟨.inr ⟨dry, .inr (.inl phase)⟩, ⟨rfl, rfl, rfl⟩⟩
  -- arbitration
  · next phase =>
    split at due
    · cases due
      rcases fetching with head | ⟨empty, _⟩
      · cases head
      · cases empty
    · cases due
      exact ⟨.inr ⟨dry, .inr (.inr phase)⟩, ⟨rfl, rfl, rfl⟩⟩
  -- execution
  · next phase =>
    cases due
    exact ⟨.inr ⟨dry, .inl phase⟩, ⟨rfl, rfl, rfl⟩⟩
  -- dispatch
  · cases served : c.serve? with
    | some m' =>
      rw [served] at due
      cases due
      obtain ⟨_, _, queued⟩ := serve?_eq_some served
      rw [Option.getD_some, queued] at fetching
      rcases fetching with head | ⟨empty, _⟩
      · cases head
      · cases empty
    | none =>
      rw [served] at due
      cases due
      rcases fetching with head | ⟨_, phase | phase | phase⟩
      · cases head
      all_goals cases phase
  -- the waits and the lock make no move
  all_goals cases due

theorem sameOutside_settle {c : Processor} (h : Orderly c) (resting : Resting c)
    (fetching : Fetching c.settle.state) : SameOutside c c.settle.state := by
  -- Along the chain of moves no action is left, and should a fetch come next then
  -- nothing was written so far.
  have along : Orderly c.settle.state ∧ Resting c.settle.state ∧
      (Fetching c.settle.state → SameOutside c c.settle.state) := by
    refine settle_preserves (P := fun d => Orderly d ∧ Resting d ∧
      (Fetching d → SameOutside c d)) ?_ ⟨h, resting, fun _ => ⟨rfl, rfl, rfl⟩⟩
    rintro d m ⟨orderly, resting, same⟩ due
    rcases move?_cases orderly.consistent due with ⟨action, rest, pending, _⟩ | ⟨dry, phase⟩
    · have current : d.schedule.current = some (.action action) := by
        rw [Schedule.current_eq_head? orderly.consistent, pending, List.head?_cons]
      have usesBus := resting _ current
      cases usesBus
    · refine ⟨(orderly_move orderly due).landed, resting_phaseMove orderly dry phase, ?_⟩
      intro fetching
      obtain ⟨before, step⟩ := fetching_of_landed orderly dry phase fetching
      have earlier := same before
      exact ⟨step.regs.trans earlier.regs, step.inputs.trans earlier.inputs,
        step.page.trans earlier.page⟩
  exact along.2.2 fetching

/-- Whoever fetches an opcode next has written nothing on the way there. -/
theorem sameOutside_of_fetch {c : Processor} (h : Orderly c) (resting : Resting c)
    (due : c.prepare.state.due? = some .fetchOpcode) : SameOutside c c.ready := by
  have prepared : SameOutside c c.prepare.state := by
    rcases prepare_cases c with ⟨_, same⟩ | ⟨m, wake, woken⟩
    · rw [same] at due ⊢
      obtain ⟨rest, pending⟩ := (due?_eq_some_iff (consistent_settle h.consistent)).1 due
      refine sameOutside_settle h resting (.inl ?_)
      rw [pending, List.head?_cons]
    · -- Waking leads to a vector, and not to a fetch.
      obtain ⟨current, _, _, served⟩ := wake?_eq_some wake
      obtain ⟨schedule, _, queued⟩ := serve?_eq_some served
      have settled := consistent_settle h.consistent
      have pending : m.landed.schedule.pending = .cycle .dummy :: vectorFetch := by
        rw [(orderly_wake (orderly_settle h) wake).pending_landed, schedule, queued,
          pending_eq_nil_of_current settled current, List.nil_append]
      rw [woken] at due
      have consistent := consistent_prepare h.consistent
      rw [woken] at consistent
      rw [due?_of_cycle consistent pending] at due
      cases due
  refine ⟨?_, ?_, ?_⟩
  all_goals rw [ready, announce_eq]
  · exact prepared.regs
  · exact prepared.inputs
  · exact prepared.page

/-- Who asks is about to fetch. -/
theorem sameOutside_of_asksFirst {c : Processor} (h : Orderly c) (resting : Resting c)
    (asks : c.prepare.state.asksFirst = true) : SameOutside c c.ready := by
  refine sameOutside_of_fetch h resting ?_
  simp only [asksFirst, Bool.and_eq_true, beq_iff_eq] at asks
  exact asks.1.1

/-! ## The moves of a clock end -/

/-- The moves on both sides of the access come to an end, after 35 turns at most: the
slots of a schedule, and three phases. -/
structure Halts (c : Processor) : Prop where
  before : ∃ n ≤ 35, MovesTo n c c.settle.state
  prepared : c.ready.move? = none
  after : ∀ cycle byte, c.ready.due? = some cycle →
    ∃ n ≤ 35, MovesTo n (c.ready.carryOut cycle byte) (c.ready.complete byte).state
  completed : ∀ cycle byte, c.ready.due? = some cycle →
    (c.ready.complete byte).state.move? = none

/-- An announcement comes before a fetch, and so makes no move due. -/
theorem move?_announce {c : Processor} (still : c.move? = none) : c.announce.move? = none := by
  rw [announce]
  split
  · next asks =>
    simp only [asksFirst, Bool.and_eq_true, beq_iff_eq, due?] at asks
    have fetch := asks.1.1
    split at fetch
    · next cycle current => rw [move?, current]
    · cases fetch
  · exact still

theorem halts {c : Processor} (h : c.schedule.Consistent) : c.Halts := by
  have short : ∀ {d : Processor}, d.schedule.Consistent → ∃ n ≤ 35, MovesTo n d d.settle.state := by
    intro d consistent
    have remaining := Schedule.remaining_le consistent
    obtain ⟨n, bound, chain⟩ := movesTo_settle d
    exact ⟨n, by omega, chain⟩
  have complete : ∀ {cycle : BusCycle} (byte : Byte), c.ready.due? = some cycle →
      (c.ready.complete byte).state = (c.ready.carryOut cycle byte).settle.state := by
    intro cycle byte due
    rw [Processor.complete, due]
  have carried := fun cycle byte => consistent_carryOut (consistent_ready h) cycle byte
  refine ⟨short h, ?_, ?_, ?_⟩
  · exact move?_announce (move?_prepare h)
  · intro cycle byte due
    rw [complete byte due]
    exact short (carried cycle byte)
  · intro cycle byte due
    rw [complete byte due]
    exact move?_settle (carried cycle byte)

end Processor

/-- The accesses of a clock that ended so. -/
def Tick.accesses : Tick → Nat
  | cycle => 1
  | held => 0

theorem Tick.accesses_le_one (ended : Tick) : ended.accesses ≤ 1 := by
  cases ended <;> decide

namespace Board

variable {β σ : Type}

/-! ## One clock -/

/-- One access and one cycle, or a hold and neither. The byte of the access is all
that the processor learns from the bus. -/
def OneAccess [Bus β] (before : Board β σ) : Tick × Board β σ → Prop
  | (.cycle, after) => ∃ access : Access,
      after.bus = (access.perform before.bus).2 ∧
        after.cpu = (before.cpu.ready.complete (access.perform before.bus).1).state ∧
        after.cpu.cycles = before.cpu.cycles.next
  | (.held, after) => after.bus = before.bus ∧ after.cpu.cycles = before.cpu.cycles

theorem oneAccess_clock [Bus β] (m : Monitor σ) (b : Board β σ) : OneAccess b (clock m b) := by
  rcases clock_cases m b with ⟨_, notes, outcome⟩ | ⟨notes, outcome⟩
  · rw [outcome]
    exact ⟨rfl, Processor.cycles_ready b.cpu⟩
  · rw [outcome]
    refine ⟨b.cpu.ready.access, rfl, rfl, ?_⟩
    exact (Processor.cycles_complete _ _).trans
      (congrArg CycleCount.next (Processor.cycles_ready b.cpu))

/-- Before a hold nothing that shows from outside was written. -/
theorem sameOutside_of_held [Bus β] (m : Monitor σ) (b : Board β σ) (orderly : Orderly b.cpu)
    (resting : Resting b.cpu) (held : (clock m b).1 = .held) :
    b.cpu.SameOutside (clock m b).2.cpu := by
  rcases clock_cases m b with ⟨asks, notes, outcome⟩ | ⟨notes, outcome⟩
  · rw [outcome]
    exact Processor.sameOutside_of_asksFirst orderly resting asks
  · rw [outcome] at held
    cases held

/-! ## Runs -/

/-- So many accesses were made, and so many cycles counted. -/
structure Balanced (k : Nat) (before after : Board (Recorded β) σ) : Prop where
  accesses : after.bus.transfers.size = before.bus.transfers.size + k
  counted : after.cpu.cycles.count = before.cpu.cycles.count + UInt64.ofNat k

theorem Balanced.refl (b : Board (Recorded β) σ) : Balanced 0 b b where
  accesses := rfl
  counted := (UInt64.add_zero _).symm

/-- What is no access changes nothing about the balance. -/
theorem Balanced.still {k : Nat} {b c d : Board (Recorded β) σ} (h : Balanced k b c)
    (bus : d.bus = c.bus) (cycles : d.cpu.cycles = c.cpu.cycles) : Balanced k b d where
  accesses := by rw [bus, h.accesses]
  counted := by rw [cycles, h.counted]

theorem Balanced.trans {j k : Nat} {b c d : Board (Recorded β) σ} (first : Balanced j b c)
    (second : Balanced k c d) : Balanced (j + k) b d where
  accesses := by
    rw [second.accesses, first.accesses, Nat.add_assoc]
  counted := by
    rw [second.counted, first.counted, UInt64.add_assoc, UInt64.ofNat_add]

/-- A clock with a bus cycle is one access, and a held one is none. -/
theorem balanced_clock [Bus β] (m : Monitor σ) (b : Board (Recorded β) σ) :
    Balanced (clock m b).1.accesses b (clock m b).2 := by
  have once := oneAccess_clock m b
  cases outcome : clock m b with
  | mk ended after =>
    rw [outcome] at once
    cases ended with
    | cycle =>
      obtain ⟨access, bus, _, counted⟩ := once
      refine ⟨?_, ?_⟩
      · rw [bus, Recorded.perform, Array.size_push]
        rfl
      · rw [counted]
        rfl
    | held =>
      obtain ⟨bus, counted⟩ := once
      refine ⟨?_, ?_⟩
      · rw [bus]
        rfl
      · rw [counted]
        exact (UInt64.add_zero _).symm

end Board

/-! ## The account of the dispatcher

The loop carries no count of its accesses, only the flag. Turn by turn it is the flag that
accounts for them: as long as it is down, the tick owes an access, and a turn that makes one
raises it. -/

namespace Dispatcher

open Board (Balanced)

variable {β σ : Type} [Bus β] {m : Monitor σ} {b : Board (Recorded β) σ}

/-- The accesses that a tick has still to make. -/
def owed (cycled : Bool) : Nat := if cycled then 0 else 1

/-- A turn makes what is not owed any more afterwards, and ends the tick when nothing is owed,
unless it is held. -/
inductive Accounted (cycled : Bool) (b : Board (Recorded β) σ) : Turn (Recorded β) σ → Prop
  | again {k : Nat} {cycled' : Bool} {after : Board (Recorded β) σ} (made : Balanced k b after)
      (account : owed cycled = k + owed cycled') : Accounted cycled b (.again cycled' after)
  | cycle {after : Board (Recorded β) σ} (made : Balanced (owed cycled) b after) :
      Accounted cycled b (.finished .cycle after)
  | held {after : Board (Recorded β) σ} (down : cycled = false) (made : Balanced 0 b after) :
      Accounted cycled b (.finished .held after)

omit [Bus β] in
/-- With the flag up there is nothing to make. -/
theorem Accounted.rest {cycled : Bool} (up : cycled = true) :
    Accounted cycled b (.finished .cycle b) := by
  rw [up]
  exact .cycle (.refl b)

omit [Bus β] in
/-- With the flag down one access ends the tick. -/
theorem Accounted.wait {cycled : Bool} {after : Board (Recorded β) σ} (down : ¬cycled = true)
    (made : Balanced 1 b after) : Accounted cycled b (.finished .cycle after) := by
  rw [Bool.not_eq_true] at down
  rw [down]
  exact .cycle made

theorem balanced_transfer (access : Access) (b : Board (Recorded β) σ) :
    Balanced 1 b (transfer access b).2 := by
  refine ⟨?_, rfl⟩
  change (access.perform b.bus).2.transfers.size = _
  rw [Recorded.perform, Array.size_push]

theorem balanced_carry (cycle : BusCycle) : Balanced 1 b (carry m cycle b) := by
  have access := balanced_transfer (cycle.access b.cpu) b
  unfold carry
  dsimp only
  refine access.still ?_ ?_
  · split <;> rfl
  · change (Processor.absorb _ _ cycle).next.cycles = _
    rw [Processor.absorb_eq]
    split <;> rfl

/-- What performing a step makes: an action nothing, and any other step an access, unless it is
held. -/
inductive Performs (op : MicroOp) (b : Board (Recorded β) σ) :
    Performed × Board (Recorded β) σ → Prop
  | cycle {after : Board (Recorded β) σ} (uses : op.usesBus = true) (made : Balanced 1 b after) :
      Performs op b (.cycle, after)
  | internal {after : Board (Recorded β) σ} (free : op.usesBus = false)
      (made : Balanced 0 b after) : Performs op b (.internal, after)
  | held {after : Board (Recorded β) σ} (uses : op.usesBus = true) (made : Balanced 0 b after) :
      Performs op b (.held, after)

theorem performs_perform (op : MicroOp) : Performs op b (perform m op b) := by
  cases op with
  | action action =>
    refine .internal rfl ((Balanced.refl b).still rfl ?_)
    change (b.cpu.act action).next.cycles = _
    rw [Processor.act_eq]
  | cycle cycle =>
    cases cycle with
    | fetchOpcode =>
      unfold perform fetchOpcode
      dsimp only
      split
      · split
        · exact .held rfl ((Balanced.refl b).still rfl rfl)
        · next notes _ =>
          have announced : Balanced 0 b
              ⟨{ b.cpu with announced := true }, b.bus, notes⟩ := (Balanced.refl b).still rfl rfl
          exact .cycle rfl (announced.trans (balanced_carry _))
      · exact .cycle rfl (balanced_carry _)
    | _ => exact .cycle rfl (balanced_carry _)

theorem accounted_stepTurn (cycled : Bool) (op : MicroOp) :
    Accounted cycled b (stepTurn m cycled op b) := by
  unfold stepTurn
  split
  · next both =>
    simp only [Bool.and_eq_true] at both
    exact .rest both.1
  · next on =>
    -- Moving past the step is no access.
    generalize advanced : { b with cpu := { b.cpu with schedule := b.cpu.schedule.advance } } = c
    have past : Balanced 0 b c := by
      rw [← advanced]
      exact (Balanced.refl b).still rfl rfl
    have performed := performs_perform (m := m) (b := c) op
    generalize perform m op c = outcome at performed ⊢
    cases performed with
    | cycle uses made =>
      have down : cycled = false := by simpa [uses] using on
      rw [down]
      exact .again (past.trans made) rfl
    | internal free made => exact .again (past.trans made) (Nat.zero_add _).symm
    | held uses made =>
      have down : cycled = false := by simpa [uses] using on
      exact .held down ((past.trans made).still rfl rfl)

omit [Bus β] in
/-- A move is no access, whatever the phase that makes it. -/
theorem Accounted.move {cycled : Bool} {move : Move} (quiet : move.next.cycles = b.cpu.cycles) :
    Accounted cycled b (.again cycled (make m move b)) :=
  .again ((Balanced.refl b).still rfl quiet) (Nat.zero_add _).symm

theorem balanced_idle : Balanced 1 b (idle b) := balanced_transfer _ b

/-- A cycle spent waiting is what is owed. -/
theorem balanced_idleCycle (cycled : Bool) : Balanced (owed cycled) b (idleCycle cycled b) := by
  cases cycled with
  | true => exact .refl b
  | false => exact balanced_idle

theorem accounted_phaseTurn (cycled : Bool) : Accounted cycled b (phaseTurn m cycled b) := by
  have served : ∀ {move : Move}, b.cpu.serve? = some move → move.next.cycles = b.cpu.cycles := by
    intro move served
    rw [Processor.serve?_eq served]
  unfold phaseTurn
  dsimp only
  split
  -- reset
  · exact .move rfl
  -- resetHold
  · split
    · exact .cycle (balanced_idleCycle _)
    · exact .move rfl
  -- boundary
  · split
    · exact .cycle (balanced_idleCycle _)
    · exact .move rfl
  -- arbitration
  · split <;> exact .move rfl
  -- execution
  · exact .move rfl
  -- dispatch
  · split
    · next move serves => exact .move (served serves)
    · exact .move rfl
  -- cwaiWait
  · split
    · next up => exact .rest up
    · next down =>
      split
      · next move wakes =>
        split at wakes
        · cases wakes
        · exact .move (served wakes)
      · exact .wait down balanced_idle
  -- syncWait
  · split
    · next up => exact .rest up
    · next down =>
      split
      · exact .wait down (balanced_idle.still rfl rfl)
      · split
        · exact .wait down (balanced_idle.still rfl rfl)
        · exact .wait down balanced_idle
  -- syncHold
  · split
    · next up => exact .rest up
    · next down =>
      split
      · exact .wait down balanced_idle
      · exact .wait down (balanced_idle.still rfl rfl)
  -- locked
  · exact .cycle (balanced_idleCycle _)

theorem accounted_turn (cycled : Bool) : Accounted cycled b (turn m cycled b) := by
  unfold turn
  split
  · exact accounted_stepTurn _ _
  · exact accounted_phaseTurn _

/-- Over the whole loop the debt is paid, or the tick is held with nothing paid at all. -/
theorem balanced_loop {limit : Nat} {cycled : Bool} {ended : Tick} {after : Board (Recorded β) σ}
    (outcome : loop m limit cycled b = some (ended, after)) :
    (ended = .cycle → Balanced (owed cycled) b after) ∧
      (ended = .held → cycled = false ∧ Balanced 0 b after) := by
  induction limit generalizing cycled b with
  | zero => cases outcome
  | succ limit ih =>
    have account := accounted_turn (m := m) (b := b) cycled
    rw [loop] at outcome
    cases turned : turn m cycled b with
    | finished ended' after' =>
      rw [turned] at account outcome
      cases outcome
      cases account with
      | cycle made => exact ⟨fun _ => made, by rintro ⟨⟩⟩
      | held down made => exact ⟨by rintro ⟨⟩, fun _ => ⟨down, made⟩⟩
    | again cycled' after' =>
      rw [turned] at account outcome
      obtain ⟨paid, held⟩ := ih outcome
      cases account with
      | @again k _ _ made account =>
        refine ⟨fun cycle => ?_, fun hold => ?_⟩
        · rw [account]
          exact made.trans (paid cycle)
        · -- Nothing was paid before a hold, since the flag was still down.
          obtain ⟨down, rest⟩ := held hold
          rw [down] at account
          cases cycled with
          | true => cases account
          | false =>
            obtain rfl : k = 0 := Nat.add_right_cancel (account.symm.trans (Nat.zero_add 1).symm)
            exact ⟨rfl, made.trans rest⟩

/-- A tick makes one access, or none if it is held. -/
theorem balanced_tick {limit : Nat} {outcome : Tick × Board (Recorded β) σ}
    (ended : tick m limit b = some outcome) : Balanced outcome.1.accesses b outcome.2 := by
  obtain ⟨ended', after⟩ := outcome
  obtain ⟨made, held⟩ := balanced_loop ended
  cases ended' with
  | cycle => exact made rfl
  | held => exact (held rfl).2

end Dispatcher

namespace Board

variable {β σ : Type}

/-- A run is balanced, however its inputs change. -/
theorem balanced_clocks [Bus β] (m : Monitor σ) (lines : List Levels) (b : Board (Recorded β) σ) :
    ∃ k ≤ lines.length, Balanced k b (clocks m lines b) := by
  induction lines generalizing b with
  | nil => exact ⟨0, Nat.le_refl 0, .refl b⟩
  | cons levels more ih =>
    obtain ⟨k, bound, rest⟩ := ih (tick m (b.withLevels levels))
    have driven : Balanced 0 b (b.withLevels levels) := ⟨rfl, (UInt64.add_zero _).symm⟩
    have first := driven.trans (balanced_clock m (b.withLevels levels))
    refine ⟨_, ?_, first.trans rest⟩
    have atMost := Tick.accesses_le_one (clock m (b.withLevels levels)).1
    rw [List.length_cons]
    omega

theorem runOn_zero [Bus β] (m : Monitor σ) (done : Nat) (b : Board β σ) :
    runOn m done 0 b = (⟨done, .budget⟩, b) := (rfl)

-- The parentheses keep this from becoming a rewrite rule by definition, for which
-- the clock would be unfolded.
theorem runOn_succ [Bus β] (m : Monitor σ) (done budget : Nat) (b : Board β σ) :
    runOn m done (budget + 1) b =
      match clock m b with
      | (.held, b) => (⟨done, .breakpoint⟩, b)
      | (.cycle, b) => runOn m (done + 1) budget b := (rfl)

/-- A run with a budget counts its accesses, and stops at the budget or before. -/
theorem balanced_runOn [Bus β] (m : Monitor σ) (done budget : Nat) (b : Board (Recorded β) σ) :
    ∃ k, (runOn m done budget b).1.cycles = done + k ∧ Balanced k b (runOn m done budget b).2 ∧
      ((runOn m done budget b).1.stop = .budget → k = budget) := by
  induction budget generalizing done b with
  | zero =>
    rw [runOn_zero]
    exact ⟨0, rfl, Balanced.refl b, fun _ => rfl⟩
  | succ budget ih =>
    have first := balanced_clock m b
    rw [runOn_succ]
    cases outcome : clock m b with
    | mk ended after =>
      rw [outcome] at first
      cases ended with
      | held =>
        refine ⟨0, rfl, first, ?_⟩
        intro budgeted
        cases budgeted
      | cycle =>
        obtain ⟨k, cycles, rest, stopped⟩ := ih (done + 1) after
        refine ⟨k + 1, ?_, ?_, ?_⟩
        · rw [cycles]
          omega
        · rw [Nat.add_comm k 1]
          exact Balanced.trans first rest
        · intro budgeted
          rw [stopped budgeted]

end Board

/-- **One clock is one bus access.** Every processor that runs or restored states lead to has a
consistent schedule, and from a consistent schedule the loop of the dispatcher ends, in one way
whatever its limit: with one access and one cycle counted, or held and with neither. A clock comes
to the same. On a recorded bus, where accesses can be counted, the loop makes no other number of
them from any state at all. This adds up: over any run the count of cycles grows by the number of
accesses, and a run that uses up its budget makes just as many. -/
theorem one_access_per_clock :
    (∀ c : Processor, (Reachable anyCall c ∨ ∃ saved : Processor, saved.restore = .ok c) →
        c.schedule.Consistent) ∧
      (∀ {β σ : Type} [Bus β] (m : Monitor σ) (b : Board β σ), b.cpu.schedule.Consistent →
        b.cpu.Halts ∧
          ∃ outcome,
            (∀ limit, Dispatcher.turnLimit ≤ limit → Dispatcher.tick m limit b = some outcome) ∧
            (∀ limit other, Dispatcher.tick m limit b = some other → other = outcome) ∧
            Board.clock m b = outcome ∧ Board.OneAccess b outcome ∧
            (Reachable anyCall b.cpu → outcome.1 = .held → b.cpu.SameOutside outcome.2.cpu)) ∧
      ∀ {β σ : Type} [Bus β] (m : Monitor σ) (b : Board (Recorded β) σ),
        (∀ limit outcome, Dispatcher.tick m limit b = some outcome →
          Board.Balanced outcome.1.accesses b outcome.2) ∧
        (∀ lines, ∃ k ≤ lines.length, Board.Balanced k b (Board.clocks m lines b)) ∧
          ∀ budget, Board.Balanced (Board.run m budget b).1.cycles b (Board.run m budget b).2 ∧
            ((Board.run m budget b).1.stop = .budget →
              (Board.run m budget b).1.cycles = budget) := by
  refine ⟨?_, ?_, ?_⟩
  · rintro c (reachable | ⟨saved, accepted⟩)
    · exact reachable.consistent
    · obtain ⟨resumable, rfl⟩ := Processor.restore_eq_ok_iff.1 accepted
      exact resumable.1
  · intro β σ _ m b consistent
    refine ⟨Processor.halts consistent, Board.clock m b,
      fun limit enough => Dispatcher.tick_eq_clock consistent enough,
      fun limit other ended => Dispatcher.eq_clock_of_tick consistent ended, rfl,
      Board.oneAccess_clock m b, ?_⟩
    intro reachable held
    exact Board.sameOutside_of_held m b reachable.orderly reachable.resting held
  · intro β σ _ m b
    refine ⟨fun limit outcome ended => Dispatcher.balanced_tick ended,
      fun lines => Board.balanced_clocks m lines b, fun budget => ?_⟩
    obtain ⟨k, cycles, balanced, stopped⟩ := Board.balanced_runOn m 0 budget b
    rw [Nat.zero_add] at cycles
    refine ⟨?_, ?_⟩
    · rw [Board.run, cycles]
      exact balanced
    · intro budgeted
      rw [Board.run, cycles]
      exact stopped budgeted

/-- A NOP of which the opcode has been fetched. -/
def fetchedNop : Board (Recorded Ram) Unit :=
  Board.clocks .silent [.low] ⟨Processor.powerOn.setPc 0x1000, ⟨fun _ => 0x12, #[]⟩, ()⟩

/-- Right after a jump, a hook that holds, and one that is absent. And the last cycle of a NOP, for
which the loop takes five turns, and makes one access in them. -/
theorem one_access_per_clock_jump :
    (∃ (holding : Monitor Unit) (b : Board Memory Unit),
      Reachable anyCall b.cpu ∧
        (∃ after, Dispatcher.tick holding Dispatcher.turnLimit b = some (.held, after) ∧
          Board.OneAccess b (.held, after) ∧ b.cpu.SameOutside after.cpu) ∧
        ∃ after, Dispatcher.tick .silent Dispatcher.turnLimit b = some (.cycle, after) ∧
          Board.OneAccess b (.cycle, after) ∧ after.cpu.cycles.count = 1) ∧
    Dispatcher.tick .silent 4 fetchedNop = none ∧
      ∃ after, Dispatcher.tick .silent 5 fetchedNop = some (.cycle, after) ∧
        Board.clock .silent fetchedNop = (.cycle, after) ∧
        after.bus.transfers.size = fetchedNop.bus.transfers.size + 1 ∧
        after.cpu.atBoundary = true := by
  have reachable : Reachable anyCall (Processor.powerOn.setPc 0x1000) :=
    .call (.setPc 0x1000) trivial .powerOn
  have consistent := one_access_per_clock.1 _ (.inl reachable)
  let holding : Monitor Unit := ⟨{ Hooks.none with instruction := some fun _ _ => (.hold, ()) },
    fun _ _ => ()⟩
  let b : Board Memory Unit := ⟨Processor.powerOn.setPc 0x1000, .blank, ()⟩
  have held : (Board.clock holding b).1 = .held := by decide
  have cycle : (Board.clock .silent b).1 = .cycle := by decide
  refine ⟨⟨holding, b, reachable, ?_, ?_⟩, ?_, ?_⟩
  · obtain ⟨_, ⟨ended, after⟩, ends, _, clocked, once, same⟩ :=
      one_access_per_clock.2.1 holding b consistent
    rw [clocked] at held
    cases held
    exact ⟨after, ends _ (Nat.le_refl _), once, same reachable rfl⟩
  · obtain ⟨_, ⟨ended, after⟩, ends, _, clocked, once, _⟩ :=
      one_access_per_clock.2.1 .silent b consistent
    rw [clocked] at cycle
    cases cycle
    obtain ⟨_, _, _, counted⟩ := id once
    refine ⟨after, ends _ (Nat.le_refl _), once, ?_⟩
    rw [counted]
    rfl
  · exact Option.isNone_iff_eq_none.1 (by decide +kernel)
  · have some : (Dispatcher.tick .silent 5 fetchedNop).isSome = true := by decide +kernel
    obtain ⟨outcome, five⟩ := Option.isSome_iff_exists.1 some
    have reached : Reachable anyCall fetchedNop.cpu :=
      .clock .silent (Board.withLevels .low _) (.call (.drive .low) trivial reachable)
    obtain ⟨_, _, _, same, clocked, _⟩ :=
      one_access_per_clock.2.1 .silent fetchedNop (one_access_per_clock.1 _ (.inl reached))
    obtain rfl := same 5 outcome five
    have boundary : (Board.clock .silent fetchedNop).2.cpu.atBoundary = true := by decide +kernel
    have made := (one_access_per_clock.2.2 .silent fetchedNop).1 5 outcome five
    have cycle : outcome.1 = .cycle := by
      rw [← clocked]
      decide +kernel
    rw [clocked] at boundary
    obtain ⟨ended, after⟩ := outcome
    cases cycle
    exact ⟨after, five, clocked, made.accesses, boundary⟩

end Sim6809
