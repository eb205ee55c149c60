/-
What the status tells about the next clock.

`atBoundary` and `isHalted` read the phase and the schedule, while the next access is chosen
by the moves that come before it. Behind a scheduled cycle every move has been made, and what
the status reads is what comes. In two places it is not.

* An idle cycle makes no moves. If it is the last one that HALT or SYNC holds, the processor
  is left where the next opcode fetch, or an interrupt, is still to be decided
  (`Processor.Released`, `held_of_released`). `atBoundary` does not see that fetch coming.
* A vector fetch is pending in the phase in which HALT holds the processor. `isHalted` does
  not look at the schedule, and `isWaiting` does, so a processor can be halted and not
  waiting: it is not held before the vector is fetched.

Both statements are about every reachable processor, and go through the phases once, by what
`Staged` says is pending in each of them.
-/
import Sim6809.Proofs.Breakpoints
import Sim6809.Proofs.Halting
import Sim6809.Proofs.StepReturns

set_option autoImplicit false

namespace Sim6809

variable {allowed : HostCall → Prop} {c : Processor}

/-- A processor that executes has something left to do, whenever it is seen from outside. -/
theorem Reachable.executing (reachable : Reachable allowed c) (phase : c.phase = .execution) :
    c.schedule.pending ≠ [] := by
  have along : Orderly c ∧ (c.phase = .execution → c.schedule.pending ≠ []) := by
    refine reachable.preserves (P := fun c =>
      Orderly c ∧ (c.phase = .execution → c.schedule.pending ≠ []))
      ⟨Processor.orderly_powerOn, nofun⟩ ?_ ?_ ?_
    · rintro c ⟨orderly, _⟩
      have still := (Processor.still_ready orderly.consistent).1
      exact ⟨Processor.orderly_ready orderly,
        Processor.pending_ne_nil_of_execution (Processor.consistent_ready orderly.consistent) still⟩
    · rintro c byte ⟨orderly, _⟩
      have still := (Processor.still_ready orderly.consistent).1
      have ready := Processor.orderly_ready orderly
      exact ⟨Processor.orderly_complete ready byte,
        Processor.pending_complete ready.consistent still byte⟩
    · rintro c call _ ⟨orderly, executes⟩
      refine ⟨Processor.orderly_call orderly call, ?_⟩
      cases call with
      | drive levels | registers regs => exact executes
      | reset => exact nofun
      | setPc pc =>
        intro _
        rw [HostCall.apply, Processor.pending_setPc]
        exact nofun
  exact along.2 phase

namespace Processor

/-! ## The next fetch -/

/-- The access that comes next is the fetch of the first opcode byte of an instruction. -/
def FetchesNext (c : Processor) : Prop :=
  c.ready.due? = some .fetchOpcode ∧ c.ready.page = 0

/-- Nothing is pending, and the processor is about to decide between an interrupt and the next
instruction. -/
def Released (c : Processor) : Prop :=
  c.schedule.pending = [] ∧
    (c.phase = .arbitration ∨ c.phase = .boundary ∧ c.inputs.active.halt = false)

/-- A processor with a move is ready for what comes after it. -/
theorem ready_of_move {m : Move} (h : c.schedule.Consistent) (due : c.move? = some m) :
    c.ready = m.landed.ready := by
  rw [ready, prepare_of_move h due, ready]

theorem ready_of_cycle {cycle : BusCycle} {rest : List MicroOp} (h : c.schedule.Consistent)
    (pending : c.schedule.pending = .cycle cycle :: rest) : c.ready = c.announce := by
  rw [ready, prepare_of_cycle h pending]

theorem due?_ready_of_cycle {cycle : BusCycle} {rest : List MicroOp} (h : c.schedule.Consistent)
    (pending : c.schedule.pending = .cycle cycle :: rest) : c.ready.due? = some cycle := by
  rw [ready_of_cycle h pending, due?_announce, due?_of_cycle h pending]

/-- What moves stop at some other cycle fetches no opcode next. -/
theorem not_fetchesNext_of_move {m : Move} {cycle : BusCycle} {rest : List MicroOp}
    (h : c.schedule.Consistent) (due : c.move? = some m)
    (pending : m.landed.schedule.pending = .cycle cycle :: rest) (other : cycle ≠ .fetchOpcode) :
    ¬c.FetchesNext := by
  rintro ⟨fetch, _⟩
  rw [ready_of_move h due, due?_ready_of_cycle (consistent_landed h due) pending] at fetch
  exact other (Option.some.inj fetch)

/-- Nor does a processor that waits. At most it wakes, and that leads to a vector. -/
theorem not_fetchesNext_of_still (h : c.schedule.Consistent) (dry : c.schedule.pending = [])
    (still : c.move? = none) : ¬c.FetchesNext := by
  rintro ⟨fetch, _⟩
  rw [ready, due?_announce] at fetch
  obtain ⟨rest, pending⟩ := (due?_eq_some_iff (consistent_prepare h)).1 fetch
  rcases prepared h with ⟨_, same⟩ | served
  · rw [same, settle_of_rest still, dry] at pending
    cases pending
  · rw [served] at pending
    cases pending

theorem atBoundary_of_dry (h : c.schedule.Consistent) (dry : c.schedule.pending = []) :
    c.atBoundary = false := by
  simp [atBoundary, Schedule.current_eq_head? h, dry]

/-- With a cycle scheduled, `atBoundary` is right. -/
theorem fetchesNext_of_cycle {cycle : BusCycle} {rest : List MicroOp} (h : Staged c)
    (pending : c.schedule.pending = .cycle cycle :: rest) :
    c.FetchesNext ↔ c.atBoundary = true := by
  have consistent := h.orderly.consistent
  have due := due?_ready_of_cycle consistent pending
  have page : c.ready.page = c.page := by rw [ready_of_cycle consistent pending, announce_eq]
  rw [FetchesNext, due, page]
  constructor
  · rintro ⟨fetch, unselected⟩
    cases fetch
    have start := h.atOpcode (by rw [pending]; exact List.mem_cons_self)
    rw [unselected] at start
    exact start.atBoundary
  · intro boundary
    simp only [atBoundary, Bool.and_eq_true, beq_iff_eq, Schedule.current_eq_head? consistent,
      pending, List.head?_cons] at boundary
    cases boundary.2
    exact ⟨rfl, boundary.1.2⟩

/-! ## Phase by phase -/

/-- Where interrupts are arbitrated, an opcode is fetched if there is none. -/
theorem fetchesNext_of_arbitration (h : Staged c) (dry : c.schedule.pending = [])
    (phase : c.phase = .arbitration) : c.FetchesNext ↔
      HardwareInterrupt.recognised c.inputs.active c.regs.cc = none := by
  have consistent := h.orderly.consistent
  cases recognised : HardwareInterrupt.recognised c.inputs.active c.regs.cc with
  | some interrupt =>
    have due := move?_of_asked consistent dry phase recognised
    have landed := h.pending_landed_of_dry dry due
    exact iff_of_false (not_fetchesNext_of_move consistent due landed (by decide))
      (Option.some_ne_none _)
  | none =>
    refine iff_of_true ?_ rfl
    have due := move?_of_unasked consistent dry phase recognised
    have landed := h.pending_landed_of_dry dry due
    have next := consistent_landed consistent due
    refine ⟨?_, ?_⟩
    · rw [ready_of_move consistent due, due?_ready_of_cycle next landed]
    · rw [ready_of_move consistent due, ready_of_cycle next landed, announce_eq]
      exact h.selecting.resolve_right (by rw [dry]; exact nofun)

/-- HALT comes before that. -/
theorem fetchesNext_of_boundary (h : Staged c) (dry : c.schedule.pending = [])
    (phase : c.phase = .boundary) : c.FetchesNext ↔ c.inputs.active.halt = false ∧
      HardwareInterrupt.recognised c.inputs.active c.regs.cc = none := by
  have consistent := h.orderly.consistent
  cases halt : c.inputs.active.halt with
  | true =>
    have still : c.move? = none := by
      rw [move?_of_dry consistent dry, phaseMove?, phase]
      exact if_pos halt
    exact iff_of_false (not_fetchesNext_of_still consistent dry still) (by simp)
  | false =>
    have due := move?_of_boundary consistent dry phase halt
    have arbitrates := fetchesNext_of_arbitration (h.move due) dry rfl
    rw [FetchesNext, ← ready_of_move consistent due] at arbitrates
    exact arbitrates.trans (and_iff_right rfl).symm

/-- A reset fetches its vector first. -/
theorem not_fetchesNext_of_resetHold (h : Staged c) (dry : c.schedule.pending = [])
    (phase : c.phase = .resetHold) : ¬c.FetchesNext := by
  have consistent := h.orderly.consistent
  cases halt : c.inputs.active.halt with
  | true =>
    refine not_fetchesNext_of_still consistent dry ?_
    rw [move?_of_dry consistent dry, phaseMove?, phase]
    exact if_pos halt
  | false =>
    have due := move?_of_resetHold consistent dry phase halt
    have landed := h.pending_landed_of_dry dry due
    exact not_fetchesNext_of_move consistent due landed (by decide)

/-- After a frame a vector is fetched, or CWAI waits. -/
theorem not_fetchesNext_of_dispatch (h : Staged c) (dry : c.schedule.pending = [])
    (phase : c.phase = .dispatch) : ¬c.FetchesNext := by
  have consistent := h.orderly.consistent
  have due := move?_of_dispatch consistent dry phase
  cases served : c.serve? with
  | some m =>
    rw [served] at due
    exact not_fetchesNext_of_move consistent due
        (pending_of_served consistent dry served) (by decide)
  | none =>
    rw [served] at due
    rw [FetchesNext, ready_of_move consistent due]
    refine not_fetchesNext_of_still (consistent_landed consistent due) dry ?_
    exact (move?_of_dry (consistent_landed consistent due) dry).trans rfl

/-- With nothing pending, the next fetch comes out of a decision still to be made. -/
theorem fetchesNext_of_dry (h : Staged c) (dry : c.schedule.pending = [])
    (waits : c.phase ≠ .execution) : c.FetchesNext ↔
      c.Released ∧ HardwareInterrupt.recognised c.inputs.active c.regs.cc = none := by
  have consistent := h.orderly.consistent
  have never : ¬c.FetchesNext → ¬c.Released → (c.FetchesNext ↔
      c.Released ∧ HardwareInterrupt.recognised c.inputs.active c.regs.cc = none) :=
    fun other held => iff_of_false other fun both => held both.1
  have move := move?_of_dry consistent dry
  cases phase : c.phase with
  | execution => exact absurd phase waits
  | arbitration =>
    rw [fetchesNext_of_arbitration h dry phase]
    simp [Released, dry, phase]
  | boundary =>
    rw [fetchesNext_of_boundary h dry phase]
    simp [Released, dry, phase]
  | reset =>
    refine never ?_ (by simp [Released, phase])
    rw [phaseMove?, phase] at move
    rw [FetchesNext, ready_of_move consistent move]
    exact not_fetchesNext_of_resetHold (h.move move) rfl rfl
  | resetHold =>
    exact never (not_fetchesNext_of_resetHold h dry phase) (by simp [Released, phase])
  | dispatch =>
    exact never (not_fetchesNext_of_dispatch h dry phase) (by simp [Released, phase])
  | cwaiWait | syncWait | syncHold | locked =>
    rw [phaseMove?, phase] at move
    exact never (not_fetchesNext_of_still consistent dry move) (by simp [Released, phase])

/-- A processor that was released has a move to make. -/
theorem Released.moves (h : c.schedule.Consistent) (released : c.Released) : c.move? ≠ none := by
  obtain ⟨dry, phase | ⟨phase, free⟩⟩ := released
  · rw [move?_of_dry h dry, phaseMove?, phase]
    dsimp only
    split <;> exact Option.some_ne_none _
  · rw [move?_of_boundary h dry phase free]
    exact Option.some_ne_none _

/-- No wait leads to a boundary, so an idle cycle ends in one only where it began there. -/
theorem phase_idled_of_boundary (c : Processor) (phase : c.idled.state.phase = .boundary) :
    c.phase = .boundary := by
  unfold idled at phase
  dsimp only at phase
  split at phase
  · next sync =>
    split at phase
    · cases phase
    · split at phase
      · cases phase
      · exact phase
  · split at phase
    · exact phase
    · cases phase
  · exact phase

/-- Such a processor comes out of an idle cycle, in which HALT or SYNC held it. -/
theorem held_of_released {byte : Byte} (h : c.schedule.Consistent) (still : c.move? = none)
    (released : (c.complete byte).state.Released) :
    c.due? = none ∧
      (c.phase = .boundary ∧ c.inputs.active.halt = true ∨ c.phase = .syncWait) := by
  cases due : c.due? with
  | some cycle =>
    have carried := consistent_carryOut h cycle byte
    rw [complete, due] at released
    exact absurd (move?_settle carried) (released.moves (consistent_settle carried))
  | none =>
    have dry := pending_of_idle h still due
    refine ⟨rfl, ?_⟩
    rw [complete, due] at released
    obtain ⟨_, phase | ⟨phase, _⟩⟩ := released
    · rcases c.phase_idled phase with already | ⟨sync, _⟩
      · exact absurd still (Released.moves h ⟨dry, Or.inl already⟩)
      · exact Or.inr sync
    · have before := c.phase_idled_of_boundary phase
      cases halt : c.inputs.active.halt with
      | true => exact Or.inl ⟨before, rfl⟩
      | false => exact absurd still (Released.moves h ⟨dry, Or.inr ⟨before, halt⟩⟩)

/-! ## Halted -/

theorem isHalted_cases (halted : c.isHalted = true) :
    c.phase = .locked ∨ c.inputs.active.halt = true ∧
      (c.phase = .boundary ∨ c.phase = .resetHold ∨ c.phase = .syncHold) := by
  simp only [isHalted, isLocked, Bool.or_eq_true, Bool.and_eq_true, beq_iff_eq] at halted
  refine halted.imp id fun ⟨halt, phase⟩ => ⟨halt, ?_⟩
  cases at_ : c.phase with
  | boundary => exact Or.inl rfl
  | resetHold => exact Or.inr (Or.inl rfl)
  | syncHold => exact Or.inr (Or.inr rfl)
  | _ =>
    rw [at_] at phase
    cases phase

/-- Only in front of a boundary is anything pending. -/
theorem boundary_of_halted (h : Staged c) (halted : c.isHalted = true)
    (busy : c.schedule.pending ≠ []) : c.phase = .boundary := by
  have admitted := h.admitted
  rcases isHalted_cases halted with phase | ⟨_, phase | phase | phase⟩
  · rw [phase] at admitted
    exact absurd admitted busy
  · exact phase
  · rw [phase] at admitted
    exact absurd admitted busy
  · rw [phase] at admitted
    exact absurd admitted busy

/-- With nothing pending it waits. -/
theorem still_of_halted (h : c.schedule.Consistent) (halted : c.isHalted = true)
    (dry : c.schedule.pending = []) : c.move? = none ∧ c.wake? = none := by
  have asleep : c.phase ≠ .cwaiWait := by
    rcases isHalted_cases halted with phase | ⟨_, phase | phase | phase⟩ <;>
      (rw [phase]; exact nofun)
  refine ⟨?_, wake?_of_phase asleep⟩
  rw [move?_of_dry h dry, phaseMove?]
  rcases isHalted_cases halted with phase | ⟨halt, phase | phase | phase⟩ <;> rw [phase]
  · exact if_pos halt
  · exact if_pos halt

/-- With something pending it does not. -/
theorem isWaiting_of_halted (h : Staged c) (halted : c.isHalted = true) :
    c.isWaiting = true ↔ c.schedule.pending = [] := by
  have consistent := h.orderly.consistent
  constructor
  · intro waits
    by_cases dry : c.schedule.pending = []
    · exact dry
    · rw [isWaiting, boundary_of_halted h halted dry] at waits
      simp only [Bool.and_eq_true] at waits
      exact (Schedule.isDrained_iff_pending consistent).1 waits.1
  · intro dry
    exact isWaiting_of_still consistent dry (still_of_halted consistent halted dry).1

end Processor

namespace Board

open Processor

variable {β σ : Type} [Bus β]

/-- The next fetch is a read at PC. -/
theorem transfers_of_fetchesNext {m : Monitor σ} (proceeds : m.Proceeds)
    {b : Board (Recorded β) σ} (h : Orderly b.cpu) (resting : Resting b.cpu)
    (fetches : b.cpu.FetchesNext) : ∃ byte, (clock m b).2.bus.transfers.toList =
      b.bus.transfers.toList ++ [⟨.read b.cpu.regs.pc, byte⟩] := by
  obtain ⟨notes, clocked⟩ := clock_of_made (clock_proceeds proceeds b)
  have due := fetches.1
  have same := sameOutside_of_fetch h resting (by rw [ready, due?_announce] at due; exact due)
  have access : b.cpu.ready.access = .read b.cpu.regs.pc := by
    rw [Processor.access, due, ← same.regs]
    rfl
  rw [clocked, access]
  exact ⟨_, Recorded.transfers_perform _ _⟩

end Board

/-- The next fetch is pending, or decided already. -/
theorem Reachable.fetchesNext_iff (reachable : Reachable allowed c) :
    c.FetchesNext ↔ c.atBoundary = true ∨ c.Released ∧
      HardwareInterrupt.recognised c.inputs.active c.regs.cc = none := by
  have staged := reachable.staged
  have consistent := staged.orderly.consistent
  cases pending : c.schedule.pending with
  | nil =>
    rw [Processor.fetchesNext_of_dry staged pending fun phase =>
      reachable.executing phase pending, Processor.atBoundary_of_dry consistent pending]
    simp
  | cons op rest =>
    have busy : ¬c.Released := fun released => by
      rw [released.1] at pending
      cases pending
    cases op with
    | cycle cycle =>
      rw [Processor.fetchesNext_of_cycle staged pending]
      simp [busy]
    | action action =>
      have usesBus := reachable.resting (.action action)
        (by rw [Schedule.current_eq_head? consistent, pending, List.head?_cons])
      cases usesBus

/-! ## What the two predicates are worth -/

/-- **At a boundary the next access is an opcode fetch, and besides that only after a wait.**
The next clock fetches the first opcode byte of an instruction exactly if `atBoundary` says so,
or if the processor was released with no interrupt to recognise; the fetch is a read at PC.
And a clock leaves the processor released only if its access was an idle one, in which HALT or
SYNC held the processor. -/
theorem boundary_foretells_fetch {β σ : Type} [Bus β] (m : Monitor σ) (proceeds : m.Proceeds)
    (b : Board (Recorded β) σ) (reachable : Reachable allowed b.cpu) :
    (b.cpu.FetchesNext ↔ b.cpu.atBoundary = true ∨ b.cpu.Released ∧
      HardwareInterrupt.recognised b.cpu.inputs.active b.cpu.regs.cc = none) ∧
    (b.cpu.FetchesNext → ∃ byte, (Board.clock m b).2.bus.transfers.toList =
      b.bus.transfers.toList ++ [⟨.read b.cpu.regs.pc, byte⟩]) ∧
    ((Board.clock m b).2.cpu.Released → b.cpu.ready.due? = none ∧
      (b.cpu.ready.phase = .boundary ∧ b.cpu.ready.inputs.active.halt = true ∨
        b.cpu.ready.phase = .syncWait)) := by
  have staged := reachable.staged
  have consistent := staged.orderly.consistent
  refine ⟨reachable.fetchesNext_iff,
    Board.transfers_of_fetchesNext proceeds staged.orderly reachable.resting, ?_⟩
  intro released
  obtain ⟨notes, clocked⟩ := Board.clock_of_made (Board.clock_proceeds proceeds b)
  rw [clocked] at released
  exact Processor.held_of_released (Processor.consistent_ready consistent)
    (Processor.still_ready consistent).1 released

/-- HALT, and no interrupt. -/
def haltOnly : Levels := { Levels.low with halt := true }

/-- A board with nothing but instructions of one byte, after clocks with these levels. -/
def plainBoard (lines : List Levels) : Board (Recorded Ram) Unit :=
  Board.clocks .silent lines
    ⟨.powerOn, ⟨Ram.overlay (fun _ => 0x12) 0xFFFE [0x10, 0x00], #[]⟩, ()⟩

theorem reachable_plainBoard (lines : List Levels) : Reachable linesOnly (plainBoard lines).cpu :=
  .clocks .silent (fun _ => trivial) lines _ .powerOn

/-- HALT holds the processor at its second instruction. Two cycles after it is gone, the
processor is released. -/
def releasedBoard : Board (Recorded Ram) Unit :=
  plainBoard (.replicate 3 .low ++ .replicate 3 haltOnly ++ .replicate 2 .low)

/-- It fetches the next opcode at once. -/
theorem boundary_foretells_fetch_released :
    releasedBoard.cpu.FetchesNext ∧ ∃ byte,
      (Board.clock .silent releasedBoard).2.bus.transfers.toList =
        releasedBoard.bus.transfers.toList ++ [⟨.read 0x1001, byte⟩] := by
  obtain ⟨foretold, fetch, _⟩ := boundary_foretells_fetch .silent
    (Monitor.proceeds_of_hooks_none rfl) releasedBoard (reachable_plainBoard _)
  have fetches : releasedBoard.cpu.FetchesNext :=
    foretold.2 (Or.inr ⟨⟨by decide +kernel, Or.inr (by decide +kernel)⟩, by decide +kernel⟩)
  have pc : releasedBoard.cpu.regs.pc = 0x1001 := by decide +kernel
  refine ⟨fetches, ?_⟩
  rw [← pc]
  exact fetch fetches

/-- And it is not said to be at a boundary. -/
theorem fetch_not_always_foretold :
    ¬∀ c, Reachable linesOnly c → (c.atBoundary = true ↔ c.FetchesNext) := by
  intro always
  have foretold := always releasedBoard.cpu (reachable_plainBoard _)
  have boundary := foretold.2 ⟨by decide +kernel, by decide +kernel⟩
  revert boundary
  decide +kernel

/-- **Who is halted idles, unless a vector is being fetched.** -/
theorem halted_idles {β σ : Type} [Bus β] (m : Monitor σ) (b : Board (Recorded β) σ)
    (reachable : Reachable allowed b.cpu) (halted : b.cpu.isHalted = true) :
    (b.cpu.isWaiting = true ↔ b.cpu.schedule.pending = []) ∧
    (b.cpu.schedule.pending ≠ [] → b.cpu.phase = .boundary ∧
      b.cpu.schedule.pending <:+ .cycle .dummy :: vectorFetch) ∧
    (b.cpu.schedule.pending = [] → (Board.clock m b).1 = .cycle ∧
      (∃ byte, (Board.clock m b).2.bus.transfers.toList =
        b.bus.transfers.toList ++ [⟨.idle, byte⟩]) ∧
      (Board.clock m b).2.cpu.regs = b.cpu.regs) := by
  have staged := reachable.staged
  have consistent := staged.orderly.consistent
  refine ⟨Processor.isWaiting_of_halted staged halted, fun busy => ?_, fun dry => ?_⟩
  · have phase := Processor.boundary_of_halted staged halted busy
    have admitted := staged.admitted
    rw [phase] at admitted
    exact ⟨phase, admitted⟩
  · obtain ⟨still, asleep⟩ := Processor.still_of_halted consistent halted dry
    have quiet := Processor.prepare_of_rest still asleep
    obtain ⟨_, notes, clocked⟩ := Board.clock_of_dry m consistent (by rw [quiet]; exact dry)
    rw [quiet] at clocked
    rw [clocked]
    refine ⟨rfl, ⟨_, Recorded.transfers_perform .idle b.bus⟩, ?_⟩
    rw [Processor.idled_eq]

/-- A reset is held, let go for one cycle, and held again while it fetches the vector. -/
def vectoringBoard : Board (Recorded Ram) Unit := plainBoard [haltOnly, .low, haltOnly, haltOnly]

/-- It is halted there, and two clocks later as well, when the vector has been fetched. -/
theorem halted_idles_after_vector :
    vectoringBoard.cpu.schedule.pending <:+ .cycle .dummy :: vectorFetch ∧
    ∃ byte, (Board.clock .silent (Board.clocks .silent (.replicate 2 haltOnly)
        vectoringBoard)).2.bus.transfers.toList =
      (Board.clocks .silent (.replicate 2 haltOnly) vectoringBoard).bus.transfers.toList ++
        [⟨.idle, byte⟩] := by
  have later := Reachable.clocks .silent (fun _ => trivial) (.replicate 2 haltOnly)
    vectoringBoard (reachable_plainBoard _)
  obtain ⟨_, vector, _⟩ := halted_idles .silent vectoringBoard (reachable_plainBoard _)
    (by decide +kernel)
  obtain ⟨_, _, idles⟩ := halted_idles .silent _ later (by decide +kernel)
  exact ⟨(vector (by decide +kernel)).2, (idles (by decide +kernel)).2.1⟩

/-- Before that it is not waiting, and the next clock writes PC. -/
theorem halted_not_always_idle :
    ∃ b : Board (Recorded Ram) Unit, Reachable linesOnly b.cpu ∧ b.cpu.isHalted = true ∧
      b.cpu.isWaiting = false ∧ (Board.clock .silent b).2.cpu.regs.pc ≠ b.cpu.regs.pc :=
  ⟨vectoringBoard, reachable_plainBoard _, by decide +kernel, by decide +kernel,
    by decide +kernel⟩

end Sim6809
