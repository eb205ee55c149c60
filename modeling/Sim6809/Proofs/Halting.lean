/-
HALT: no instruction is begun while it is active, but for one way around it.

HALT is looked at in the phase before interrupts are arbitrated, and so it stands before
every opcode fetch that is reached by that phase. There is a second way to the arbitration:
an interrupt input ends a SYNC wait, and the processor goes on from there directly. If HALT
comes up together with the interrupt, it is not looked at, and one more instruction is
begun (`halt_not_always_heeded`). Apart from that it is heeded in every run
(`halt_holds_instructions`).

The ways to the arbitration are `BeforeArbitration`, and the one way from there to a fetch
is `BeforeFetch`. Between the two no bus cycle is made, so what was true of HALT before
still is (`Heeds`).
-/
import Sim6809.Proofs.Provenance

set_option autoImplicit false

namespace Sim6809

/-- Every call but a jump. -/
def noJump : HostCall → Prop
  | .setPc _ => False
  | _ => True

variable {c d : Processor} {allowed : HostCall → Prop} {event : Event}
  {past : List Occurrence}

/-! ## Ways to the arbitration -/

/-- What happened last when interrupts are to be arbitrated: that was so already, HALT was
found to be inactive, or an interrupt input has ended SYNC. -/
inductive BeforeArbitration (c : Processor) : Event → Processor → Prop
  | driven (phase : c.phase = .arbitration) (levels : Levels) :
      BeforeArbitration c (.call (.drive levels)) (c.withLevels levels)
  | written (phase : c.phase = .arbitration) (regs : RegisterFile) :
      BeforeArbitration c (.call (.registers regs)) { c with regs := regs }
  | free (dry : c.schedule.pending = []) (phase : c.phase = .boundary)
      (free : c.inputs.active.halt = false) :
      BeforeArbitration c (.move { next := { c with phase := .arbitration } })
        { c with phase := .arbitration }
  | released (byte : Byte) (dry : c.schedule.pending = []) (idle : c.due? = none)
      (phase : c.phase = .syncWait) (interrupting : c.inputs.latched.interrupting = true) :
      BeforeArbitration c (.access byte) c.idled.state

/-- An idle cycle leads to the arbitration at the end of SYNC only. -/
theorem Processor.phase_idled (c : Processor) (phase : c.idled.state.phase = .arbitration) :
    c.phase = .arbitration ∨
      c.phase = .syncWait ∧ c.inputs.latched.interrupting = true := by
  unfold idled at phase
  dsimp only at phase
  split at phase
  · next sync =>
    split at phase
    · next interrupting => exact Or.inr ⟨sync, interrupting⟩
    · split at phase
      · cases phase
      · exact Or.inl phase
  · split at phase
    · exact Or.inl phase
    · cases phase
  · exact Or.inl phase

theorem Processor.PhaseGoes.beforeArbitration {m : Move} (goes : c.PhaseGoes m)
    (dry : c.schedule.pending = []) (phase : m.landed.phase = .arbitration) :
    BeforeArbitration c (.move m) m.landed := by
  cases goes with
  | boundary boundary free => exact .free dry boundary free
  | reset _ | release _ _ | asked _ _ | unasked _ _ | retire _ | served _ _ | unserved _ _ =>
    cases phase

theorem Occurs.beforeArbitration (occurs : Occurs allowed c event d) (h : Orderly c)
    (sourced : Sourced c) (dry : c.phase = .arbitration → c.schedule.pending = [])
    (phase : d.phase = .arbitration) : BeforeArbitration c event d := by
  cases event with
  | call call =>
    cases occurs
    cases call with
    | drive levels => exact .driven (c := c) phase levels
    | registers regs => exact .written (c := c) phase regs
    | reset | setPc _ => cases phase
  | announce =>
    cases occurs with
    | announce asks =>
      rw [Processor.announce_eq] at phase
      obtain ⟨rest, pending⟩ :=
        (Processor.due?_eq_some_iff h.consistent).1 (Processor.due?_of_asksFirst asks)
      rw [dry phase] at pending
      cases pending
  | access byte =>
    cases occurs with
    | @cycle cycle _ due _ =>
      rw [Processor.phase_carryOut] at phase
      rw [Processor.due?_of_dry h.consistent (dry phase)] at due
      cases due
    | idle _ still _ idle =>
      have empty := Processor.pending_of_idle h.consistent still idle
      rcases c.phase_idled phase with already | ⟨sync, interrupting⟩
      · -- The arbitration makes a move, so nothing idles there.
        rw [Processor.move?_of_dry h.consistent empty, Processor.phaseMove?, already] at still
        dsimp only at still
        split at still <;> cases still
      · exact .released byte empty idle sync interrupting
  | move m =>
    obtain ⟨happens, rfl⟩ := occurs.moveHappens h.consistent
    cases happens with
    | phase empty goes => exact goes.beforeArbitration empty phase
    | @wake interrupt _ _ _ _ => cases interrupt <;> cases phase
    | @act action rest pending =>
      exfalso
      by_cases stays : ∀ phase, action ≠ .enter phase
      · rw [Processor.phase_act _ stays] at phase
        rw [dry phase] at pending
        cases pending
      · obtain ⟨other, rfl⟩ := by simpa using stays
        obtain rfl : other = .arbitration := phase
        have three := sourced.enters h (by rw [pending]; exact List.mem_cons_self)
        revert three
        decide

/-! ## HALT is heeded -/

/-- The bus cycle is an idle one of a SYNC wait, and ends the wait, since an interrupt
input has been latched. -/
structure Occurrence.EndsSync (o : Occurrence) : Prop where
  phase : o.before.phase = .syncWait
  idle : o.before.due? = none
  interrupting : o.before.inputs.latched.interrupting = true

/-- The last bus cycle so far. -/
def lastCycle? (past : List Occurrence) : Option Occurrence :=
  (past.filter (·.transfer?.isSome)).getLast?

theorem lastCycle?_append {back : List Occurrence} (quiet : transfers back = []) :
    lastCycle? (past ++ back) = lastCycle? past := by
  have none : back.filter (·.transfer?.isSome) = [] := by
    rw [transfers, List.filterMap_eq_nil_iff] at quiet
    refine List.filter_eq_nil_iff.2 fun o mem => ?_
    rw [quiet o mem]
    decide
  rw [lastCycle?, List.filter_append, none, List.append_nil, lastCycle?]

theorem lastCycle?_access (c : Processor) (byte : Byte) :
    lastCycle? (past ++ [⟨c, .access byte⟩]) = some ⟨c, .access byte⟩ := by
  rw [lastCycle?, List.filter_append]
  exact List.getLast?_concat

/-- The last bus cycle so far has ended a SYNC wait. -/
def SyncJustEnded (past : List Occurrence) : Prop := ∃ o ∈ lastCycle? past, o.EndsSync

/-- What makes no access leaves it at that. -/
theorem SyncJustEnded.on (h : SyncJustEnded past) {o : Occurrence} (quiet : o.transfer? = none) :
    SyncJustEnded (past ++ [o]) := by
  have none : transfers [o] = [] := List.filterMap_cons_none quiet
  rw [SyncJustEnded, lastCycle?_append none]
  exact h

/-- Where interrupts are arbitrated, and from there on until the opcode fetch, HALT is
inactive, or SYNC has just ended. -/
structure Heeds (past : List Occurrence) (c : Processor) : Prop where
  dry : c.phase = .arbitration → c.schedule.pending = []
  arbitration : c.phase = .arbitration → c.inputs.active.halt = true → SyncJustEnded past
  fetch : .cycle .fetchOpcode ∈ c.schedule.pending → c.page = 0 →
    c.inputs.active.halt = true → SyncJustEnded past

namespace Heeds

theorem at_arbitration (h : Heeds past c) (before : BeforeArbitration c event d) :
    d.schedule.pending = [] ∧
      (d.inputs.active.halt = true → SyncJustEnded (past ++ [⟨c, event⟩])) := by
  cases before with
  | driven phase levels => exact ⟨h.dry phase, fun halt => (h.arbitration phase halt).on rfl⟩
  | written phase regs => exact ⟨h.dry phase, fun halt => (h.arbitration phase halt).on rfl⟩
  | free dry _ free =>
    refine ⟨dry, fun halt => ?_⟩
    change c.inputs.active.halt = true at halt
    rw [free] at halt
    cases halt
  | released byte dry idle sync interrupting =>
    refine ⟨by rw [Processor.schedule_idled]; exact dry, fun _ => ?_⟩
    exact ⟨_, lastCycle?_access c byte, sync, idle, interrupting⟩

theorem at_fetch (h : Heeds past c) (before : BeforeFetch c event d)
    (stays : ∀ pc, event ≠ .call (.setPc pc)) (halt : d.inputs.active.halt = true) :
    SyncJustEnded (past ++ [⟨c, event⟩]) := by
  cases before with
  | announced pending page =>
    rw [Processor.announce_eq] at halt
    exact (h.fetch pending page halt).on rfl
  | driven pending page levels => exact (h.fetch pending page halt).on rfl
  | written pending page regs => exact (h.fetch pending page halt).on rfl
  | unasked _ phase _ => exact (h.arbitration phase halt).on rfl
  | jump pc => exact absurd rfl (stays pc)

end Heeds

/-- Whatever happens but a jump, HALT is heeded on. -/
theorem Path.heeds (path : History noJump past c) : Heeds past c := by
  induction path with
  | here => exact ⟨nofun, nofun, nofun⟩
  | @on past c d event before occurs ih =>
    have orderly := before.orderly Processor.orderly_powerOn
    have sourced := before.sourced Processor.orderly_powerOn sourced_powerOn
    have arbitrates := fun phase => ih.at_arbitration
      (occurs.beforeArbitration orderly sourced ih.dry phase)
    refine ⟨fun phase => (arbitrates phase).1, fun phase => (arbitrates phase).2, ?_⟩
    intro fetch page
    refine ih.at_fetch (occurs.beforeFetch orderly sourced fetch page) ?_
    rintro pc rfl
    cases occurs with
    | call allow => exact allow

/-- **HALT holds instructions, unless SYNC has just ended.** In a run without jumps, if the
first opcode byte of an instruction is fetched in a cycle that begins with HALT active, then
the cycle before it was one in which an interrupt input ended a SYNC wait. So of two bus
cycles that follow each other, with anything but a jump done in between, either the first
one ends SYNC or the second one does not begin an instruction while HALT is active. -/
theorem halt_holds_instructions :
    (∀ past c, History noJump past c → c.due? = some .fetchOpcode → c.page = 0 →
      c.inputs.active.halt = true → SyncJustEnded past) ∧
    ∀ {β σ : Type} [Bus β] (m : Monitor σ) (b : Board β σ),
      Reachable noJump b.cpu → (Board.clock m b).1 = .cycle →
      ∀ between c, Path noJump (Board.clock m b).2.cpu between c → transfers between = [] →
        c.due? = some .fetchOpcode → c.page = 0 → c.inputs.active.halt = true →
          (⟨b.cpu.ready, .access (b.cpu.ready.access.perform b.bus).1⟩ : Occurrence).EndsSync := by
  have all : ∀ past c, History noJump past c → c.due? = some .fetchOpcode → c.page = 0 →
      c.inputs.active.halt = true → SyncJustEnded past := by
    intro past c path fetch page halt
    have consistent := path.consistent Processor.orderly_powerOn.consistent
    obtain ⟨rest, pending⟩ := (Processor.due?_eq_some_iff consistent).1 fetch
    exact path.heeds.fetch (by rw [pending]; exact List.mem_cons_self) page halt
  refine ⟨all, ?_⟩
  intro β σ _ m b reachable cycle between c path quiet fetch page halt
  obtain ⟨past, history⟩ := reachable.history
  obtain ⟨front, ready, _⟩ := Processor.path_ready noJump b.cpu
  obtain ⟨back, complete, moves⟩ := Processor.path_complete noJump reachable.consistent
    (b.cpu.ready.access.perform b.bus).1
  obtain ⟨_, clocked⟩ := Board.clock_of_made cycle
  rw [clocked] at path
  -- After the access there are moves, and what was done before the next one.
  have whole := ((history.trans ready).trans complete).trans path
  obtain ⟨o, last, ends⟩ := all _ c whole fetch page halt
  have after : transfers (back ++ between) = [] := by
    rw [transfers_append, moves.transfers, quiet]
    rfl
  rw [List.append_assoc, List.cons_append, List.append_cons, lastCycle?_append after,
    lastCycle?_access] at last
  cases last
  exact ends

/-- A program that waits, from its first instruction on. -/
def syncing : Ram := (Ram.overlay (fun _ => 0x12) 0x1000 [0x13]).overlay 0xFFFE [0x10, 0x00]

/-- HALT, and an interrupt that is masked. -/
def haltAndIrq : Levels := { Levels.low with halt := true, irq := true }

/-- Both come while the processor waits, and it goes on to the next opcode fetch. -/
def releasedHalted : List Occurrence × Processor :=
  Processor.followDriven syncing 13 haltAndIrq 4 .powerOn

/-- So an instruction may be begun while HALT is active. -/
theorem halt_not_always_heeded :
    ¬∀ past c byte d, History linesOnly past c → Occurs linesOnly c (.access byte) d →
      c.due? = some .fetchOpcode → c.page = 0 → c.inputs.active.halt = false := by
  intro always
  have path : History linesOnly releasedHalted.1 releasedHalted.2 :=
    Processor.path_followDriven syncing 13 trivial 4 .powerOn
  have fetch : releasedHalted.2.due? = some .fetchOpcode := by decide +kernel
  have announced : releasedHalted.2.asksFirst = false := by decide +kernel
  have free := always _ _ 0x12 _ path (.cycle 0x12 fetch announced) fetch (by decide +kernel)
  have halt : releasedHalted.2.inputs.active.halt = true := by decide +kernel
  rw [halt] at free
  cases free

/-- That instruction is the one after SYNC, in a history and on a board. -/
theorem halt_holds_instructions_syncing :
    (releasedHalted.2.inputs.active.halt = true ∧ SyncJustEnded releasedHalted.1) ∧
    ∃ b : Board Ram Unit, Reachable noJump b.cpu ∧
      (Board.clock .silent b).2.cpu.ready.due? = some .fetchOpcode ∧
      (Board.clock .silent b).2.cpu.ready.inputs.active.halt = true ∧
      (⟨b.cpu.ready, .access (b.cpu.ready.access.perform b.bus).1⟩ : Occurrence).EndsSync := by
  refine ⟨?_, ?_⟩
  · have path : History noJump releasedHalted.1 releasedHalted.2 :=
      Processor.path_followDriven syncing 13 trivial 4 .powerOn
    have halt : releasedHalted.2.inputs.active.halt = true := by decide +kernel
    exact ⟨halt, halt_holds_instructions.1 _ _ path (by decide +kernel) (by decide +kernel) halt⟩
  · let b : Board Ram Unit :=
      Board.clocks .silent (List.replicate 6 .low ++ [haltAndIrq]) ⟨.powerOn, syncing, ()⟩
    have reachable : Reachable noJump b.cpu := .clocks .silent (fun _ => trivial) _ _ .powerOn
    obtain ⟨between, path, quiet⟩ := (Board.clock .silent b).2.cpu.path_ready noJump
    have fetch : (Board.clock .silent b).2.cpu.ready.due? = some .fetchOpcode := by decide +kernel
    have halt : (Board.clock .silent b).2.cpu.ready.inputs.active.halt = true := by decide +kernel
    exact ⟨b, reachable, fetch, halt, halt_holds_instructions.2 .silent b reachable
      (by decide +kernel) between _ path quiet fetch (by decide +kernel) halt⟩

end Sim6809
