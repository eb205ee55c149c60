/-
A reset, from whatever state it is asked for in.

Nothing is known of the processor but that its schedule is consistent. It may be in the middle
of an instruction that no opcode stands for, or locked, or come from a save-state. What the
reset does not overwrite it must never look at again, and what it leaves of the inputs must not
let an interrupt through before the first opcode.

This is said twice. Piece by piece, in `Restarting`, which is kept by everything that can
happen up to the first opcode fetch and shows that the processor is deaf for all that time;
behind the fetch the processor is in order again, and what `NonMaskable.lean` has about the
latch of NMI applies. And clock by clock: how long HALT holds the reset, which accesses follow,
and what they leave. HALT passes two stages, so what is acted on in a cycle is the level two
cycles before it, and in the first two cycles the level at the first.
-/
import Sim6809.Proofs.Ledger
import Sim6809.Proofs.NonMaskable
import Sim6809.Proofs.Stages

set_option autoImplicit false

namespace Sim6809

/-! ## What a reset leaves -/

/-- NMI is not armed, and no edge of it is latched. -/
structure Inputs.Disarmed (i : Inputs) : Prop where
  unarmed : i.nmiArmed = false
  latched : i.latched.nmi = false
  active : i.active.nmi = false

theorem Inputs.disarmed_clear (i : Inputs) : i.clear.Disarmed := ⟨rfl, rfl, rfl⟩

/-- Disarmed it stays empty. -/
theorem Inputs.Disarmed.cycle {i : Inputs} (h : i.Disarmed) : i.cycle.Disarmed := by
  refine ⟨h.unarmed, ?_, h.latched⟩
  change (i.latched.nmi || i.live.nmi && !i.nmiPrevious && i.nmiArmed) = false
  rw [h.latched, h.unarmed, Bool.and_false]
  rfl

namespace Processor

variable {c d : Processor}

/-- No interrupt gets through to it. -/
structure Deaf (c : Processor) : Prop where
  disarmed : c.inputs.Disarmed
  irq : c.regs.cc.irqMask = true
  firq : c.regs.cc.firqMask = true

theorem Deaf.of_same (h : c.Deaf) (inputs : d.inputs = c.inputs) (cc : d.regs.cc = c.regs.cc) :
    d.Deaf :=
  ⟨by rw [inputs]; exact h.disarmed, by rw [cc]; exact h.irq, by rw [cc]; exact h.firq⟩

/-- Neither do the lines change that, nor do cycles. -/
theorem Deaf.withLevels (h : c.Deaf) (levels : Levels) : (c.withLevels levels).Deaf :=
  ⟨⟨h.disarmed.unarmed, h.disarmed.latched, h.disarmed.active⟩, h.irq, h.firq⟩

theorem Deaf.of_cycle (h : c.Deaf) (inputs : d.inputs = c.inputs.cycle)
    (cc : d.regs.cc = c.regs.cc) : d.Deaf :=
  ⟨by rw [inputs]; exact h.disarmed.cycle, by rw [cc]; exact h.irq, by rw [cc]; exact h.firq⟩

theorem Deaf.unrecognised (h : c.Deaf) :
    HardwareInterrupt.recognised c.inputs.active c.regs.cc = none := by
  refine HardwareInterrupt.recognised_eq_none_iff.2 fun interrupt => ?_
  cases interrupt with
  | nmi => exact h.disarmed.active
  | firq => simp [HardwareInterrupt.eligible, h.firq]
  | irq => simp [HardwareInterrupt.eligible, h.irq]

theorem deaf_beginReset (c : Processor) : c.beginReset.Deaf :=
  ⟨c.inputs.disarmed_clear, rfl, rfl⟩

/-- From a reset up to the first opcode fetch, the page selections before it included. -/
inductive Restarting (c : Processor) : Prop
  | asked (dry : c.schedule.pending = []) (phase : c.phase = .reset)
  | held (dry : c.schedule.pending = []) (phase : c.phase = .resetHold) (deaf : c.Deaf)
  | vector (rest : c.schedule.pending <:+ vectorFetch) (phase : c.phase = .boundary)
      (deaf : c.Deaf)
  | between (dry : c.schedule.pending = []) (phase : c.phase = .arbitration) (deaf : c.Deaf)
  | opcode (fetch : c.AtOpcode c.page) (deaf : c.Deaf)

namespace Restarting

/-- Only some of the state matters. -/
theorem of_same (h : Restarting c) (schedule : d.schedule = c.schedule)
    (phase : d.phase = c.phase) (deaf : c.Deaf → d.Deaf) : Restarting d := by
  have pending := congrArg Schedule.pending schedule
  cases h with
  | asked dry at_ => exact .asked (pending.trans dry) (phase.trans at_)
  | held dry at_ still => exact .held (pending.trans dry) (phase.trans at_) (deaf still)
  | vector rest at_ still =>
    exact .vector (by rw [pending]; exact rest) (phase.trans at_) (deaf still)
  | between dry at_ still => exact .between (pending.trans dry) (phase.trans at_) (deaf still)
  | opcode fetch still =>
    exact .opcode ⟨by rw [schedule]; exact fetch.consistent, pending.trans fetch.pending,
      phase.trans fetch.phase, rfl⟩ (deaf still)

/-- Once the reset has begun, the processor is deaf. -/
theorem deaf (h : Restarting c) (begun : c.phase ≠ .reset) : c.Deaf := by
  cases h with
  | asked _ phase => exact absurd phase begun
  | held _ _ deaf | vector _ _ deaf | between _ _ deaf | opcode _ deaf => exact deaf

/-- It neither waits nor chooses an interrupt. -/
theorem phase_mem (h : Restarting c) :
    c.phase ∈ [Phase.reset, .resetHold, .boundary, .arbitration, .execution] := by
  cases h with
  | asked _ phase | held _ phase _ | vector _ phase _ | between _ phase _ =>
    rw [phase]
    decide
  | opcode fetch _ =>
    rw [fetch.phase]
    decide

theorem phase_ne (h : Restarting c) {phase : Phase}
    (other : phase ∉ [Phase.reset, .resetHold, .boundary, .arbitration, .execution]) :
    c.phase ≠ phase := by
  rintro rfl
  exact other h.phase_mem

/-- The only step that takes no time is the jump. -/
theorem act (h : Restarting c) (consistent : c.schedule.Consistent) {action : Action}
    {rest : List MicroOp} (pending : c.schedule.pending = .action action :: rest) :
    action = .jump ∧
      Restarting ({ c with schedule := c.schedule.advance }.act action).landed := by
  cases h with
  | vector suffix phase deaf =>
    obtain rfl : action = .jump := by
      have mem : .action action ∈ vectorFetch := suffix.subset (by
        rw [pending]
        exact List.mem_cons_self)
      simpa [vectorFetch] using mem
    refine ⟨rfl, .vector ?_ phase (deaf.of_same rfl rfl)⟩
    change c.schedule.advance.pending <:+ vectorFetch
    rw [Schedule.pending_advance consistent]
    exact (List.tail_suffix _).trans suffix
  | asked dry | held dry | between dry =>
    rw [dry] at pending
    cases pending
  | opcode fetch =>
    rw [fetch.pending] at pending
    cases pending

theorem phaseGoes (h : Restarting c) (consistent : c.schedule.Consistent) {m : Move}
    (dry : c.schedule.pending = []) (goes : PhaseGoes c m) : Restarting m.landed := by
  have landed : ∀ ops : List MicroOp, ops.length ≤ 32 → (c.schedule.extend ops).pending = ops :=
    fun ops fits => Schedule.pending_extend_of_dry consistent dry ops fits
  cases goes with
  | reset _ => exact .held (Schedule.pending_clear _) rfl c.deaf_beginReset
  | release phase _ =>
    have deaf := h.deaf (by rw [phase]; decide)
    have fetch := landed vectorFetch (by decide)
    refine .vector ?_ rfl (deaf.of_same rfl rfl)
    simp only [Move.schedule_landed, fetch, List.suffix_refl]
  | boundary phase _ =>
    exact .between dry rfl ((h.deaf (by rw [phase]; decide)).of_same rfl rfl)
  | asked phase recognised =>
    rw [(h.deaf (by rw [phase]; decide)).unrecognised] at recognised
    cases recognised
  | unasked phase _ =>
    have deaf := h.deaf (by rw [phase]; decide)
    have fetch := landed [.cycle .fetchOpcode] (by decide)
    exact .opcode ⟨consistent.extend _, fetch, rfl, rfl⟩ (deaf.of_same rfl rfl)
  | retire phase =>
    cases h with
    | opcode fetch _ =>
      rw [fetch.pending] at dry
      cases dry
    | asked _ at_ | held _ at_ _ | vector _ at_ _ | between _ at_ _ =>
      rw [phase] at at_
      cases at_
  | served phase _ | unserved phase _ => exact absurd phase (h.phase_ne (by decide))

/-- A byte used up a step of the vector fetch, if it was not fetched as an opcode. -/
theorem carryOut (h : Restarting c) (consistent : c.schedule.Consistent) {cycle : BusCycle}
    (due : c.due? = some cycle) (other : cycle ≠ .fetchOpcode) (byte : Byte) :
    Restarting (c.carryOut cycle byte) := by
  obtain ⟨rest, pending⟩ := (due?_eq_some_iff consistent).1 due
  cases h with
  | vector suffix phase deaf =>
    have mem : .cycle cycle ∈ vectorFetch := suffix.subset (by
      rw [pending]
      exact List.mem_cons_self)
    obtain rfl | rfl | rfl : cycle = .readPointer 0 ∨ cycle = .readPointer 1 ∨ cycle = .dummy := by
      simpa [vectorFetch] using mem
    all_goals
      refine .vector ?_ phase (deaf.of_cycle rfl rfl)
      change c.schedule.advance.pending <:+ vectorFetch
      rw [Schedule.pending_advance consistent]
      exact (List.tail_suffix _).trans suffix
  | asked dry | held dry | between dry =>
    rw [dry] at pending
    cases pending
  | opcode fetch =>
    rw [fetch.pending] at pending
    cases pending
    exact absurd rfl other

end Restarting

/-- What is known of a processor that came from power-on. -/
structure Ordered (c : Processor) : Prop where
  orderly : Orderly c
  sourced : Sourced c
  gated : c.inputs.Gated

/-- The first opcode puts the processor in order, with nothing latched. -/
structure Restarted (c : Processor) : Prop where
  ordered : Ordered c
  empty : c.inputs.latched.nmi = false

/-- The byte of an opcode fetch selects a page, or is that opcode. -/
theorem Restarting.fetch (h : Restarting c) (consistent : c.schedule.Consistent)
    (due : c.due? = some .fetchOpcode) (byte : Byte) :
    Restarting (c.carryOut .fetchOpcode byte) ∨
      Restarted (c.carryOut .fetchOpcode byte) ∧ Instruction.selectsPage byte = false := by
  obtain ⟨rest, pending⟩ := (due?_eq_some_iff consistent).1 due
  cases h with
  | vector suffix _ _ =>
    have mem : .cycle .fetchOpcode ∈ vectorFetch := suffix.subset (by
      rw [pending]
      exact List.mem_cons_self)
    exact absurd mem (by decide)
  | asked dry | held dry | between dry =>
    rw [dry] at pending
    cases pending
  | opcode fetch deaf =>
    have cc : (c.carryOut .fetchOpcode byte).regs.cc = c.regs.cc := cc_carryOut c byte nofun
    have still := deaf.of_cycle (inputs_carryOut_fetchOpcode c byte) cc
    cases selects : Instruction.selectsPage byte with
    | true =>
      obtain ⟨selected, operation⟩ := (Instruction.selectsPage_iff c.page).1 selects
      have next := (atOpcode_carryOut fetch operation).1
      exact Or.inl (.opcode ⟨next.consistent, next.pending, next.phase, rfl⟩ still)
    | false =>
      have final : ∀ selected, (Instruction.decode c.page byte).op ≠ .selectPage selected := by
        intro selected operation
        rw [(Instruction.selectsPage_iff c.page).2 ⟨selected, operation⟩] at selects
        cases selects
      have fetched := (Ledger.fetched_carryOut fetch final).1
      have gated := Inputs.gated_of_empty still.disarmed.active still.disarmed.latched
      exact Or.inr ⟨⟨⟨fetched.orderly, fetched.sourced, gated⟩, still.disarmed.latched⟩, rfl⟩

theorem restarting_reset (c : Processor) : Restarting c.reset :=
  .asked (Schedule.pending_clear _) rfl

end Processor

open Processor

variable {c d : Processor} {event : Event} {past : List Occurrence}

/-- Whatever happens after a reset, it goes on restarting up to the first opcode, and no
interrupt is let through. -/
theorem Processor.Restarting.occurs (h : Restarting c) (consistent : c.schedule.Consistent)
    (occurs : Occurs linesOnly c event d) :
    (Restarting d ∨ Restarted d ∧ (⟨c, event⟩ : Occurrence).opcodes = 1) ∧
      (∀ which, ¬(⟨c, event⟩ : Occurrence).Takes which) ∧
      ∀ interrupt, ¬(⟨c, event⟩ : Occurrence).Begins interrupt := by
  refine ⟨?_, fun which taken => ?_, fun interrupt begins => ?_⟩
  · cases event with
    | call call =>
      obtain ⟨levels, rfl, rfl⟩ := occurs.drives
      exact Or.inl (h.of_same rfl rfl fun deaf => deaf.withLevels levels)
    | announce =>
      cases occurs
      refine Or.inl (h.of_same (schedule_announce c) ?_ fun deaf => deaf.of_same ?_ ?_)
      all_goals rw [announce_eq]
    | access byte =>
      cases occurs with
      | @cycle cycle _ due _ =>
        by_cases fetch : cycle = .fetchOpcode
        · subst fetch
          refine (h.fetch consistent due byte).imp_right fun ⟨restarted, final⟩ => ⟨restarted, ?_⟩
          simp [Occurrence.opcodes, due, final]
        · exact Or.inl (h.carryOut consistent due fetch byte)
      | idle _ _ _ _ =>
        have awake : c.phase ≠ .syncWait ∧ c.phase ≠ .syncHold :=
          ⟨h.phase_ne (by decide), h.phase_ne (by decide)⟩
        rw [idled_of_awake awake]
        exact Or.inl (h.of_same rfl rfl fun deaf => deaf.of_cycle rfl rfl)
    | move m =>
      obtain ⟨happens, rfl⟩ := occurs.moveHappens consistent
      cases happens with
      | act pending => exact Or.inl (h.act consistent pending).2
      | phase dry goes => exact Or.inl (h.phaseGoes consistent dry goes)
      | wake _ phase _ _ => exact absurd phase (h.phase_ne (by decide))
  · rcases occurs.takes consistent taken with ⟨rest, pending⟩ | ⟨_, _, _, phase, _⟩
    · cases (h.act consistent pending).1
    · rcases phase with phase | phase <;> exact absurd phase (h.phase_ne (by decide))
  · have recognised := begins.recognised
    have begun : c.phase ≠ .reset := by
      rw [begins.phase]
      decide
    rw [(h.deaf begun).unrecognised] at recognised
    cases recognised

/-- In order it stays. -/
theorem Path.ordered (path : Path linesOnly c past d) (h : Ordered c) : Ordered d :=
  path.preserves (P := Ordered)
    (fun h occurs => ⟨occurs.orderly h.orderly, h.sourced.occurs h.orderly occurs,
      (occurs.inputsChange h.orderly h.sourced).gated h.gated⟩) h

/-- A path from a reset is still restarting, or has come past the first opcode. -/
theorem Path.restarts (path : Path linesOnly c past d) (consistent : c.schedule.Consistent)
    (h : Restarting c) :
    Restarting d ∨ ∃ front f back e, past = front ++ f :: back ∧ f.opcodes = 1 ∧
      Restarted e ∧ Path linesOnly e back d := by
  induction path with
  | here => exact Or.inl h
  | @on past d e event before occurs ih =>
    rcases ih with restarting | ⟨front, f, back, g, rfl, fetches, restarted, later⟩
    · rcases (restarting.occurs (before.consistent consistent) occurs).1 with
        still | ⟨restarted, fetches⟩
      · exact Or.inl still
      · exact Or.inr ⟨past, _, [], e, rfl, fetches, restarted, .here⟩
    · refine Or.inr ⟨front, f, back ++ [⟨d, event⟩], g, ?_, fetches, restarted, .on later occurs⟩
      rw [List.append_assoc, List.cons_append]

/-- No interrupt is let through before the first opcode, and NMI not without an edge that is
seen after it. -/
theorem Path.interrupts_after_reset {front back : List Occurrence} {o : Occurrence}
    (path : Path linesOnly c.reset (front ++ o :: back) d) :
    ((∃ which, o.Takes which) ∨ (∃ interrupt, o.Begins interrupt) →
      ∃ f ∈ front, f.opcodes = 1) ∧
    (o.Takes .nmi → ∃ early f mid edge late, front = early ++ f :: (mid ++ edge :: late) ∧
      f.opcodes = 1 ∧ edge.SeesEdge) := by
  have consistent := Schedule.consistent_clear c.schedule
  obtain ⟨before, e, occurs, _⟩ := path.split
  have there : o.before.schedule.Consistent := before.consistent consistent
  rcases before.restarts consistent c.restarting_reset with
    restarting | ⟨early, f, later, g, rfl, fetches, restarted, after⟩
  · obtain ⟨_, takes, begins⟩ := restarting.occurs there occurs
    refine ⟨?_, fun taken => absurd taken (takes _)⟩
    rintro (⟨which, taken⟩ | ⟨interrupt, begun⟩)
    · exact absurd taken (takes which)
    · exact absurd begun (begins interrupt)
  · refine ⟨fun _ => ⟨f, List.mem_append_right early List.mem_cons_self, fetches⟩, fun taken => ?_⟩
    have start := restarted.ordered
    have full := (occurs.latched_of_takes (after.ordered start).orderly
      (after.ordered start).sourced (after.ordered start).gated taken).1
    obtain ⟨mid, edge, late, g', rfl, toEdge, still, occurs', filled⟩ :=
      after.turns (P := fun d => d.inputs.latched.nmi = true) (by rw [restarted.empty]; decide) full
    have there := toEdge.ordered start
    exact ⟨early, f, mid, edge, late, rfl, fetches,
      (occurs'.inputsChange there.orderly there.sourced).latches still filled⟩

/-! ## Clock by clock

What is known of the processor between two clocks of a reset: where it stands, which steps are
pending, and which registers it has. The inputs are left open but for what makes it deaf. -/

namespace Processor

variable {phase : Phase} {ops : List MicroOp} {r : RegisterFile}

/-- In a reset, or at the boundary after it. -/
structure Resetting (phase : Phase) (ops : List MicroOp) (r : RegisterFile) (c : Processor) :
    Prop where
  consistent : c.schedule.Consistent
  pending : c.schedule.pending = ops
  phase : c.phase = phase
  page : c.page = 0
  regs : c.regs = r
  deaf : c.Deaf

theorem resetting_beginReset (c : Processor) :
    Resetting .resetHold [] { c.regs with dp := 0, cc := c.regs.cc.maskAll } c.beginReset :=
  ⟨Schedule.consistent_clear _, Schedule.pending_clear _, rfl, rfl, rfl, c.deaf_beginReset⟩

namespace Resetting

theorem withLevels (h : Resetting phase ops r c) (levels : Levels) :
    Resetting phase ops r (c.withLevels levels) :=
  ⟨h.consistent, h.pending, h.phase, h.page, h.regs, h.deaf.withLevels levels⟩

theorem clocked (h : Resetting phase ops r c) : Resetting phase ops r c.clocked :=
  ⟨h.consistent, h.pending, h.phase, h.page, h.regs, h.deaf.of_cycle rfl rfl⟩

/-- A step of the vector fetch is done. -/
theorem carryOut {cycle : BusCycle} (h : Resetting phase (.cycle cycle :: ops) r c)
    (fetch : cycle ∈ [BusCycle.readPointer 0, .readPointer 1, .dummy]) (byte : Byte) :
    Resetting phase ops r (c.carryOut cycle byte) := by
  have pending : c.schedule.advance.pending = ops := by
    rw [Schedule.pending_advance h.consistent, h.pending, List.tail_cons]
  obtain rfl | rfl | rfl : cycle = .readPointer 0 ∨ cycle = .readPointer 1 ∨ cycle = .dummy := by
    simpa using fetch
  all_goals
    exact ⟨h.consistent.advance, pending, h.phase, h.page, h.regs, h.deaf.of_cycle rfl rfl⟩

theorem jump (h : Resetting phase (.action .jump :: ops) r c) :
    Resetting phase ops { r with pc := c.data }
      ({ c with schedule := c.schedule.advance }.act .jump).landed := by
  have pending : c.schedule.advance.pending = ops := by
    rw [Schedule.pending_advance h.consistent, h.pending, List.tail_cons]
  refine ⟨h.consistent.advance, pending, h.phase, h.page, ?_, h.deaf.of_same rfl rfl⟩
  rw [← h.regs]
  rfl

/-- Without HALT the vector fetch is scheduled. -/
theorem release (h : Resetting .resetHold [] r c) (free : c.inputs.active.halt = false) :
    ∃ m, c.move? = some m ∧ m.landed.ea = 0xFFFE ∧
      Resetting .boundary vectorFetch r m.landed := by
  have due := move?_of_resetHold h.consistent h.pending h.phase free
  refine ⟨_, due, rfl, consistent_landed h.consistent due, ?_, rfl, h.page, h.regs,
    h.deaf.of_same rfl rfl⟩
  rw [Move.schedule_landed]
  exact Schedule.pending_extend_of_dry h.consistent h.pending vectorFetch (by decide)

/-- HALT holds it in both places. -/
theorem move?_of_halted (h : Resetting phase [] r c)
    (held : phase = .resetHold ∨ phase = .boundary) (halt : c.inputs.active.halt = true) :
    c.move? = none := by
  rw [move?_of_dry h.consistent h.pending, phaseMove?, h.phase]
  rcases held with rfl | rfl <;> exact if_pos halt

/-- Held, it is prepared for an idle cycle. -/
theorem prepare_of_halted (h : Resetting phase [] r c)
    (held : phase = .resetHold ∨ phase = .boundary) (halt : c.inputs.active.halt = true) :
    c.prepare = { state := c } := by
  refine prepare_of_rest (h.move?_of_halted held halt) (wake?_of_phase ?_)
  rw [h.phase]
  rcases held with rfl | rfl <;> decide

/-- At the boundary it goes on to the opcode. -/
theorem settle_of_free (h : Resetting .boundary [] r c) (free : c.inputs.active.halt = false) :
    Resetting .execution [.cycle .fetchOpcode] r c.settle.state := by
  have due := move?_of_boundary h.consistent h.pending h.phase free
  have arbitrates : Resetting .arbitration [] r
      ({ next := { c with phase := .arbitration } } : Move).landed :=
    ⟨h.consistent, h.pending, rfl, h.page, h.regs, h.deaf.of_same rfl rfl⟩
  obtain ⟨settled, fetch⟩ := settle_of_unasked arbitrates.consistent arbitrates.pending
    arbitrates.phase arbitrates.deaf.unrecognised
  rw [settle_of_move h.consistent due, settled]
  exact ⟨h.consistent.extend _, fetch, rfl, h.page, h.regs, h.deaf.of_same rfl rfl⟩

end Resetting

/-- The reset is over. HALT may stand before the first opcode. -/
def Recovered (r : RegisterFile) (c : Processor) : Prop :=
  Resetting .boundary [] r c ∨ Resetting .execution [.cycle .fetchOpcode] r c

namespace Recovered

theorem regs (h : Recovered r c) : c.regs = r := h.elim Resetting.regs Resetting.regs

theorem deaf (h : Recovered r c) : c.Deaf := h.elim Resetting.deaf Resetting.deaf

theorem withLevels (h : Recovered r c) (levels : Levels) : Recovered r (c.withLevels levels) :=
  h.imp (fun boundary => boundary.withLevels levels) fun opcode => opcode.withLevels levels

theorem of_settle (h : Resetting .boundary [] r c) : Recovered r c.settle.state := by
  cases halt : c.inputs.active.halt with
  | true =>
    rw [settle_of_rest (h.move?_of_halted (Or.inr rfl) halt)]
    exact Or.inl h
  | false => exact Or.inr (h.settle_of_free halt)

/-- HALT holds it, or its next access fetches an opcode. -/
theorem prepare (h : Recovered r c) :
    Resetting .boundary [] r c ∧ c.inputs.active.halt = true ∨
      Resetting .execution [.cycle .fetchOpcode] r c.prepare.state := by
  rcases h with boundary | opcode
  · cases halt : c.inputs.active.halt with
    | true => exact Or.inl ⟨boundary, rfl⟩
    | false =>
      have fetch := boundary.settle_of_free halt
      rcases prepare_cases c with ⟨_, same⟩ | ⟨m, wake, _⟩
      · rw [same]
        exact Or.inr fetch
      · rw [wake?_of_pending fetch.consistent fetch.pending] at wake
        cases wake
  · rw [prepare_of_cycle opcode.consistent opcode.pending]
    exact Or.inr opcode

end Recovered

end Processor

/-- HALT as a reset sees it before its cycle `j`, on these lines: as it was two cycles before,
and in the first two cycles as it is in the first. -/
def haltAt (lines : List Levels) (j : Nat) : Bool := (lines.getD (j - 2) .low).halt

/-- So many reads without a valid address. -/
structure IdleReads (n : Nat) (made : List Transfer) : Prop where
  length : made.length = n
  idle : ∀ t ∈ made, t.access = .idle

theorem IdleReads.none : IdleReads 0 [] := ⟨rfl, fun _ mem => nomatch mem⟩

theorem IdleReads.cons {n : Nat} {made : List Transfer} (h : IdleReads n made) (byte : Byte) :
    IdleReads (n + 1) (⟨.idle, byte⟩ :: made) :=
  ⟨congrArg (· + 1) h.length, List.forall_mem_cons.2 ⟨rfl, h.idle⟩⟩

namespace Board

variable {β σ : Type} [Bus β] {m : Monitor σ} {r : RegisterFile}

/-- A move that is due may be made, and reported, ahead of the clock. -/
theorem clock_of_move (m : Monitor σ) {c : Processor} {move : Move} (bus : β) (notes : σ)
    (h : c.schedule.Consistent) (due : c.move? = some move) :
    clock m ⟨c, bus, notes⟩ = clock m ⟨move.landed, bus, m.hearAll notes move.reports⟩ := by
  have prepared := prepare_of_move h due
  simp only [clock, prepared, Monitor.hearAll, List.foldl_append]

/-- A reset begins before its first access. -/
theorem clock_of_reset (m : Monitor σ) {c : Processor} (bus : β) (notes : σ)
    (h : c.schedule.Consistent) (dry : c.schedule.pending = []) (phase : c.phase = .reset) :
    ∃ notes', clock m ⟨c, bus, notes⟩ = clock m ⟨c.beginReset, bus, notes'⟩ := by
  have due : c.move? = some { next := c.beginReset, reports := [.notice .resetBegun] } := by
    rw [move?_of_dry h dry, phaseMove?, phase]
  have ahead := clock_of_move m bus notes h due
  exact ⟨_, ahead⟩

/-- HALT holds a reset, or the boundary after it. -/
theorem clock_of_halted (m : Monitor σ) {b : Board β σ} {phase : Phase}
    (h : Resetting phase [] r b.cpu) (held : phase = .resetHold ∨ phase = .boundary)
    (halt : b.cpu.inputs.active.halt = true) :
    ∃ notes, clock m b = (.cycle, ⟨b.cpu.clocked, (Access.idle.perform b.bus).2, notes⟩) := by
  have prepared := h.prepare_of_halted held halt
  obtain ⟨_, notes, clocked⟩ := clock_of_dry m h.consistent (by rw [prepared]; exact h.pending)
  rw [prepared, idled_of_awake ?_] at clocked
  · exact ⟨notes, clocked⟩
  · rw [h.phase]
    rcases held with rfl | rfl <;> decide

/-- A step of the vector fetch, and the moves behind it. -/
theorem tick_of_fetch (m : Monitor σ) {c : Processor} {cycle : BusCycle} {ops : List MicroOp}
    (bus : β) (notes : σ) (h : Resetting .boundary (.cycle cycle :: ops) r c)
    (other : cycle ≠ .fetchOpcode) :
    ∃ notes', tick m ⟨c, bus, notes⟩ =
      ⟨(c.carryOut cycle ((cycle.access c).perform bus).1).settle.state,
        ((cycle.access c).perform bus).2, notes'⟩ :=
  ⟨_, congrArg Prod.snd (clock_of_cycle m bus notes h.consistent h.pending other)⟩

/-- Let go, it reads the high byte of the vector. -/
theorem tick_high (m : Monitor σ) {b : Board β σ} {high : Byte} {bus : β}
    (h : Resetting .resetHold [] r b.cpu) (free : b.cpu.inputs.active.halt = false)
    (read : (Access.read 0xFFFE).perform b.bus = (high, bus)) :
    ∃ c notes, tick m b = ⟨c, bus, notes⟩ ∧ Resetting .boundary vectorFetch.tail r c ∧
      c.ea = 0xFFFE ∧ Word.low c.data = high := by
  obtain ⟨release, due, ea, fetch⟩ := h.release free
  have access : BusCycle.access release.landed (.readPointer 0) = .read 0xFFFE := by
    rw [BusCycle.access, ea]
    rfl
  obtain ⟨notes, clocked⟩ := tick_of_fetch m b.bus (m.hearAll b.notes release.reports) fetch
    (by decide)
  have on := fetch.carryOut (by decide) high
  rw [access, read, settle_of_rest (move?_of_cycle on.consistent on.pending)] at clocked
  refine ⟨_, notes, ?_, on, ea, Word.low_shiftIn _ _⟩
  rw [← clocked]
  exact congrArg Prod.snd (clock_of_move m b.bus b.notes h.consistent due)

/-- Then the low byte, and goes there. -/
theorem tick_low (m : Monitor σ) {b : Board β σ} {high low : Byte} {bus : β}
    (h : Resetting .boundary vectorFetch.tail r b.cpu) (ea : b.cpu.ea = 0xFFFE)
    (data : Word.low b.cpu.data = high)
    (read : (Access.read 0xFFFF).perform b.bus = (low, bus)) :
    ∃ c notes, tick m b = ⟨c, bus, notes⟩ ∧
      Resetting .boundary [.cycle .dummy] { r with pc := Word.ofBytes high low } c := by
  have access : BusCycle.access b.cpu (.readPointer 1) = .read 0xFFFF := by
    rw [BusCycle.access, ea]
    rfl
  obtain ⟨notes, clocked⟩ := tick_of_fetch m b.bus b.notes h (by decide)
  have on := h.carryOut (by decide) low
  have jumped := on.jump
  rw [access, read, settle_of_cycle on.consistent (move?_of_action on.consistent on.pending)
    jumped.pending] at clocked
  refine ⟨_, notes, clocked, ?_⟩
  rw [← data]
  exact jumped

/-- Then one cycle more, and the reset is over. -/
theorem tick_last (m : Monitor σ) {b : Board β σ} {last : Byte} {bus : β}
    (h : Resetting .boundary [.cycle .dummy] r b.cpu)
    (read : Access.idle.perform b.bus = (last, bus)) :
    ∃ c notes, tick m b = ⟨c, bus, notes⟩ ∧ Recovered r c := by
  obtain ⟨notes, clocked⟩ := tick_of_fetch m b.bus b.notes h (by decide)
  have access : BusCycle.access b.cpu .dummy = .idle := rfl
  rw [access, read] at clocked
  exact ⟨_, notes, clocked, .of_settle (h.carryOut (by decide) _)⟩

variable {b : Board (Recorded β) σ}

/-- As long as HALT is seen the reset does not go on. Two levels of HALT are on their way
when it begins. -/
theorem clocks_held {lines : List Levels} (h : Resetting .resetHold [] r b.cpu)
    (held : ∀ j < lines.length, (b.cpu.inputs.active.halt :: b.cpu.inputs.latched.halt ::
      lines.map Levels.halt).getD j false = true) :
    ∃ idles, IdleReads lines.length idles ∧
      (clocks m lines b).bus.transfers.toList = b.bus.transfers.toList ++ idles ∧
      Resetting .resetHold [] r (clocks m lines b).cpu ∧
      (clocks m lines b).cpu.inputs.active.halt = (b.cpu.inputs.active.halt ::
        b.cpu.inputs.latched.halt :: lines.map Levels.halt).getD lines.length false := by
  induction lines generalizing b with
  | nil => exact ⟨[], .none, (List.append_nil _).symm, h, rfl⟩
  | cons levels lines ih =>
    have driven := h.withLevels levels
    have first : b.cpu.inputs.active.halt = true := held 0 (Nat.succ_pos _)
    obtain ⟨notes, clocked⟩ :=
      clock_of_halted m (b := b.withLevels levels) driven (Or.inl rfl) first
    obtain ⟨idles, reads, transfers, resetting, active⟩ := ih
      (b := ⟨(b.withLevels levels).cpu.clocked, (Access.idle.perform b.bus).2, notes⟩)
      driven.clocked fun j lt => held (j + 1) (Nat.succ_lt_succ lt)
    rw [clocks, tick, clocked]
    refine ⟨_, reads.cons (Access.idle.perform b.bus).1, ?_, resetting, active⟩
    refine transfers.trans ?_
    rw [Recorded.transfers_perform, List.append_assoc]
    rfl

/-- Let go, it reads the vector, in three cycles with any levels. -/
theorem clocks_released (first second third : Levels) (h : Resetting .resetHold [] r b.cpu)
    (free : b.cpu.inputs.active.halt = false) :
    ∃ high low last, (clocks m [first, second, third] b).bus.transfers.toList =
        b.bus.transfers.toList ++
          [⟨.read 0xFFFE, high⟩, ⟨.read 0xFFFF, low⟩, ⟨.idle, last⟩] ∧
      Recovered { r with pc := Word.ofBytes high low }
        (clocks m [first, second, third] b).cpu := by
  obtain ⟨high, bus₁, read₁⟩ : ∃ high bus, (Access.read 0xFFFE).perform b.bus = (high, bus) :=
    ⟨_, _, rfl⟩
  obtain ⟨low, bus₂, read₂⟩ : ∃ low bus, (Access.read 0xFFFF).perform bus₁ = (low, bus) :=
    ⟨_, _, rfl⟩
  obtain ⟨last, bus₃, read₃⟩ : ∃ last bus, Access.idle.perform bus₂ = (last, bus) := ⟨_, _, rfl⟩
  obtain ⟨c, notes, ticked₁, atLow, ea, data⟩ :=
    tick_high m (b := b.withLevels first) (h.withLevels first) free read₁
  obtain ⟨d, notes', ticked₂, atLast⟩ :=
    tick_low m (b := withLevels second ⟨c, bus₁, notes⟩) (atLow.withLevels second) ea data read₂
  obtain ⟨e, notes'', ticked₃, recovered⟩ :=
    tick_last m (b := withLevels third ⟨d, bus₂, notes'⟩) (atLast.withLevels third) read₃
  have clocked : clocks m [first, second, third] b = ⟨e, bus₃, notes''⟩ := by
    rw [clocks, ticked₁, clocks, ticked₂, clocks, ticked₃, clocks]
  rw [clocked]
  refine ⟨high, low, last, ?_, recovered⟩
  have made₁ := Recorded.transfers_perform (.read 0xFFFE) b.bus
  have made₂ := Recorded.transfers_perform (.read 0xFFFF) bus₁
  have made₃ := Recorded.transfers_perform .idle bus₂
  rw [read₁] at made₁
  rw [read₂, made₁] at made₂
  rw [read₃, made₂] at made₃
  rw [made₃, List.append_assoc, List.append_assoc]
  rfl

/-- After the reset, HALT holds the boundary for a while, and then an opcode is fetched. -/
theorem clocks_recovered (more : List Levels) (h : Recovered r b.cpu) :
    (∃ idles, IdleReads more.length idles ∧
        (clocks m more b).bus.transfers.toList = b.bus.transfers.toList ++ idles ∧
        Recovered r (clocks m more b).cpu) ∨
      ∃ front levels back idles, more = front ++ levels :: back ∧
        IdleReads front.length idles ∧
        (clocks m front b).bus.transfers.toList = b.bus.transfers.toList ++ idles ∧
        Resetting .execution [.cycle .fetchOpcode] r
          ((clocks m front b).withLevels levels).cpu.prepare.state := by
  induction more generalizing b with
  | nil => exact Or.inl ⟨[], .none, (List.append_nil _).symm, h⟩
  | cons levels more ih =>
    rcases (h.withLevels levels).prepare with ⟨boundary, halt⟩ | opcode
    · obtain ⟨notes, clocked⟩ :=
        clock_of_halted m (b := b.withLevels levels) boundary (Or.inr rfl) halt
      have next : tick m (b.withLevels levels) =
          ⟨(b.withLevels levels).cpu.clocked, (Access.idle.perform b.bus).2, notes⟩ := by
        rw [tick, clocked]
        rfl
      have made : ∀ idles : List Transfer,
          (Access.idle.perform b.bus).2.transfers.toList ++ idles =
            b.bus.transfers.toList ++ (⟨.idle, (Access.idle.perform b.bus).1⟩ :: idles) := by
        intro idles
        rw [Recorded.transfers_perform, List.append_assoc]
        rfl
      rcases ih (b := ⟨(b.withLevels levels).cpu.clocked, (Access.idle.perform b.bus).2, notes⟩)
        (Or.inl boundary.clocked) with
        ⟨idles, reads, transfers, recovered⟩ |
        ⟨front, at_, back, idles, rfl, reads, transfers, fetch⟩
      · refine Or.inl ⟨_, reads.cons (Access.idle.perform b.bus).1, ?_, ?_⟩
        · rw [clocks, next, transfers, made]
        · rw [clocks, next]
          exact recovered
      · refine Or.inr ⟨levels :: front, at_, back, _, rfl,
          reads.cons (Access.idle.perform b.bus).1, ?_, ?_⟩
        · rw [clocks, next, transfers, made]
        · rw [clocks, next]
          exact fetch
    · exact Or.inr ⟨[], levels, more, [], rfl, .none, (List.append_nil _).symm, opcode⟩

/-- The first cycle of a reset is one of a processor that it has begun for. -/
theorem clocks_reset (m : Monitor σ) (b : Board (Recorded β) σ) (levels : Levels)
    (more : List Levels) :
    ∃ begun : Board (Recorded β) σ,
      clocks m (levels :: more) { b with cpu := b.cpu.reset } = clocks m (levels :: more) begun ∧
      begun.bus = b.bus ∧
      Resetting .resetHold [] { b.cpu.regs with dp := 0, cc := b.cpu.regs.cc.maskAll } begun.cpu ∧
      begun.cpu.inputs.active.halt = levels.halt ∧
      begun.cpu.inputs.latched.halt = levels.halt := by
  let asked := b.cpu.reset.withLevels levels
  have consistent : asked.schedule.Consistent := Schedule.consistent_clear b.cpu.schedule
  obtain ⟨notes, begins⟩ :=
    clock_of_reset m b.bus b.notes consistent (Schedule.pending_clear _) rfl
  have resetting := asked.resetting_beginReset
  refine ⟨⟨asked.beginReset, b.bus, notes⟩, ?_, rfl, resetting, rfl, rfl⟩
  exact congrArg (fun outcome => clocks m more (Prod.snd outcome)) begins

end Board

/-- The levels of HALT that are on their way in the first cycle are the one it has there. -/
theorem haltAt_of_split {levels : Levels} {more front back : List Levels}
    (split : levels :: more = front ++ back) {j : Nat} (upTo : j ≤ front.length + 1) :
    (levels.halt :: levels.halt :: front.map Levels.halt).getD j false =
      haltAt (front ++ back) j := by
  match j with
  | 0 | 1 =>
    rw [haltAt, ← split]
    rfl
  | j + 2 =>
    have within : j < front.length := by omega
    simp [haltAt, List.getD_eq_getElem?_getD, List.getElem?_append_left within, within]

namespace Board

variable {β σ : Type} [Bus β]

/-- HALT holds the reset as long as it is seen. -/
theorem reset_held (m : Monitor σ) (b : Board (Recorded β) σ) {lines : List Levels}
    (held : ∀ j < lines.length, haltAt lines j = true) :
    (lines ≠ [] → (clocks m lines { b with cpu := b.cpu.reset }).cpu.inputs.active.halt =
      haltAt lines lines.length) ∧
    ∃ idles, IdleReads lines.length idles ∧
      (clocks m lines { b with cpu := b.cpu.reset }).bus.transfers.toList =
        b.bus.transfers.toList ++ idles := by
  cases lines with
  | nil => exact ⟨fun some => absurd rfl some, [], .none, (List.append_nil _).symm⟩
  | cons levels more =>
    obtain ⟨begun, same, bus, resetting, active, latched⟩ := clocks_reset m b levels more
    have upTo := fun j => haltAt_of_split (List.append_nil (levels :: more)).symm (j := j)
    rw [List.append_nil] at upTo
    have holds : ∀ j < (levels :: more).length, (begun.cpu.inputs.active.halt ::
        begun.cpu.inputs.latched.halt :: (levels :: more).map Levels.halt).getD j false = true := by
      intro j lt
      rw [active, latched, upTo j (by omega)]
      exact held j lt
    obtain ⟨idles, reads, transfers, _, halt⟩ := clocks_held (m := m) resetting holds
    rw [active, latched, upTo _ (by omega)] at halt
    rw [same]
    exact ⟨fun _ => halt, idles, reads, by rw [transfers, bus]⟩

/-- Once it is not, the vector is read. -/
theorem reset_released (m : Monitor σ) (b : Board (Recorded β) σ) (front : List Levels)
    (first second third : Levels)
    (held : ∀ j < front.length, haltAt (front ++ [first, second, third]) j = true)
    (free : haltAt (front ++ [first, second, third]) front.length = false) :
    ∃ idles high low last, IdleReads front.length idles ∧
      (clocks m (front ++ [first, second, third])
          { b with cpu := b.cpu.reset }).bus.transfers.toList =
        b.bus.transfers.toList ++ idles ++
          [⟨.read 0xFFFE, high⟩, ⟨.read 0xFFFF, low⟩, ⟨.idle, last⟩] ∧
      Recovered { b.cpu.regs with
          pc := Word.ofBytes high low, dp := 0, cc := b.cpu.regs.cc.maskAll }
        (clocks m (front ++ [first, second, third]) { b with cpu := b.cpu.reset }).cpu := by
  obtain ⟨levels, more, split⟩ : ∃ levels more, front ++ [first, second, third] = levels :: more :=
    List.exists_cons_of_ne_nil (by simp)
  obtain ⟨begun, same, bus, resetting, active, latched⟩ := clocks_reset m b levels more
  have upTo := fun j => haltAt_of_split split.symm (j := j)
  have holds : ∀ j < front.length, (begun.cpu.inputs.active.halt ::
      begun.cpu.inputs.latched.halt :: front.map Levels.halt).getD j false = true := by
    intro j lt
    rw [active, latched, upTo j (by omega)]
    exact held j lt
  obtain ⟨idles, reads, transfers, waits, halt⟩ := clocks_held (m := m) resetting holds
  rw [active, latched, upTo _ (by omega), free] at halt
  obtain ⟨high, low, last, made, recovered⟩ :=
    clocks_released (m := m) first second third waits halt
  rw [← split] at same
  rw [same, clocks_append]
  exact ⟨idles, high, low, last, reads, by rw [made, transfers, bus], recovered⟩

end Board

/-- **A reset recovers the processor from any state.** On any bus, with any levels in every
cycle and under any monitor: as long as HALT is seen there are idle reads only, then the
vector is read, and one cycle later the processor has its registers, but for PC, DP and the
masks, and no NMI is known. From there on there are idle reads, until an opcode is fetched
at PC. Whatever happens, no frame is begun and no vector taken before it, and if NMI is served
later, an edge was seen after it. -/
theorem reset_recovers {β σ : Type} [Bus β] (m : Monitor σ) (b : Board (Recorded β) σ) :
    let start : Board (Recorded β) σ := { b with cpu := b.cpu.reset }
    b.cpu.reset.reset = b.cpu.reset ∧
    (∀ lines : List Levels, (∀ j < lines.length, haltAt lines j = true) →
      (lines ≠ [] →
        (Board.clocks m lines start).cpu.inputs.active.halt = haltAt lines lines.length) ∧
      ∃ idles, IdleReads lines.length idles ∧
        (Board.clocks m lines start).bus.transfers.toList = b.bus.transfers.toList ++ idles) ∧
    (∀ (front : List Levels) (first second third : Levels),
      (∀ j < front.length, haltAt (front ++ [first, second, third]) j = true) →
      haltAt (front ++ [first, second, third]) front.length = false →
      ∃ idles high low last after,
        after = Board.clocks m (front ++ [first, second, third]) start ∧
        IdleReads front.length idles ∧
        after.bus.transfers.toList = b.bus.transfers.toList ++ idles ++
          [⟨.read 0xFFFE, high⟩, ⟨.read 0xFFFF, low⟩, ⟨.idle, last⟩] ∧
        after.cpu.regs = { b.cpu.regs with
          pc := Word.ofBytes high low, dp := 0, cc := b.cpu.regs.cc.maskAll } ∧
        after.cpu.inputs.Disarmed ∧
        ∀ more, (∃ idles', IdleReads more.length idles' ∧
            (Board.clocks m more after).bus.transfers.toList =
              after.bus.transfers.toList ++ idles' ∧
            (Board.clocks m more after).cpu.regs = after.cpu.regs) ∨
          ∃ still levels rest idles' c, more = still ++ levels :: rest ∧
            IdleReads still.length idles' ∧
            (Board.clocks m still after).bus.transfers.toList =
              after.bus.transfers.toList ++ idles' ∧
            c = ((Board.clocks m still after).withLevels levels).cpu.prepare.state ∧
            c.due? = some .fetchOpcode ∧ c.page = 0 ∧ c.regs = after.cpu.regs ∧
            c.access = .read (Word.ofBytes high low)) ∧
    (∀ lines, ∃ past, Board.Past m linesOnly start past (Board.clocks m lines start)) ∧
    ∀ past d, Path linesOnly b.cpu.reset past d → ∀ front o back, past = front ++ o :: back →
      ((∃ which, o.Takes which) ∨ (∃ interrupt, o.Begins interrupt) →
        ∃ f ∈ front, f.opcodes = 1) ∧
      (o.Takes .nmi → ∃ early f mid edge late, front = early ++ f :: (mid ++ edge :: late) ∧
        f.opcodes = 1 ∧ edge.SeesEdge) := by
  intro start
  refine ⟨rfl, fun lines => Board.reset_held m b, ?_, ?_, ?_⟩
  · intro front first second third held free
    obtain ⟨idles, high, low, last, reads, transfers, recovered⟩ :=
      Board.reset_released m b front first second third held free
    refine ⟨idles, high, low, last, _, rfl, reads, transfers, recovered.regs,
      recovered.deaf.disarmed, fun more => ?_⟩
    rcases Board.clocks_recovered (m := m) more recovered with
      ⟨idles', reads', transfers', still⟩ |
      ⟨still, levels, rest, idles', split, reads', transfers', fetch⟩
    · exact Or.inl ⟨idles', reads', transfers', still.regs.trans recovered.regs.symm⟩
    · have due := Processor.due?_of_cycle fetch.consistent fetch.pending
      refine Or.inr ⟨still, levels, rest, idles', _, split, reads', transfers', rfl, due,
        fetch.page, fetch.regs.trans recovered.regs.symm, ?_⟩
      rw [Processor.access, due]
      exact congrArg (fun r => Access.read (RegisterFile.pc r)) fetch.regs
  · intro lines
    exact Board.past_clocks m (fun _ => trivial) lines start (Schedule.consistent_clear _)
  · rintro past d path front o back rfl
    exact path.interrupts_after_reset

/-- Locked behind a page selection, with steps pending and an edge of NMI known. -/
def lockedProcessor : Processor :=
  { Processor.powerOn with
    regs :=
      { d := 0x1122, x := 0x3344, y := 0x5566, u := 0x7788, s := 0x2000, pc := 0x99AA, dp := 0x55
        cc := .ofByte 0x8F }
    inputs := ⟨.low, ⟨false, true, true, true⟩, ⟨false, true, true, true⟩, true, true⟩
    phase := .locked
    schedule := Schedule.empty.extend [.cycle .writePc, .action .operate]
    page := 3 }

/-- HALT is high in one cycle, and so the reset is held for three, after which the vector is read.
Later there is a pulse on NMI, and it is served. -/
theorem reset_recovers_locked :
    let b : Board (Recorded Ram) (List Notice) := { waitingBoard with cpu := lockedProcessor }
    let held : List Levels := [{ Levels.low with halt := true }, .low, .low]
    (∃ (after : Board (Recorded Ram) (List Notice)) (idles : List Transfer),
      after = Board.clocks .logging (held ++ [.low, .low, .low]) { b with cpu := b.cpu.reset } ∧
      IdleReads 3 idles ∧
      after.bus.transfers.toList = idles ++
        [⟨.read 0xFFFE, 0x10⟩, ⟨.read 0xFFFF, 0x00⟩, ⟨.idle, 0x00⟩] ∧
      after.cpu.regs = { lockedProcessor.regs with pc := 0x1000, dp := 0, cc := .ofByte 0xDF } ∧
      after.cpu.inputs.Disarmed) ∧
    ∃ past d front o back, Path linesOnly b.cpu.reset past d ∧ past = front ++ o :: back ∧
      o.Takes .nmi ∧ ∃ f ∈ front, f.opcodes = 1 := by
  intro b held
  refine ⟨?_, ?_⟩
  · obtain ⟨idles, high, low, last, after, ran, reads, transfers, regs, disarmed, _⟩ :=
      (reset_recovers .logging b).2.2.1 held .low .low .low (by decide) (by decide)
    have seen : (Board.clocks .logging (held ++ [.low, .low, .low])
        { b with cpu := b.cpu.reset }).bus.transfers.toList.drop 3 =
          [⟨.read 0xFFFE, 0x10⟩, ⟨.read 0xFFFF, 0x00⟩, ⟨.idle, 0x00⟩] := by
      decide +kernel
    have three : (b.bus.transfers.toList ++ idles).length = 3 := reads.length
    rw [← ran, transfers, List.drop_left' three] at seen
    simp only [List.cons.injEq, Transfer.mk.injEq] at seen
    obtain ⟨⟨_, rfl⟩, ⟨_, rfl⟩, ⟨_, rfl⟩, _⟩ := seen
    exact ⟨after, idles, ran, reads, transfers, regs.trans (by decide), disarmed⟩
  · let lines : List Levels := { Levels.low with halt := true } :: List.replicate 12 .low ++
      { Levels.low with nmi := true } :: List.replicate 22 .low
    have log : (Board.clocks .logging lines { b with cpu := b.cpu.reset }).notes =
        [.resetBegun, .resetReleased] ++ .vectorTaken .nmi 0x1006 :: [] := by decide +kernel
    have consistent : b.cpu.reset.schedule.Consistent := Schedule.consistent_clear _
    obtain ⟨past, happened⟩ := (reset_recovers .logging b).2.2.2.1 lines
    have noted := happened.notes_logging consistent
    rw [log] at noted
    obtain ⟨front, o, back, split, line, _⟩ := exists_of_noted noted.symm
    have taken := Occurrence.takes_of_notice? line
    exact ⟨past, _, front, o, back, happened.path, split, taken,
      ((reset_recovers .logging b).2.2.2.2 past _ happened.path front o back split).1
        (Or.inl ⟨_, taken⟩)⟩

end Sim6809
