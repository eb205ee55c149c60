/-
SYNC: a wait that leaves everything as it was, and goes on where the program does.

The wait has two phases, with HALT and without, and one way out of them. Every clock of it is
an idle read; the levels that are active after that read decide which phase is next, and
nothing else does (`InSync.phase_idled`). They are decided upon twice when an interrupt ends
the wait: once for leaving it, where masks do not count, and again before the next access,
where they do. No level moves on in between, and that is why what is recognised then can be
told from the state in which the wait was left (`Board.goesOn`).
-/
import Sim6809.Proofs.InterruptEntry
import Sim6809.Proofs.Scratch

set_option autoImplicit false

namespace Sim6809

variable {σ : Type} {r : RegisterFile}

/-! ## One cycle of the wait -/

/-- An edge of NMI stays latched from one cycle to the next. -/
theorem Inputs.latched_nmi_cycle {i : Inputs} (set : i.latched.nmi = true) :
    i.cycle.latched.nmi = true := by
  simp [Inputs.cycle, Inputs.activate, Inputs.latch, set]

namespace Processor

/-- SYNC waits, with HALT or without. -/
def InSync (c : Processor) : Prop := c.phase = .syncWait ∨ c.phase = .syncHold

instance (c : Processor) : Decidable c.InSync := inferInstanceAs (Decidable (_ ∨ _))

theorem InSync.rank {c : Processor} (sync : c.InSync) : c.phase.rank = 0 := by
  rcases sync with phase | phase <;> rw [phase] <;> rfl

theorem InSync.wake? {c : Processor} (sync : c.InSync) : c.wake? = none := by
  refine wake?_of_phase ?_
  rcases sync with phase | phase <;> rw [phase] <;> decide

theorem inputs_idled (c : Processor) : c.idled.state.inputs = c.inputs.cycle := by
  rw [idled_eq]

/-- The wait is left for any interrupt input, masked or not, but not while it is held. -/
theorem InSync.phase_idled {c : Processor} (sync : c.InSync) :
    c.idled.state.phase =
      if c.phase = .syncWait ∧ c.idled.state.inputs.active.interrupting = true then .arbitration
      else if c.idled.state.inputs.active.halt then .syncHold else .syncWait := by
  rw [inputs_idled]
  rcases sync with phase | phase
  · simp only [idled, clocked, phase, true_and]
    split
    · rfl
    · split <;> rfl
  · simp only [idled, clocked, phase, reduceCtorEq, false_and, if_false]
    split <;> rfl

end Processor

namespace Board

variable {m : Monitor σ} {b : Board Memory σ}

/-- A clock of the wait: an idle read, and the levels it makes active decide how to go on. -/
theorem tick_of_sync (m : Monitor σ) (h : b.cpu.Dry b.cpu.phase r) (sync : b.cpu.InSync)
    (levels : Levels) :
    (b.withLevels levels).cpu.ready.access = .idle ∧
      (clock m (b.withLevels levels)).1 = .cycle ∧
      (tick m (b.withLevels levels)).cpu = (b.cpu.withLevels levels).idled.state ∧
      (tick m (b.withLevels levels)).bus.peek = b.bus.peek := by
  have driven : (b.withLevels levels).cpu.Dry b.cpu.phase r := h.withLevels levels
  have asleep : (b.withLevels levels).cpu.wake? = none :=
    Processor.InSync.wake? (c := b.cpu.withLevels levels) sync
  obtain ⟨access, notes, clocked⟩ := driven.clock m sync.rank asleep
  rw [tick, clocked]
  exact ⟨access, rfl, rfl, rfl⟩

/-- As long as the wait goes on it changes nothing, and forgets no edge of NMI. -/
theorem clocks_of_sync (m : Monitor σ) (h : b.cpu.Dry b.cpu.phase r) (lines : List Levels)
    (waits : ∀ k ≤ lines.length, (clocks m (lines.take k) b).cpu.InSync) :
    (clocks m lines b).cpu.Dry (clocks m lines b).cpu.phase r ∧
      (clocks m lines b).bus.peek = b.bus.peek ∧
      ∀ k ≤ lines.length, (clocks m (lines.take k) b).cpu.inputs.latched.nmi = true →
        (clocks m lines b).cpu.inputs.latched.nmi = true := by
  induction lines generalizing b with
  | nil => exact ⟨h, rfl, fun k _ set => by rwa [List.take_nil] at set⟩
  | cons levels lines ih =>
    obtain ⟨_, _, cpu, same⟩ := tick_of_sync m h (waits 0 (Nat.zero_le _)) levels
    have dry : (tick m (b.withLevels levels)).cpu.Dry
        (tick m (b.withLevels levels)).cpu.phase r := by
      rw [cpu]
      exact (h.withLevels levels).idled
    obtain ⟨stays, contents, edge⟩ := ih dry fun k le => waits (k + 1) (Nat.succ_le_succ le)
    refine ⟨stays, contents.trans same, fun k le set => ?_⟩
    cases k with
    | zero =>
      refine edge 0 (Nat.zero_le _) ?_
      change (tick m (b.withLevels levels)).cpu.inputs.latched.nmi = true
      rw [cpu, Processor.inputs_idled]
      exact Inputs.latched_nmi_cycle set
    | succ k => exact edge k (Nat.le_of_succ_le_succ le) set

end Board

/-! ## Into the wait -/

/-- SYNC fetched, the wait begins a cycle later. -/
theorem Encodes.waits_of_sync {m : Monitor σ} (proceeds : m.Proceeds) {c : Processor}
    (mem : Memory) (notes : σ) {n : Nat} (start : c.AtOpcode 0)
    (encoded : Encodes mem.peek 0 c.regs.pc n ⟨.sync, .inherent⟩) {lines : List Levels}
    (length : lines.length = n + 1) :
    (Board.clocks m lines ⟨c, mem, notes⟩).cpu.Dry .syncWait
        { c.regs with pc := c.regs.pc + UInt16.ofNat n } ∧
      (Board.clocks m lines ⟨c, mem, notes⟩).bus.peek = mem.peek := by
  obtain ⟨front, last, rfl, first, second⟩ := exists_append_of_length length
  obtain ⟨d, mem', notes', fetch, decoded, same, _⟩ :=
    encoded.runs proceeds mem notes start rfl rfl first
  have straight : Straight d.instruction [.cycle .peekPc] := by
    simp [Straight, MicroOp.straight, MicroOp.queues]
  have headed := Headed.start mem'.peek [.action (.enter .syncWait)] decoded.consistent
    decoded.pending straight
  obtain ⟨e, mem'', notes'', runs, done, stays⟩ := headed.runs m notes' second
  obtain ⟨pending, alike⟩ := done.nothingLeft
  obtain ⟨due, dry⟩ := Processor.Dry.enter .syncWait done.consistent
    (stays.page.trans decoded.page) pending (alike.regs.trans decoded.regs)
  rw [Board.clocks_append, fetch.clocks_eq, runs.clocks_eq,
    Board.settled_of_move done.consistent due, Board.settled_of_rest (dry.move? rfl)]
  exact ⟨dry, alike.ram.trans same⟩

/-! ## Out of it -/

/-- How a board goes on after the wait. With nothing recognised the next access is the opcode
fetch at PC, and nothing is stacked; otherwise it is the first one of the frame of the
interrupt recognised, which will be in memory when all of them are made. -/
def Board.GoesOn (m : Monitor σ) (r : RegisterFile) (ram : Ram) (b : Board Memory σ) :
    Option HardwareInterrupt → Prop
  | none => ∀ levels, (b.withLevels levels).cpu.ready.AtOpcode 0 ∧
      (b.withLevels levels).cpu.ready.access = .read r.pc ∧
      (b.withLevels levels).cpu.ready.regs = r ∧ b.bus.peek = ram
  | some interrupt =>
    (∀ levels, (b.withLevels levels).cpu.ready.access = .read r.pc ∧
      (b.withLevels levels).cpu.ready.schedule.pending =
        [.cycle .peekPc, .cycle .peekPc] ++ Frame.program interrupt.stacksEntire ∧
      (b.withLevels levels).cpu.ready.regs = r ∧ b.bus.peek = ram) ∧
    ∀ lines : List Levels, lines.length = 3 + Frame.size interrupt.stacksEntire →
      (Board.clocks m lines b).bus.peek = Frame.memory interrupt.stacksEntire r ram

namespace Processor

variable {c : Processor}

/-- With nothing recognised an opcode fetch is due. -/
theorem Dry.ready_of_unasked (h : Dry .arbitration r c)
    (unasked : HardwareInterrupt.recognised c.inputs.active r.cc = none) :
    c.ready.AtOpcode 0 ∧ c.ready.access = .read r.pc ∧ c.ready.regs = r := by
  rw [← h.regs] at unasked
  obtain ⟨settled, pending⟩ := settle_of_unasked h.consistent h.pending h.phase unasked
  generalize fetching : ({ c with
    phase := .execution, schedule := c.schedule.extend [.cycle .fetchOpcode] } : Processor) = d at *
  have start : d.AtOpcode 0 := by
    rw [← fetching]
    exact ⟨h.consistent.extend _, pending, rfl, h.page⟩
  have asleep : d.wake? = none := wake?_of_pending start.consistent start.pending
  have ready : c.ready = d.announce := by
    simp only [ready, prepare, settled, asleep]
  have fetch : c.ready.AtOpcode 0 := by
    rw [ready, announce_eq]
    exact ⟨start.consistent, start.pending, start.phase, start.page⟩
  have regs : c.ready.regs = r := by
    rw [ready, announce_eq, ← fetching]
    exact h.regs
  refine ⟨fetch, ?_, regs⟩
  rw [access, due?_of_cycle fetch.consistent fetch.pending]
  exact congrArg (fun q : RegisterFile => Access.read q.pc) regs

theorem interrupted_withLevels (c : Processor) (interrupt : HardwareInterrupt) (levels : Levels) :
    (c.withLevels levels).interrupted interrupt = (c.interrupted interrupt).withLevels levels := by
  simp only [interrupted, withLevels, drive]

/-- Otherwise the frame of that interrupt is. -/
theorem Dry.prepare_of_asked (h : Dry .arbitration r c) {interrupt : HardwareInterrupt}
    (asked : HardwareInterrupt.recognised c.inputs.active r.cc = some interrupt) :
    c.prepare = { state := c.interrupted interrupt } ∧
      (c.interrupted interrupt).schedule.pending =
        [.cycle .peekPc, .cycle .peekPc] ++ Frame.program interrupt.stacksEntire := by
  rw [← h.regs] at asked
  obtain ⟨settled, pending⟩ := settle_of_asked h.consistent h.pending h.phase asked
  have scheduled := consistent_interrupted h.consistent interrupt
  refine ⟨?_, pending⟩
  simp only [prepare, settled, wake?_of_pending scheduled pending]

end Processor

namespace Board

variable {m : Monitor σ} {b : Board Memory σ} {interrupt : HardwareInterrupt}

/-- What is prepared without a report may be taken for the processor. -/
theorem tick_of_prepare {β : Type} [Bus β] (m : Monitor σ) {c d : Processor} (bus : β) (notes : σ)
    (h : c.schedule.Consistent) (prepared : c.prepare = { state := d }) :
    tick m ⟨c, bus, notes⟩ = tick m ⟨d, bus, notes⟩ := by
  have clocked := clock_prepared m bus notes h
  rw [prepared] at clocked
  exact congrArg Prod.snd clocked.symm

/-- So the clocks after the wait go by the frame scheduled. -/
theorem clocks_of_asked (h : b.cpu.Dry .arbitration r)
    (asked : HardwareInterrupt.recognised b.cpu.inputs.active r.cc = some interrupt)
    {lines : List Levels} (some : 0 < lines.length) :
    clocks m lines b = clocks m lines ⟨b.cpu.interrupted interrupt, b.bus, b.notes⟩ := by
  obtain ⟨levels, more, rfl⟩ := List.exists_cons_of_length_pos some
  have driven := h.withLevels levels
  have same := tick_of_prepare m b.bus b.notes driven.consistent (driven.prepare_of_asked asked).1
  rw [Processor.interrupted_withLevels] at same
  exact congrArg (clocks m more) same

/-- Left, the wait is followed by what the levels ask for that ended it. -/
theorem goesOn (m : Monitor σ) (h : b.cpu.Dry .arbitration r) :
    b.GoesOn m r b.bus.peek (HardwareInterrupt.recognised b.cpu.inputs.active r.cc) := by
  cases asked : HardwareInterrupt.recognised b.cpu.inputs.active r.cc with
  | none =>
    intro levels
    obtain ⟨fetch, access, regs⟩ := (h.withLevels levels).ready_of_unasked asked
    exact ⟨fetch, access, regs, rfl⟩
  | some interrupt =>
    refine ⟨fun levels => ?_, fun lines length => ?_⟩
    · obtain ⟨prepared, pending⟩ := (h.withLevels levels).prepare_of_asked asked
      have due := Processor.due?_of_cycle
        (Processor.consistent_interrupted (h.withLevels levels).consistent interrupt) pending
      have unasked : ((b.cpu.withLevels levels).interrupted interrupt).asksFirst = false := by
        simp [Processor.asksFirst, due]
      have ready : (b.withLevels levels).cpu.ready =
          (b.cpu.withLevels levels).interrupted interrupt := by
        change (b.cpu.withLevels levels).prepare.state.announce = _
        rw [prepared, Processor.announce_of_unasked unasked]
      rw [ready, Processor.access, due]
      exact ⟨congrArg (fun q : RegisterFile => Access.read q.pc) h.regs, pending, h.regs, rfl⟩
    · obtain ⟨_, pending⟩ := h.prepare_of_asked asked
      obtain ⟨goal, headed, leaves⟩ := headed_interrupted b.bus.peek h.consistent pending
      have cycles : lines.length = List.countP (·.usesBus)
          (.cycle .peekPc :: .cycle .peekPc :: Frame.program interrupt.stacksEntire) := by
        rw [length]
        cases interrupt <;> rfl
      obtain ⟨d, mem, notes, runs, done, _⟩ := headed.runs m b.notes cycles
      rw [settled_of_rest (Processor.move?_of_cycle headed.consistent headed.pending)] at runs
      rw [clocks_of_asked h asked (by omega), runs.clocks_eq]
      have sees := congrArg Prod.snd (done.nothingLeft.2.seen.trans leaves)
      rw [h.regs] at sees
      exact sees

end Board

/-- **SYNC waits without side effects, and the program goes on behind it.** From the cycle
after its opcode on, whatever the lines do, each cycle of the wait is an idle read that leaves
registers and memory as they are. The levels that are active after that read decide on the
phase, and out of the wait leads only an interrupt input, from the phase without HALT and
always from there. An edge of NMI that is latched stays latched. On the way out the next access
is the opcode fetch behind SYNC if nothing is recognised, or else the first one of the frame of
the interrupt that is, which will hold the address behind SYNC. -/
theorem sync_waits_and_resumes {m : Monitor σ} (proceeds : m.Proceeds) {c : Processor}
    (mem : Memory) (notes : σ) {n : Nat} (start : c.AtOpcode 0)
    (encoded : Encodes mem.peek 0 c.regs.pc n ⟨.sync, .inherent⟩) {entry : List Levels}
    (length : entry.length = n + 1) :
    let r := { c.regs with pc := c.regs.pc + UInt16.ofNat n }
    let after := fun lines => Board.clocks m (entry ++ lines) ⟨c, mem, notes⟩
    (after []).cpu.phase = .syncWait ∧
    ∀ waited, (∀ k ≤ waited.length, (after (waited.take k)).cpu.InSync) → ∀ levels,
      let b := after waited
      let d := after (waited ++ [levels])
      (b.cpu.regs = r ∧ b.bus.peek = mem.peek) ∧
      ((b.withLevels levels).cpu.ready.access = .idle ∧
        (Board.clock m (b.withLevels levels)).1 = .cycle ∧
        d.cpu.regs = r ∧ d.bus.peek = mem.peek) ∧
      (∀ k ≤ waited.length, (after (waited.take k)).cpu.inputs.latched.nmi = true →
        d.cpu.inputs.latched.nmi = true) ∧
      (d.cpu.phase =
        if b.cpu.phase = .syncWait ∧ d.cpu.inputs.active.interrupting = true then .arbitration
        else if d.cpu.inputs.active.halt then .syncHold else .syncWait) ∧
      (d.cpu.phase = .arbitration →
        d.GoesOn m r mem.peek (HardwareInterrupt.recognised d.cpu.inputs.active r.cc)) := by
  intro r after
  obtain ⟨begun, contents⟩ := encoded.waits_of_sync proceeds mem notes start length
  have after_nil : after [] = Board.clocks m entry ⟨c, mem, notes⟩ := by
    simp only [after, List.append_nil]
  have after_eq : ∀ lines, after lines = Board.clocks m lines (after []) := by
    intro lines
    rw [after_nil]
    exact Board.clocks_append m entry lines _
  rw [← after_nil] at begun contents
  have dry : (after []).cpu.Dry (after []).cpu.phase r := by
    rw [begun.phase]
    exact begun
  refine ⟨begun.phase, fun waited waits levels => ?_⟩
  intro b d
  have sync : b.cpu.InSync := by
    have last := waits waited.length (Nat.le_refl _)
    rw [List.take_length] at last
    exact last
  obtain ⟨stays, same, kept⟩ := Board.clocks_of_sync m dry waited (by
    intro k le
    rw [← after_eq]
    exact waits k le)
  rw [← after_eq] at stays same kept
  obtain ⟨access, made, cpu, unchanged⟩ := Board.tick_of_sync m stays sync levels
  have next : d = Board.tick m (b.withLevels levels) := by
    change after (waited ++ [levels]) = _
    rw [after_eq, Board.clocks_append, ← after_eq]
    rfl
  rw [← next] at cpu unchanged
  have onward : d.cpu.Dry d.cpu.phase r := by
    rw [cpu]
    exact (stays.withLevels levels).idled
  have phase := Processor.InSync.phase_idled (c := b.cpu.withLevels levels) sync
  rw [← cpu] at phase
  have still : d.bus.peek = mem.peek := unchanged.trans (same.trans contents)
  refine ⟨⟨stays.regs, same.trans contents⟩, ⟨access, made, onward.regs, still⟩, ?_, phase, ?_⟩
  · intro k le set
    rw [after_eq] at set
    rw [cpu, Processor.inputs_idled]
    exact Inputs.latched_nmi_cycle (i := (b.cpu.withLevels levels).inputs) (kept k le set)
  · intro left
    rw [left] at onward
    rw [← still]
    exact Board.goesOn m onward

/-- A SYNC at `$1000`, with IRQ masked. -/
def maskedSync : Processor :=
  Processor.setPc { Processor.powerOn with
    regs := { RegisterFile.powerOn with s := 0x8000, cc := .ofByte 0x10 } } 0x1000

/-- HALT holds the wait, and IRQ, which is masked, ends it once HALT is gone. -/
theorem sync_waits_and_resumes_masked :
    ∃ d : Board Memory Unit,
      d = Board.clocks .silent ([.low, { Levels.low with halt := true }] ++
        List.replicate 3 { Levels.low with irq := true })
          ⟨maskedSync, Memory.blank.poke 0x1000 0x13, ()⟩ ∧
      d.cpu.phase = .arbitration ∧ d.cpu.inputs.active.irq = true ∧
      ∀ levels, (d.withLevels levels).cpu.ready.access = .read 0x1001 ∧
        (d.withLevels levels).cpu.ready.AtOpcode 0 := by
  let mem := Memory.blank.poke 0x1000 0x13
  let irq : Levels := { Levels.low with irq := true }
  let entry : List Levels := [.low, { Levels.low with halt := true }]
  have opcode : mem.peek 0x1000 = 0x13 := Memory.peek_poke_self _ _ _
  have sync : Instruction.decode 0 (mem.peek 0x1000) = ⟨.sync, .inherent⟩ := by
    rw [opcode]
    decide
  have encoded : Encodes mem.peek 0 0x1000 1 ⟨.sync, .inherent⟩ :=
    .of_decode sync (by rintro _ ⟨⟩)
  have start : maskedSync.AtOpcode 0 := Processor.atOpcode_setPc _ _
  obtain ⟨_, waits⟩ := sync_waits_and_resumes (m := .silent) (fun _ _ => rfl) mem () start
    encoded (show entry.length = 1 + 1 from rfl)
  have left : (Board.clocks .silent (entry ++ ([irq, irq] ++ [irq]))
      ⟨maskedSync, mem, ()⟩).cpu.phase = .arbitration := by
    decide +kernel
  have active : (Board.clocks .silent (entry ++ ([irq, irq] ++ [irq]))
      ⟨maskedSync, mem, ()⟩).cpu.inputs.active = irq := by
    decide +kernel
  obtain ⟨_, _, _, _, resumes⟩ := waits [irq, irq] (by decide +kernel) irq
  dsimp only at resumes
  generalize board : Board.clocks .silent (entry ++ ([irq, irq] ++ [irq]))
    ⟨maskedSync, mem, ()⟩ = d at left active resumes
  have next := resumes left
  rw [active, show HardwareInterrupt.recognised irq _ = none by decide] at next
  refine ⟨d, board.symm, left, congrArg Levels.irq active, fun levels => ?_⟩
  obtain ⟨fetch, access, _⟩ := next levels
  exact ⟨access, fetch⟩

end Sim6809
