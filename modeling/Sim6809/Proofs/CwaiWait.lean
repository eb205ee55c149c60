/-
CWAI: the frame is stacked first, and the interrupt finds it there.

Whom to serve is decided at the end of the last push, and if there is nobody, at the start of
every cycle of the wait. The two decisions differ in what they look at, and in that HALT puts
off the second one, but not in what comes of them (`Board.Dispatched`): with nobody the
processor waits, or goes on waiting, and otherwise it takes the vector. Whichever interrupt it
is, the frame below S is the one that CWAI has stacked, and it is the only one.
-/
import Sim6809.Proofs.History
import Sim6809.Proofs.InterruptReturn

set_option autoImplicit false

namespace Sim6809

variable {σ : Type} {r : RegisterFile} {ram : Ram}

/-! ## What is stacked -/

/-- The registers that a CWAI of `n` opcode bytes stacks: PC behind its operand, and the flags
that the operand keeps. -/
def RegisterFile.awaiting (r : RegisterFile) (n : Nat) (operand : Byte) : RegisterFile :=
  { r with pc := r.pc + UInt16.ofNat n + 1, cc := r.cc.keep operand }

/-- The flags as a byte, with E set. -/
theorem ConditionCodes.toByte_entire (cc : ConditionCodes) :
    ({ cc with entire := true } : ConditionCodes).toByte = cc.toByte ||| 0x80 := by
  obtain ⟨e, f, h, i, n, z, v, c⟩ := cc
  revert e f h i n z v c
  decide

/-- In front of the frame the operand is fetched and applied. -/
theorem enact_cwai {c : Processor} (cwai : c.instruction = ⟨.cwai, .immediate⟩) (ram : Ram) :
    seen (enactAll [.cycle .fetchOperand, .action .operate, .cycle .peekPc] (c, ram)) =
      ({ c.regs with pc := c.regs.pc + 1, cc := c.regs.cc.keep (ram c.regs.pc) }, ram) := by
  have fetched : MicroOp.enact (.cycle .fetchOperand) (c, ram) =
      ({ c.stepPc with data := Word.shiftIn c.data (ram c.regs.pc) }, ram) := rfl
  have operated : MicroOp.enact (.action .operate)
      ({ c.stepPc with data := Word.shiftIn c.data (ram c.regs.pc) }, ram) =
        (Processor.setFlags { c.stepPc with data := Word.shiftIn c.data (ram c.regs.pc) }
          (c.regs.cc.keep (Word.low (Word.shiftIn c.data (ram c.regs.pc)))), ram) := by
    have op : c.stepPc.instruction.op = .cwai := congrArg Instruction.op cwai
    simp only [MicroOp.enact, Processor.act, Processor.effect, op]
    rfl
  rw [enactAll, fetched, enactAll, operated, Word.low_shiftIn]
  rfl

/-- Stacking a frame, as a program sees it. -/
theorem seen_frame (entire : Bool) (sight : Processor × Ram) :
    seen (enactAll (Frame.program entire) sight) =
      (Frame.stacked entire (seen sight).1, Frame.memory entire (seen sight).1 (seen sight).2) := by
  obtain ⟨c, ram⟩ := sight
  exact congrArg seen (enact_frame entire c ram)

/-- All of CWAI but its last push. -/
def cwaiFront : List MicroOp :=
  [.cycle .fetchOperand, .action .operate, .cycle .peekPc] ++ (Frame.program true).dropLast

/-- Decoded, CWAI stacks its frame. -/
theorem Processor.Decoded.headed_cwai {c : Processor} {regs : RegisterFile}
    (h : c.Decoded ⟨.cwai, .immediate⟩ regs) (ram : Ram) :
    let q := { regs with pc := regs.pc + 1, cc := regs.cc.keep (ram regs.pc) }
    ∃ goal, Headed goal (cwaiFront ++ [.cycle (.push .s .cc)]) [.action (.enter .dispatch)]
        c ram ∧
      seen goal = (Frame.stacked true q, Frame.memory true q ram) := by
  intro q
  have whole : cwaiFront ++ [.cycle (.push .s .cc)] =
      [.cycle .fetchOperand, .action .operate, .cycle .peekPc] ++ Frame.program true := rfl
  have straight : Straight c.instruction (cwaiFront ++ [.cycle (.push .s .cc)]) := by
    rw [whole, h.instruction]
    exact (show Straight _ [.cycle .fetchOperand, .action .operate, .cycle .peekPc] by
      simp [Straight, MicroOp.straight, MicroOp.queues]).append (straight_frame _ true)
  have begun := enact_cwai h.instruction ram
  rw [h.regs] at begun
  refine ⟨_, Headed.start ram _ h.consistent h.pending straight, ?_⟩
  rw [whole, enactAll_append, seen_frame, begun]

/-! ## Whom to serve -/

/-- What a clock leads to in which that is decided. With nobody to serve, the processor waits
with the frame of `r` stacked. Otherwise it has taken the vector, which raises masks and does
nothing else, and in the cycles that are still scheduled it goes to the handler. -/
def Board.Dispatched (m : Monitor σ) (r : RegisterFile) (ram : Ram) (b : Board Memory σ) :
    Option HardwareInterrupt → Prop
  | none => b.cpu.Dry .cwaiWait (Frame.stacked true r) ∧ b.bus.peek = Frame.memory true r ram
  | some interrupt =>
    b.cpu.phase ≠ .cwaiWait ∧
    b.cpu.regs = { Frame.stacked true r with
      cc := (Frame.stacked true r).cc.raise interrupt.vector.mask } ∧
    b.bus.peek = Frame.memory true r ram ∧
    b.cpu.schedule.pending.countP (·.usesBus) ≤ 4 ∧
    ∀ more : List Levels, more.length = b.cpu.schedule.pending.countP (·.usesBus) →
      (Board.clocks m more b).cpu.regs = { b.cpu.regs with
        pc := Word.ofBytes (b.bus.peek interrupt.vector.address)
          (b.bus.peek (interrupt.vector.address + 1)) } ∧
      (Board.clocks m more b).bus.peek = b.bus.peek

/-- Nobody is served if nothing is recognised, where the E of the frame has no part. -/
theorem Processor.recognised_of_unserved {c : Processor} {entire : Bool}
    (regs : c.regs = Frame.stacked entire r) (unserved : c.serve? = none) :
    HardwareInterrupt.recognised c.inputs.active r.cc = none := by
  rw [serve?_eq_map, Option.map_eq_none_iff, regs] at unserved
  exact unserved

namespace Board

variable {m : Monitor σ} {b : Board Memory σ} {interrupt : HardwareInterrupt}

theorem Dispatched.of_taken (m : Monitor σ)
    (h : Taken true r ram interrupt.vector b.cpu b.bus.peek) :
    b.Dispatched m r ram (some interrupt) := by
  refine ⟨?_, h.regs, h.contents, ?_, ?_⟩
  · rcases h.phase with phase | phase <;> rw [phase] <;> decide
  · rcases h.pending with pending | pending <;> rw [pending] <;> decide
  · intro more length
    exact Taken.enters m b.bus b.notes h length

/-- Decided with the frame just stacked. -/
theorem dispatched_settled (m : Monitor σ) {c : Processor} (mem : Memory) (notes : σ)
    (h : c.Dry .dispatch (Frame.stacked true r)) (contents : mem.peek = Frame.memory true r ram) :
    (settled m ⟨c, mem, notes⟩).Dispatched m r ram
      (HardwareInterrupt.recognised c.inputs.active r.cc) := by
  have due := Processor.move?_of_dispatch h.consistent h.pending h.phase
  cases served : c.serve? with
  | some m' =>
    obtain ⟨interrupt, recognised, taken, fetch, _⟩ :=
      taken_serve ram h.consistent h.pending h.regs served
    rw [served, Option.getD_some] at due
    rw [settled_of_move h.consistent due,
      settled_of_rest (Processor.move?_of_cycle taken.consistent fetch), recognised]
    refine .of_taken m ?_
    rw [contents]
    exact taken
  | none =>
    have waits : Processor.Dry .cwaiWait (Frame.stacked true r) { c with phase := .cwaiWait } :=
      ⟨h.consistent, h.pending, rfl, h.page, h.regs⟩
    rw [served, Option.getD_none] at due
    rw [settled_of_move h.consistent due, Processor.recognised_of_unserved h.regs served]
    change (settled m ⟨{ c with phase := .cwaiWait }, mem, notes⟩).Dispatched m r ram none
    rw [settled_of_rest (waits.move? rfl)]
    exact ⟨waits, contents⟩

/-- Decided in the wait: HALT puts it off. -/
def wakes? (b : Board Memory σ) (r : RegisterFile) : Option HardwareInterrupt :=
  if b.cpu.inputs.active.halt then none
  else HardwareInterrupt.recognised b.cpu.inputs.active r.cc

/-- A clock that goes on with the wait. -/
theorem tick_asleep (m : Monitor σ) (h : b.Dispatched m r ram none) (asleep : b.cpu.wake? = none) :
    b.cpu.ready.access = .idle ∧ (clock m b).1 = .cycle ∧ (tick m b).Dispatched m r ram none := by
  obtain ⟨access, notes, clocked⟩ := h.1.clock m rfl asleep
  have awake : b.cpu.phase ≠ .syncWait ∧ b.cpu.phase ≠ .syncHold := by
    rw [h.1.phase]
    decide
  have dry := h.1.idled
  rw [Processor.idled_of_awake awake] at clocked dry
  rw [show b.cpu.clocked.phase = .cwaiWait from h.1.phase] at dry
  rw [tick, clocked]
  exact ⟨access, rfl, dry, h.2⟩

/-- A clock of the wait. -/
theorem tick_of_wait (m : Monitor σ) (h : b.Dispatched m r ram none) :
    b.cpu.ready.access = .idle ∧ (clock m b).1 = .cycle ∧
      (tick m b).Dispatched m r ram (b.wakes? r) := by
  cases halt : b.cpu.inputs.active.halt with
  | true =>
    rw [wakes?, if_pos halt]
    exact tick_asleep m h (Processor.wake?_of_halt halt)
  | false =>
    have wake := Processor.wake?_of_wait h.1.consistent h.1.pending h.1.phase halt
    rw [wakes?, if_neg (by rw [halt]; decide)]
    cases served : b.cpu.serve? with
    | none =>
      rw [Processor.recognised_of_unserved h.1.regs served]
      exact tick_asleep m h (wake.trans served)
    | some move =>
      obtain ⟨access, interrupt, d, recognised, clocked, taken⟩ := clock_of_waking m b.notes
        h.1.consistent h.1.pending h.1.regs h.2 (wake.trans served)
      rw [recognised, tick, show clock m b = _ from clocked]
      exact ⟨access, rfl, .of_taken m taken⟩

/-- The phase tells that nobody was found. -/
theorem Dispatched.eq_none {chosen : Option HardwareInterrupt} (h : b.Dispatched m r ram chosen)
    (phase : b.cpu.phase = .cwaiWait) : chosen = none := by
  cases chosen with
  | none => rfl
  | some interrupt => exact absurd phase h.1

theorem Dispatched.withLevels (h : b.Dispatched m r ram none) (levels : Levels) :
    (b.withLevels levels).Dispatched m r ram none :=
  ⟨h.1.withLevels levels, h.2⟩

/-- As long as the phase is that of the wait, nothing has changed. -/
theorem clocks_of_wait (m : Monitor σ) (h : b.Dispatched m r ram none) (lines : List Levels)
    (waits : ∀ k ≤ lines.length, (clocks m (lines.take k) b).cpu.phase = .cwaiWait) :
    (clocks m lines b).Dispatched m r ram none := by
  induction lines generalizing b with
  | nil => exact h
  | cons levels lines ih =>
    obtain ⟨_, _, next⟩ := tick_of_wait m (h.withLevels levels)
    have later : ∀ k ≤ lines.length,
        (clocks m (lines.take k) (tick m (b.withLevels levels))).cpu.phase = .cwaiWait :=
      fun k le => waits (k + 1) (Nat.succ_le_succ le)
    rw [next.eq_none (later 0 (Nat.zero_le _))] at next
    exact ih next later

end Board

/-! ## From the opcode to the end of the last push -/

/-- CWAI stacks its frame, and in the clock that completes it decides whom to serve. -/
theorem Encodes.dispatches_of_cwai {m : Monitor σ} (proceeds : m.Proceeds) {c : Processor}
    (mem : Memory) (notes : σ) {n : Nat} (start : c.AtOpcode 0)
    (encoded : Encodes mem.peek 0 c.regs.pc n ⟨.cwai, .immediate⟩) {lines : List Levels}
    (length : lines.length = n + 14) (last : Levels) :
    let r := c.regs.awaiting n (mem.peek (c.regs.pc + UInt16.ofNat n))
    let b := Board.clocks m lines ⟨c, mem, notes⟩
    (Board.tick m (b.withLevels last)).Dispatched m r mem.peek
      (HardwareInterrupt.recognised b.cpu.inputs.latched r.cc) := by
  intro r b
  obtain ⟨front, pushes, rfl, first, second⟩ := exists_append_of_length length
  obtain ⟨d, mem₁, notes₁, fetch, decoded, same, _⟩ :=
    encoded.runs proceeds mem notes start rfl rfl first
  obtain ⟨goal, headed, leaves⟩ := decoded.headed_cwai mem₁.peek
  rw [same] at leaves
  obtain ⟨e, mem₂, notes₂, runs, done, stays⟩ := headed.runs_front m notes₁ second
  have here : b = ⟨e, mem₂, notes₂⟩ := by
    change Board.clocks m (front ++ pushes) _ = _
    rw [Board.clocks_append, fetch.clocks_eq, runs.clocks_eq,
      Board.settled_of_rest (Processor.move?_of_cycle done.consistent done.pending)]
  -- The last push, and the way from there to the decision.
  obtain ⟨f, mem₃, byte, clocked, on, moved, active⟩ := done.clock m notes₂ last
  obtain ⟨pending, alike⟩ := on.nothingLeft
  have sees := alike.seen.trans leaves
  have page : f.page = 0 := (moved.page.trans stays.page).trans decoded.page
  obtain ⟨due, dry⟩ :=
    Processor.Dry.enter .dispatch on.consistent page pending (congrArg Prod.fst sees)
  have decided := Board.dispatched_settled m mem₃ (m.hearAll
    (Board.watched m (.push .s .cc) e byte notes₂)
      ({ f with schedule := f.schedule.advance }.enter .dispatch).reports)
    dry (congrArg Prod.snd sees)
  rw [← Board.settled_of_move on.consistent due] at decided
  rw [here, Board.tick, clocked]
  exact active ▸ decided

/-! ## The whole of it -/

/-- An RTI that finds S and the frame as they were when it was stacked. -/
theorem Board.returns_entire {m : Monitor σ} (proceeds : m.Proceeds) {later : Board Memory σ}
    {n : Nat} {lines : List Levels} (start : later.cpu.AtOpcode 0)
    (encoded : Encodes later.bus.peek 0 later.cpu.regs.pc n ⟨.rti, .inherent⟩)
    (top : later.cpu.regs.s = (Frame.stacked true r).s)
    (intact : ∀ k < Frame.size true, later.bus.peek (later.cpu.regs.s + UInt16.ofNat k) =
      Frame.memory true r ram (later.cpu.regs.s + UInt16.ofNat k))
    (length : lines.length = n + 2 + Frame.size true) :
    (clocks m lines later).cpu.regs = { r with cc := { r.cc with entire := true } } := by
  have fits : (Frame.image true r).length ≤ 65536 := by
    rw [Frame.length_image]
    decide
  have found : Ram.Holds later.bus.peek later.cpu.regs.s (Frame.image true r) := by
    intro k inside
    rw [intact k (by rw [← Frame.length_image true r]; exact inside), top]
    exact Ram.Holds.overlay ram _ fits k inside
  have back : later.cpu.regs.s + UInt16.ofNat (Frame.size true) = r.s := by
    rw [top]
    exact UInt16.sub_add_cancel _ _
  obtain ⟨e, mem, notes, run, finished, resumed, _⟩ :=
    runs_rti later.bus later.notes proceeds start encoded back found length
  have kept := Processor.regs_settle_of_execution finished.consistent finished.pending
    finished.phase
  rw [show clocks m lines later = _ from run.clocks_eq]
  exact kept.trans resumed

/-- **CWAI stacks once and wakes cleanly.** The flags are those that the operand keeps, and
the frame of the registers with them and with PC behind the operand is stacked while the lines
do what they like. In the clock of the last push the interrupt to serve is chosen among those
eligible under these flags, and if there is none the processor waits: with idle reads, and all
else as it is, until one is. Taking its vector stacks nothing. An RTI that finds S and the
frame as they were then goes on behind CWAI, with every register but the flags as it was before
it, and with E in the flags. -/
theorem cwai_stacks_once {m : Monitor σ} (proceeds : m.Proceeds) {c : Processor} (mem : Memory)
    (notes : σ) {n : Nat} (start : c.AtOpcode 0)
    (encoded : Encodes mem.peek 0 c.regs.pc n ⟨.cwai, .immediate⟩) {entry : List Levels}
    (length : entry.length = n + 14) (last : Levels) :
    let operand := mem.peek (c.regs.pc + UInt16.ofNat n)
    let r := c.regs.awaiting n operand
    let after := fun lines => Board.clocks m (entry ++ lines) ⟨c, mem, notes⟩
    (Frame.stacked true r).cc.toByte = c.regs.cc.toByte &&& operand ||| 0x80 ∧
    (after [last]).Dispatched m r mem.peek
      (HardwareInterrupt.recognised (after []).cpu.inputs.latched r.cc) ∧
    (∀ waited : List Levels,
      (∀ k ≤ waited.length, (after (last :: waited.take k)).cpu.phase = .cwaiWait) →
      ∀ levels, let b := (after (last :: waited)).withLevels levels
        b.Dispatched m r mem.peek none ∧ b.cpu.ready.access = .idle ∧
        (Board.clock m b).1 = .cycle ∧
        (after (last :: waited ++ [levels])).Dispatched m r mem.peek (b.wakes? r)) ∧
    ∀ (later : Board Memory σ) {k : Nat} {more : List Levels}, later.cpu.AtOpcode 0 →
      Encodes later.bus.peek 0 later.cpu.regs.pc k ⟨.rti, .inherent⟩ →
      later.cpu.regs.s = (Frame.stacked true r).s →
      (∀ j < Frame.size true, later.bus.peek (later.cpu.regs.s + UInt16.ofNat j) =
        Frame.memory true r mem.peek (later.cpu.regs.s + UInt16.ofNat j)) →
      more.length = k + 2 + Frame.size true →
      (Board.clocks m more later).cpu.regs = { c.regs with
        pc := c.regs.pc + UInt16.ofNat n + 1
        cc := { c.regs.cc.keep operand with entire := true } } := by
  intro operand r after
  have decided := encoded.dispatches_of_cwai proceeds mem notes start length last
  have after_nil : after [] = Board.clocks m entry ⟨c, mem, notes⟩ := by
    simp only [after, List.append_nil]
  have after_eq : ∀ lines, after lines = Board.clocks m lines (after []) := by
    intro lines
    rw [after_nil]
    exact Board.clocks_append m entry lines _
  dsimp only at decided
  rw [← after_nil] at decided
  have stacked : (after [last]).Dispatched m r mem.peek
      (HardwareInterrupt.recognised (after []).cpu.inputs.latched r.cc) := by
    rw [after_eq [last]]
    exact decided
  refine ⟨?_, stacked, ?_, ?_⟩
  · change ({ c.regs.cc.keep operand with entire := true } : ConditionCodes).toByte = _
    rw [ConditionCodes.toByte_entire, ConditionCodes.keep, ConditionCodes.toByte_ofByte]
  · intro waited waits levels b
    have after_cons : ∀ lines, after (last :: lines) = Board.clocks m lines (after [last]) := by
      intro lines
      rw [after_eq, after_eq [last]]
      rfl
    have begun := stacked
    rw [begun.eq_none (waits 0 (Nat.zero_le _))] at begun
    have waiting := Board.clocks_of_wait m begun waited (by
      intro k le
      rw [← after_cons]
      exact waits k le)
    rw [← after_cons] at waiting
    obtain ⟨access, made, next⟩ := Board.tick_of_wait m (waiting.withLevels levels)
    have on : after (last :: waited ++ [levels]) = Board.tick m b := by
      rw [List.cons_append, after_cons, Board.clocks_append, ← after_cons]
      rfl
    rw [on]
    exact ⟨waiting.withLevels levels, access, made, next⟩
  · intro later k more boundary rti top intact count
    exact Board.returns_entire proceeds boundary rti top intact count

/-- CWAI #$EF at `$1000`, with all interrupts masked. -/
def maskedCwai : Processor :=
  Processor.setPc { Processor.powerOn with
    regs :=
      { d := 0x1122, x := 0x3344, y := 0x5566, u := 0x7788, s := 0x8000, pc := 0x0000, dp := 0x99,
        cc := .ofByte 0x50 } } 0x1000

/-- IRQ comes with the last push. It is served in the second cycle of the wait, three cycles
later its handler is entered, and the RTI that is there goes back behind CWAI, with the mask of
IRQ open. -/
theorem cwai_stacks_once_irq :
    ∃ (mem : Memory) (served handler returned : Board Memory Unit),
      served = Board.clocks .silent (.replicate 15 .low ++
        .replicate 3 { Levels.low with irq := true }) ⟨maskedCwai, mem, ()⟩ ∧
      served.cpu.regs = { maskedCwai.regs with pc := 0x1002, s := 0x7FF4, cc := .ofByte 0xD0 } ∧
      ((List.range 12).map fun k => served.bus.peek (0x7FF4 + UInt16.ofNat k)) =
        [0xC0, 0x11, 0x22, 0x99, 0x33, 0x44, 0x55, 0x66, 0x77, 0x88, 0x10, 0x02] ∧
      handler = Board.clocks .silent (.replicate 3 .low) served ∧
      handler.cpu.regs = { served.cpu.regs with pc := 0x2040 } ∧
      handler.bus.peek 0x2040 = 0x3B ∧
      returned = Board.clocks .silent (.replicate 15 .low) handler ∧
      returned.cpu.regs = { maskedCwai.regs with pc := 0x1002, s := 0x8000, cc := .ofByte 0xC0 } := by
  let mem := ((((Memory.blank.poke 0x1000 0x3C).poke 0x1001 0xEF).poke 0x2040 0x3B).poke
    0xFFF8 0x20).poke 0xFFF9 0x40
  let irq : Levels := { Levels.low with irq := true }
  let entry : List Levels := .replicate 15 .low
  have operand : mem.peek 0x1001 = 0xEF := by simp [mem, Memory.peek_poke]
  have cwai : Instruction.decode 0 (mem.peek 0x1000) = ⟨.cwai, .immediate⟩ := by
    rw [show mem.peek 0x1000 = 0x3C by simp [mem, Memory.peek_poke]]
    decide
  have start : maskedCwai.AtOpcode 0 := Processor.atOpcode_setPc _ _
  obtain ⟨_, _, waits, returns⟩ := cwai_stacks_once (m := .silent) (fun _ _ => rfl) mem () start
    (.of_decode cwai (by rintro _ ⟨⟩)) (show entry.length = 1 + 14 from rfl) irq
  have kept : mem.peek (maskedCwai.regs.pc + UInt16.ofNat 1) = 0xEF := operand
  dsimp only at waits returns
  rw [kept] at waits returns
  have woken : ((Board.clocks .silent (entry ++ irq :: [irq]) ⟨maskedCwai, mem, ()⟩).withLevels
      irq).wakes? (maskedCwai.regs.awaiting 1 0xEF) = some .irq := by
    decide +kernel
  have step := waits [irq] (by decide +kernel) irq
  rw [woken] at step
  obtain ⟨_, _, _, _, regs, contents, _, enters⟩ := step
  obtain ⟨entered, unchanged⟩ := enters (.replicate 3 .low) (by decide +kernel)
  -- Of the boundary only the schedule is computed: the memory is too large for that.
  have boundary : (Board.clocks .silent (.replicate 3 .low) (Board.clocks .silent
      (entry ++ (irq :: [irq] ++ [irq])) ⟨maskedCwai, mem, ()⟩)).cpu.AtOpcode 0 := by
    decide +kernel
  generalize ran : Board.clocks .silent (entry ++ (irq :: [irq] ++ [irq]))
    ⟨maskedCwai, mem, ()⟩ = served at regs contents entered unchanged boundary
  generalize went : Board.clocks .silent (.replicate 3 .low) served = handler
    at entered unchanged boundary
  have s : served.cpu.regs.s = 0x7FF4 := by
    rw [regs]
    decide
  have outside : ∀ address : Word, 12 ≤ (address - 0x7FF4).toNat →
      served.bus.peek address = mem.peek address := by
    intro address beyond
    rw [contents]
    exact Ram.overlay_of_outside _ beyond
  have vector : served.bus.peek 0xFFF8 = 0x20 ∧ served.bus.peek 0xFFF9 = 0x40 := by
    rw [outside _ (by decide), outside _ (by decide)]
    simp [mem, Memory.peek_poke]
  have there : handler.cpu.regs = { served.cpu.regs with pc := 0x2040 } := by
    rw [entered]
    change { served.cpu.regs with
      pc := Word.ofBytes (served.bus.peek 0xFFF8) (served.bus.peek 0xFFF9) } = _
    rw [vector.1, vector.2]
    rfl
  have opcode : handler.bus.peek 0x2040 = 0x3B := by
    rw [unchanged, outside _ (by decide)]
    simp [mem, Memory.peek_poke]
  have rti : Instruction.decode 0 (handler.bus.peek handler.cpu.regs.pc) = ⟨.rti, .inherent⟩ := by
    rw [there, opcode]
    decide
  have fifteen : (List.replicate 15 Levels.low).length = 1 + 2 + Frame.size true := by decide
  have back := returns handler boundary (.of_decode rti (by rintro _ ⟨⟩)) (by rw [there]; exact s)
    (fun _ _ => by rw [unchanged, contents]) fifteen
  refine ⟨mem, served, handler, _, ran.symm, ?_, ?_, went.symm, there, opcode, rfl, ?_⟩
  · rw [regs]
    decide
  · rw [contents]
    decide +kernel
  · rw [back]
    decide

end Sim6809
