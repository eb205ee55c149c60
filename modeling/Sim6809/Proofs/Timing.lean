/-
The timing table, and that every step keeps to it.

No cycle is counted anywhere: how long an instruction takes comes out of the steps it is made
of, and of what those queue on the way. The table is written down here in numbers, the way a
programmer looks it up: a column for each addressing mode (`Operation.base`), what a postbyte
costs (`IndexForm.extra`), and what depends on data (`Instruction.surplus`).

That the programs have these lengths is a fact about the slots of the opcode map (`Timed`),
and is decided by trying them. What is left is that the clocks of a step are the bus cycles of
its program. Most programs are one stretch. The others are one up to their last step, which
queues a second stretch or leaves the instruction stream for a wait
(`Operation.closing`).
-/
import Sim6809.Proofs.DataInstructions
import Sim6809.Proofs.StepReturns

set_option autoImplicit false

namespace Sim6809

/-! ## The table -/

/-- A row of the table: the entry of the mode. -/
def AddressMode.entry (immediate direct extended indexed : Nat) : AddressMode → Nat
  | .direct => direct
  | .extended => extended
  | .indexed => indexed
  | .immediate | .inherent | .relative => immediate

/-- Cycles of an instruction, page selections not included, up to where they depend on data
or on a postbyte. -/
def Operation.base (op : Operation) (mode : AddressMode) : Nat :=
  match op with
  | .byte _ _ => mode.entry 2 4 5 4
  | .store _ => mode.entry 0 4 5 4
  | .loadWord _ => mode.entry 3 5 6 5
  | .storeWord _ => mode.entry 0 5 6 5
  | .word _ _ => mode.entry 4 6 7 6
  | .unary _ .memory => mode.entry 0 6 7 6
  | .jmp => mode.entry 0 3 4 3
  | .jsr => mode.entry 0 7 8 7
  | .lea _ => 4
  | .storeImmediate _ => 2
  | .storeWordImmediate _ => 3
  | .nop | .unary _ (.accumulator _) | .daa | .sex => 2
  | .branch _ | .abx | .orcc | .andcc | .shiftFlags => 3
  | .longBranch _ | .andccSlow => 4
  | .lbra | .rts | .push _ | .pull _ => 5
  | .rti | .tfr => 6
  | .bsr => 7
  | .exg => 8
  | .lbsr => 9
  | .mul => 11
  | .software _ => 19
  -- These end in a wait, and are counted up to it.
  | .lock => 1
  | .sync => 2
  | .cwai => 16
  | .selectPage _ => 0

/-- What a postbyte adds to the indexed column. -/
def IndexForm.extra (postbyte : Byte) : Nat :=
  if postbyte < 0x80 then 1
  else [2, 3, 2, 3, 0, 1, 1, 1, 1, 4, 3, 4, 1, 5, 3, 2].getD (postbyte &&& 0x0F).toNat 0 +
    if postbyte &&& 0x90 = 0x90 then 3 else 0

/-- How many bytes a register list moves: one for each of the lower four bits, two for each
of the others. -/
def RegisterList.bytes (list : Byte) : Nat :=
  [0x01, 0x02, 0x04, 0x08].countP (list &&& · != 0) +
    2 * [0x10, 0x20, 0x40, 0x80].countP (list &&& · != 0)

/-- What data adds. The registers are those after the opcode, so that PC is at the byte behind
it. -/
def Instruction.surplus (i : Instruction) (ram : Ram) (r : RegisterFile) : Nat :=
  match i.op with
  | .longBranch condition => if condition.holds r.cc then 1 else 0
  | .push _ | .pull _ => RegisterList.bytes (ram r.pc)
  | .rti => if (ConditionCodes.ofByte (ram r.s)).entire then 9 else 0
  | _ => if i.mode = .indexed then IndexForm.extra (ram r.pc) else 0

/-- Cycles of an instruction. -/
def Instruction.time (i : Instruction) (ram : Ram) (r : RegisterFile) : Nat :=
  i.op.base i.mode + i.surplus ram r

/-- The operation ends in a wait. -/
def Operation.waits : Operation → Bool
  | .sync | .cwai | .lock => true
  | _ => false

/-! ## The programs have the lengths of the table -/

/-- The bus cycles among some steps. -/
abbrev cyclesIn (ops : List MicroOp) : Nat := ops.countP (·.usesBus)

/-- The address cycles of a postbyte: the read that every form makes, and the extra ones. -/
theorem cyclesIn_indexProgram (postbyte : Byte) :
    cyclesIn (IndexForm.program postbyte) = 1 + IndexForm.extra postbyte :=
  Byte.of_table postbyte (by decide +kernel)

/-- A list moves as many bytes in either direction. -/
theorem length_selected {stack : Stack} {order : List (Byte × Part)}
    (either : order = RegisterList.pushOrder stack ∨ order = RegisterList.pullOrder stack)
    (list : Byte) : (RegisterList.selected order list).length = RegisterList.bytes list := by
  rw [RegisterList.selected, List.length_map, ← List.countP_eq_length_filter]
  rcases either with rfl | rfl
  all_goals
    simp only [RegisterList.pushOrder, RegisterList.pullOrder, RegisterList.bytes,
      List.countP_cons, List.countP_nil]
    omega

/-- No instruction takes long. -/
theorem Instruction.time_le (i : Instruction) (ram : Ram) (r : RegisterFile) :
    i.time ram r ≤ 31 := by
  have base : i.op.base i.mode ≤ 19 := by
    unfold Operation.base AddressMode.entry
    repeat' split
    all_goals decide
  have bytes : RegisterList.bytes (ram r.pc) ≤ 12 := by
    rw [← length_selected (Or.inl rfl : _ = RegisterList.pushOrder .s ∨ _)]
    exact length_selected_le (RegisterList.pushOrder .s) (ram r.pc)
  have extra : IndexForm.extra (ram r.pc) ≤ 10 := by
    have cycles : cyclesIn (IndexForm.program (ram r.pc)) ≤ 11 :=
      Nat.le_trans List.countP_le_length (length_indexProgram_le (ram r.pc))
    rw [cyclesIn_indexProgram] at cycles
    omega
  have surplus : i.surplus ram r ≤ 12 := by
    unfold Instruction.surplus
    repeat' split
    all_goals omega
  exact Nat.add_le_add base surplus

/-- The last step of a program, if it does not leave the processor in the same stretch. -/
def Operation.closing : Operation → Option Action
  | .longBranch _ | .push _ | .pull _ | .rti => some .operate
  | .software kind => some (.vector kind.vector)
  | .sync => some (.enter .syncWait)
  | .cwai => some (.enter .dispatch)
  | .lock => some (.enter .locked)
  | _ => none

/-- Without one, only a postbyte adds to the base. -/
theorem Instruction.goesOn_of_closing {i : Instruction} (closing : i.op.closing = none) :
    i.op.waits = false ∧ ∀ ram r, i.surplus ram r =
      if i.mode = .indexed then IndexForm.extra (ram r.pc) else 0 := by
  obtain ⟨op, mode⟩ := i
  cases op with
  | longBranch _ | push _ | pull _ | rti | software _ | sync | cwai | lock => cases closing
  | _ => exact ⟨rfl, fun _ _ => rfl⟩

/-- What a slot of the opcode map has to satisfy. -/
structure Instruction.Timed (i : Instruction) : Prop where
  indexed : i.mode = .indexed → i.op.closing = none ∧ Straight i i.body ∧
    3 + cyclesIn i.body = i.op.base i.mode
  plain : i.mode ≠ .indexed → i.op.closing = none → Straight i i.program ∧
    1 + cyclesIn i.program = i.op.base i.mode
  closed : i.op.closing ≠ none → i.program = i.body

theorem Instruction.timed_iff (i : Instruction) :
    i.Timed ↔ (i.mode = .indexed → i.op.closing = none ∧ Straight i i.body ∧
        3 + cyclesIn i.body = i.op.base i.mode) ∧
      (i.mode ≠ .indexed → i.op.closing = none → Straight i i.program ∧
        1 + cyclesIn i.program = i.op.base i.mode) ∧
      (i.op.closing ≠ none → i.program = i.body) :=
  ⟨fun h => ⟨h.indexed, h.plain, h.closed⟩,
    fun ⟨indexed, plain, closed⟩ => ⟨indexed, plain, closed⟩⟩

instance (i : Instruction) : Decidable i.Timed := decidable_of_iff _ i.timed_iff.symm

/-- Every slot does, but for the page selections. -/
theorem Instruction.timed_decode (page opcode : Byte)
    (final : ∀ selected, (decode page opcode).op ≠ .selectPage selected) :
    (decode page opcode).Timed := by
  have table : (decode page opcode).op.selects? = none → (decode page opcode).Timed :=
    decode_induction (P := fun i => i.op.selects? = none → i.Timed)
      (by decide +kernel) (by decide +kernel) (by decide +kernel) page opcode
  refine table ?_
  cases selects : (decode page opcode).op.selects? with
  | none => rfl
  | some selected => exact absurd (Operation.selects?_eq_some_iff.1 selects) (final selected)

/-- How many cycles the effect of an instruction queues, with these flags and this operand. -/
def Operation.grown (op : Operation) (cc : ConditionCodes) (list : Byte) : Nat :=
  match op with
  | .longBranch condition => if condition.holds cc then 1 else 0
  | .push _ => RegisterList.bytes list
  | .pull _ => RegisterList.bytes list + 1
  | .rti => if cc.entire then 12 else 3
  | _ => 0

theorem Processor.length_growth (c : Processor) :
    c.growth.length = c.instruction.op.grown c.regs.cc (Word.low c.data) := by
  cases op : c.instruction.op with
  | longBranch condition =>
    rw [growth, op, Operation.grown]
    dsimp only
    split <;> rfl
  | push stack =>
    rw [growth, op]
    dsimp only
    rw [RegisterList.pushProgram, List.length_map, length_selected (Or.inl rfl)]
    rfl
  | pull stack =>
    rw [growth, op]
    dsimp only
    rw [RegisterList.pullProgram, List.length_append, List.length_map,
      length_selected (Or.inr rfl)]
    rfl
  | rti =>
    rw [growth, op, Operation.grown]
    dsimp only
    cases c.regs.cc.entire <;> rfl
  | _ =>
    rw [growth, op]
    rfl

/-- What the effect of an instruction queues are bus cycles, and no opcode fetch. -/
theorem Processor.straight_growth (i : Instruction) (c : Processor) : Straight i c.growth := by
  intro op grown
  obtain ⟨cycle, rfl, plain⟩ := mem_growth grown
  cases cycle <;> first | rfl | cases plain

theorem Processor.cyclesIn_growth (c : Processor) : cyclesIn c.growth = c.growth.length := by
  refine List.countP_eq_length.2 fun op grown => ?_
  obtain ⟨cycle, rfl, _⟩ := mem_growth grown
  rfl

/-! ## From the opcode to the end

Of a program everything is a stretch but at most its last step. -/

namespace Processor

variable {i : Instruction} {ops : List MicroOp} {c : Processor}

/-- A processor in an instruction, with these steps pending. -/
structure Executing (i : Instruction) (ops : List MicroOp) (c : Processor) : Prop where
  consistent : c.schedule.Consistent
  pending : c.schedule.pending = ops
  instruction : c.instruction = i
  phase : c.phase = .execution
  page : c.page = 0

namespace Executing

theorem of_decoded {regs : RegisterFile} (h : c.Decoded i regs) : Executing i i.program c :=
  ⟨h.consistent, h.pending, h.instruction, h.phase, h.page⟩

theorem finished (h : Executing i [] c) : c.Finished := ⟨h.consistent, h.pending, h.phase, h.page⟩

theorem busy {cycle : BusCycle} (h : Executing i (.cycle cycle :: ops) c)
    (other : cycle ≠ .fetchOpcode) : c.Busy := by
  refine Amid.busy ⟨h.phase, cycle, ?_, other⟩
  rw [Schedule.current_eq_head? h.consistent, h.pending]
  rfl

/-- The closing action is carried out, and what it queues is pending. -/
theorem act {action : Action} (h : Executing i [.action action] c)
    (stays : ∀ phase, action ≠ .enter phase) (fits : (c.act action).queued.length ≤ 32) :
    Executing i (c.act action).queued
      ({ c with schedule := c.schedule.advance }.act action).landed := by
  have same : ({ c with schedule := c.schedule.advance }.act action).queued =
      (c.act action).queued := by
    cases action <;> rfl
  have pending := Schedule.pending_advance_extend h.consistent h.pending _ fits
  refine ⟨?_, ?_, ?_, (phase_act _ stays).trans h.phase, ?_⟩
  · rw [Move.schedule_landed, schedule_act]
    exact h.consistent.advance.extend _
  · rw [Move.schedule_landed, schedule_act, same]
    exact pending
  · change ({ c with schedule := c.schedule.advance }.act action).next.instruction = i
    rw [act_eq]
    exact h.instruction
  · change ({ c with schedule := c.schedule.advance }.act action).next.page = 0
    rw [act_eq]
    exact h.page

end Executing

/-- An action drives no line. -/
theorem quiet_landed_act (c : Processor) (action : Action) (quiet : c.inputs.Quiet) :
    (c.act action).landed.inputs.Quiet := by
  change (c.act action).next.inputs.QuietIn 0
  rcases inputs_act c action with kept | armed
  · rw [kept]
    exact quiet
  · rw [armed]
    exact Inputs.QuietIn.armNmi (k := 0) quiet

/-- A processor in an instruction, with these steps pending and nothing on its lines. -/
structure Within (i : Instruction) (ops : List MicroOp) (c : Processor) : Prop
    extends Executing i ops c where
  quiet : c.inputs.Quiet

namespace Within

theorem of_decoded {regs : RegisterFile} (h : c.Decoded i regs) (quiet : c.inputs.Quiet) :
    Within i i.program c :=
  ⟨.of_decoded h, quiet⟩

theorem act {action : Action} (h : Within i [.action action] c)
    (stays : ∀ phase, action ≠ .enter phase) (fits : (c.act action).queued.length ≤ 32) :
    Within i (c.act action).queued
      ({ c with schedule := c.schedule.advance }.act action).landed :=
  ⟨h.toExecuting.act stays fits, quiet_landed_act { c with schedule := c.schedule.advance } action
    h.quiet⟩

/-- With nothing on the lines each way out of the instruction stream is a wait. -/
theorem enter {phase : Phase} (h : Within i [.action (.enter phase)] c)
    (wait : phase ∈ [Phase.syncWait, .dispatch, .locked]) :
    c.settle.state.isWaiting = true ∧ c.settle.state.atBoundary = false := by
  have due := move?_of_action h.consistent h.pending
  generalize left : ({ c with schedule := c.schedule.advance }.act (.enter phase)).landed = d
  have consistent : d.schedule.Consistent := by
    rw [← left]
    exact consistent_landed h.consistent due
  have dry : d.schedule.pending = [] := by
    rw [← left, Move.schedule_landed, schedule_act]
    exact Schedule.pending_advance_extend h.consistent h.pending [] (by decide)
  have entered : d.phase = phase := by rw [← left]; rfl
  have active : d.inputs.active = .low := by rw [← left]; exact h.quiet.2.2
  have settles : ∀ e : Processor, d.settle.state = e → e.isWaiting = true → e.phase ≠ .execution →
      c.settle.state.isWaiting = true ∧ c.settle.state.atBoundary = false := by
    intro e settled waits gone
    rw [settle_of_move h.consistent due, left, settled]
    exact ⟨waits, by simp [atBoundary, gone]⟩
  obtain rfl | other : phase = .dispatch ∨ phase = .syncWait ∨ phase = .locked := by
    simpa [or_left_comm] using wait
  · -- No interrupt is there to be served, so the wait for one begins.
    have unserved : d.serve? = none := by rw [serve?, active]; rfl
    have next := move?_of_dispatch consistent dry entered
    rw [unserved] at next
    have still : ({ d with phase := .cwaiWait } : Processor).move? = none :=
      move?_of_dry (c := { d with phase := .cwaiWait }) consistent dry
    have landed : (({ next := { d with phase := .cwaiWait } } : Move).landed) =
        { d with phase := .cwaiWait } := rfl
    refine settles { d with phase := .cwaiWait } ?_ rfl
      (show Phase.cwaiWait ≠ .execution by decide)
    rw [settle_of_move consistent next, Option.getD_none, landed, settle_of_rest still]
  · have still : d.move? = none := by
      rw [move?_of_dry consistent dry, phaseMove?, entered]
      rcases other with rfl | rfl <;> rfl
    have waits : d.isWaiting = true := by
      rw [isWaiting, entered]
      rcases other with rfl | rfl <;> rfl
    refine settles d (by rw [settle_of_rest still]) waits ?_
    rw [entered]
    rcases other with rfl | rfl <;> decide

end Within

end Processor

namespace Board

open Processor

variable {σ : Type} {i : Instruction} {c : Processor}

/-- Lines that stay low. -/
abbrev lows (n : Nat) : List Levels := List.replicate n .low

/-- A stretch at the front of what is pending, on any lines. -/
theorem runs_stretch (m : Monitor σ) (mem : Memory) (notes : σ) {front back : List MicroOp}
    (h : Executing i (front ++ back) c) (straight : Straight i front) {lines : List Levels}
    (length : lines.length = cyclesIn front) :
    ∃ d mem' notes', Runs m Processor.Busy lines (settled m ⟨c, mem, notes⟩)
        (settled m ⟨d, mem', notes'⟩) ∧
      Executing i back d ∧ Sim6809.Alike (d, mem'.peek) (enactAll front (c, mem.peek)) ∧
      ((∀ levels ∈ lines, levels = .low) → c.inputs.Quiet → d.inputs.Quiet) := by
  obtain rfl := h.instruction
  have headed := Headed.start mem.peek back h.consistent h.pending straight
  obtain ⟨d, mem', notes', runs, done, stays⟩ := headed.runs m notes length
  obtain ⟨pending, alike⟩ := done.nothingLeft
  rw [h.phase] at runs
  refine ⟨d, mem', notes', runs.mono fun _ => Amid.busy, ⟨done.consistent, pending,
    stays.instruction, stays.phase.trans h.phase, stays.page.trans h.page⟩, alike, ?_⟩
  intro low quiet
  have still := stays.quiet low 0 quiet
  rw [Nat.zero_sub] at still
  exact still

/-- The same with nothing on the lines. -/
theorem runs_front (m : Monitor σ) (mem : Memory) (notes : σ) {front back : List MicroOp}
    (h : Within i (front ++ back) c) (straight : Straight i front) :
    ∃ d mem' notes', Runs m Processor.Busy (lows (cyclesIn front)) (settled m ⟨c, mem, notes⟩)
        (settled m ⟨d, mem', notes'⟩) ∧
      Within i back d ∧ Sim6809.Alike (d, mem'.peek) (enactAll front (c, mem.peek)) := by
  obtain ⟨d, mem', notes', runs, left, alike, still⟩ :=
    runs_stretch m mem notes h.toExecuting straight (List.length_replicate (a := Levels.low))
  exact ⟨d, mem', notes', runs, ⟨left, still (fun _ => List.eq_of_mem_replicate) h.quiet⟩, alike⟩

/-- How an instruction of the map ends that takes so many cycles behind its opcode. -/
def Ends (m : Monitor σ) (i : Instruction) (n : Nat) (b : Board Memory σ) : Prop :=
  ∃ after, Runs m Processor.Busy (lows n) b after ∧
    if i.op.waits then after.cpu.isWaiting = true ∧ after.cpu.atBoundary = false
    else after.cpu.AtOpcode 0 ∧ after.cpu.inputs.Quiet

/-- With everything done the next opcode is due. -/
theorem ends_of_runs (m : Monitor σ) {n : Nat} {b : Board Memory σ} {e : Processor}
    {mem : Memory} {notes : σ} (runs : Runs m Processor.Busy (lows n) b (settled m ⟨e, mem, notes⟩))
    (done : Within i [] e) (goesOn : i.op.waits = false) : Ends m i n b := by
  obtain ⟨d, notes', settled, boundary, _, quiet⟩ :=
    settled_boundary m done.finished done.quiet mem notes
  rw [settled] at runs
  refine ⟨_, runs, ?_⟩
  rw [if_neg (by rw [goesOn]; decide)]
  exact ⟨boundary, quiet⟩

/-- A program that is a stretch. -/
theorem ends_plain (m : Monitor σ) (mem : Memory) (notes : σ) (h : Within i i.program c)
    (straight : Straight i i.program) (goesOn : i.op.waits = false) :
    Ends m i (cyclesIn i.program) (settled m ⟨c, mem, notes⟩) := by
  rw [← List.append_nil i.program] at h
  obtain ⟨e, mem', notes', runs, done, _⟩ := runs_front m mem notes h straight
  exact ends_of_runs m runs done goesOn

/-- The fetch of a postbyte. -/
theorem clock_postbyte (m : Monitor σ) (mem : Memory) (notes : σ) (levels : Levels)
    (h : Executing i [.cycle .fetchPostbyte] c) (length : i.body.length ≤ 5) :
    ∃ d, clock m (withLevels levels ⟨c, mem, notes⟩) =
        (.cycle, settled m ⟨d, mem.counted, notes⟩) ∧
      Executing i (IndexForm.program (mem.peek c.regs.pc) ++ i.body) d ∧
      d.inputs = (c.withLevels levels).inputs.cycle ∧
      Sim6809.Alike (d, mem.peek) (MicroOp.enact (.cycle .fetchPostbyte) (c, mem.peek)) := by
  obtain rfl := h.instruction
  obtain ⟨d, clocked, consistent, pending, instruction, phase, page, inputs, alike⟩ :=
    clock_fetchPostbyte m mem notes levels h.consistent h.pending length
  exact ⟨d, clocked, ⟨consistent, pending, instruction, phase.trans h.phase, page.trans h.page⟩,
    inputs, alike⟩

/-- A postbyte, and the stretch that it queues. -/
theorem ends_indexed (m : Monitor σ) (mem : Memory) (notes : σ)
    (h : Within i [.cycle .fetchPostbyte] c) (straight : Straight i i.body)
    (length : i.body.length ≤ 5) (goesOn : i.op.waits = false) :
    Ends m i (1 + (cyclesIn (IndexForm.program (mem.peek c.regs.pc)) + cyclesIn i.body))
      (settled m ⟨c, mem, notes⟩) := by
  have busy := h.busy (by decide)
  obtain ⟨d, clocked, left, inputs, _⟩ :=
    clock_postbyte m mem notes .low h.toExecuting length
  have quiet : d.inputs.Quiet := by
    rw [inputs]
    exact Inputs.QuietIn.cycle (k := 0) (Inputs.QuietIn.drive (k := 0) h.quiet rfl)
  have whole := (straight_indexProgram i (mem.peek c.regs.pc)).append straight
  rw [← List.append_nil (_ ++ i.body)] at left
  obtain ⟨e, mem', notes', runs, done, _⟩ :=
    runs_front m mem.counted notes ⟨left, quiet⟩ whole
  rw [cyclesIn, List.countP_append] at runs
  have first := Runs.clock busy clocked runs
  rw [← List.replicate_succ, ← Nat.add_comm 1] at first
  rw [settled_of_rest (move?_of_cycle h.consistent h.pending)]
  exact ends_of_runs m first done goesOn

/-- A stretch up to a closing action, and that action, on any lines. -/
theorem runs_closing (m : Monitor σ) (mem : Memory) (notes : σ) (front more : List MicroOp)
    {action : Action} (h : Executing i (front ++ [.action action]) c) (straight : Straight i front)
    (stays : ∀ phase, action ≠ .enter phase)
    (queued : ((enactAll front (c, mem.peek)).1.act action).queued = more)
    (fits : more.length ≤ 32) {lines : List Levels} (length : lines.length = cyclesIn front) :
    ∃ d mem' notes', Runs m Processor.Busy lines (settled m ⟨c, mem, notes⟩)
        (settled m ⟨d, mem', notes'⟩) ∧
      Executing i more d ∧
      Sim6809.Alike (d, mem'.peek) (enactAll (front ++ [.action action]) (c, mem.peek)) ∧
      ((∀ levels ∈ lines, levels = .low) → c.inputs.Quiet → d.inputs.Quiet) := by
  obtain ⟨d, mem', notes', runs, closing, alike, still⟩ :=
    runs_stretch m mem notes h straight length
  -- What an action queues is among the things that a stretch leaves alike.
  have core : ∀ c : Processor, (c.core.act action).queued = (c.act action).queued := by
    intro c
    cases action <;> rfl
  have same : (d.act action).queued = more := by
    rw [← queued, ← core, ← core (enactAll front (c, mem.peek)).1]
    exact congrArg (fun c : Processor => (c.act action).queued) alike.core
  have due := move?_of_action closing.consistent closing.pending
  have grown := closing.act stays (by rw [same]; exact fits)
  rw [same] at grown
  rw [settled_of_move closing.consistent due] at runs
  refine ⟨_, mem', _, runs, grown, ?_, ?_⟩
  · rw [enactAll_append]
    refine ⟨?_, alike.ram⟩
    change (({ d with schedule := d.schedule.advance }).act action).next.core =
      ((enactAll front (c, mem.peek)).1.act action).next.core
    rw [← core_act, ← core_act (enactAll front (c, mem.peek)).1, ← alike.core]
    rfl
  · intro low quiet
    exact quiet_landed_act { d with schedule := d.schedule.advance } action (still low quiet)

/-- A closing action that queues a second stretch. -/
theorem ends_grown (m : Monitor σ) (mem : Memory) (notes : σ) (front more : List MicroOp)
    {action : Action} (h : Within i (front ++ [.action action]) c) (straight : Straight i front)
    (stays : ∀ phase, action ≠ .enter phase)
    (queued : ((enactAll front (c, mem.peek)).1.act action).queued = more)
    (fits : more.length ≤ 32) (straight' : Straight i more) (goesOn : i.op.waits = false) :
    Ends m i (cyclesIn front + cyclesIn more) (settled m ⟨c, mem, notes⟩) := by
  obtain ⟨d, mem₁, notes₁, runs, grown, _, still⟩ := runs_closing m mem notes front more
    h.toExecuting straight stays queued fits (List.length_replicate (a := Levels.low))
  have quiet := still (fun _ => List.eq_of_mem_replicate) h.quiet
  rw [← List.append_nil more] at grown
  obtain ⟨e, mem₂, notes₂, runs', done, _⟩ := runs_front m mem₁ notes₁ ⟨grown, quiet⟩ straight'
  have whole := runs.trans runs'
  rw [lows, List.replicate_append_replicate] at whole
  exact ends_of_runs m whole done goesOn

/-- A program that ends in a wait. -/
theorem ends_entered (m : Monitor σ) (mem : Memory) (notes : σ) (front : List MicroOp)
    {phase : Phase} (h : Within i (front ++ [.action (.enter phase)]) c)
    (straight : Straight i front) (wait : phase ∈ [Phase.syncWait, .dispatch, .locked])
    (waits : i.op.waits = true) : Ends m i (cyclesIn front) (settled m ⟨c, mem, notes⟩) := by
  obtain ⟨d, mem', notes', runs, closing, _⟩ := runs_front m mem notes h straight
  refine ⟨_, runs, ?_⟩
  rw [if_pos waits]
  exact closing.enter wait

/-- A program that ends in the effect of its instruction. -/
theorem ends_operate (m : Monitor σ) (mem : Memory) (notes : σ) (front : List MicroOp)
    (h : Within i (front ++ [.action .operate]) c) (straight : Straight i front)
    {d : Processor} {ram : Ram} (enacted : enactAll front (c, mem.peek) = (d, ram))
    (same : d.instruction = c.instruction) (goesOn : i.op.waits = false) :
    Ends m i (cyclesIn front + i.op.grown d.regs.cc (Word.low d.data))
      (settled m ⟨c, mem, notes⟩) := by
  have fits := (growth_fits d).2.1
  have queued : ((enactAll front (c, mem.peek)).1.act .operate).queued = d.growth := by
    rw [enacted]
    rfl
  have ends := ends_grown m mem notes front d.growth h straight nofun queued
    (Nat.le_trans fits (by decide)) (straight_growth i d) goesOn
  rw [cyclesIn_growth, length_growth, same, h.instruction] at ends
  exact ends

/-- The operations whose last step goes on in a way of its own. -/
theorem ends_closed (m : Monitor σ) (mem : Memory) (notes : σ) (h : Within i i.body c)
    (closing : i.op.closing ≠ none) (plain : i.mode ≠ .indexed) :
    ∃ n, 1 + n = i.time mem.peek c.regs ∧ Ends m i n (settled m ⟨c, mem, notes⟩) := by
  obtain ⟨op, mode⟩ := i
  have unindexed : (if mode = .indexed then IndexForm.extra (mem.peek c.regs.pc) else 0) = 0 :=
    if_neg plain
  have list : Word.low (Word.shiftIn c.data (mem.peek c.regs.pc)) = mem.peek c.regs.pc :=
    Word.low_shiftIn _ _
  cases op with
  | longBranch condition =>
    refine ⟨_, ?_, ends_operate m mem notes
      [.cycle .fetchOperand, .cycle .fetchOperand, .cycle .dummy] h
      (by simp [Straight, MicroOp.straight, MicroOp.queues]) rfl rfl rfl⟩
    change 1 + (3 + if condition.holds c.regs.cc then 1 else 0) =
      4 + if condition.holds c.regs.cc then 1 else 0
    omega
  | push stack =>
    refine ⟨_, ?_, ends_operate m mem notes
      [.cycle .fetchOperand, .cycle .dummy, .cycle .dummy, .cycle (.peekStack stack)] h
      (by simp [Straight, MicroOp.straight, MicroOp.queues]) rfl rfl rfl⟩
    change 1 + (4 + RegisterList.bytes (Word.low (Word.shiftIn c.data (mem.peek c.regs.pc)))) =
      5 + RegisterList.bytes (mem.peek c.regs.pc)
    rw [list]
    omega
  | pull stack =>
    refine ⟨_, ?_, ends_operate m mem notes
      [.cycle .fetchOperand, .cycle .dummy, .cycle .dummy] h
      (by simp [Straight, MicroOp.straight, MicroOp.queues]) rfl rfl rfl⟩
    change 1 + (3 + (RegisterList.bytes (Word.low (Word.shiftIn c.data (mem.peek c.regs.pc))) + 1))
      = 5 + RegisterList.bytes (mem.peek c.regs.pc)
    rw [list]
    omega
  | rti =>
    refine ⟨_, ?_, ends_operate m mem notes
      [.cycle .peekPc, .cycle (.pull .s .cc)] h
      (by simp [Straight, MicroOp.straight, MicroOp.queues]) rfl rfl rfl⟩
    change 1 + (2 + if (ConditionCodes.ofByte (mem.peek c.regs.s)).entire then 12 else 3) =
      6 + if (ConditionCodes.ofByte (mem.peek c.regs.s)).entire then 9 else 0
    split <;> rfl
  | software kind =>
    have fetch : Straight ⟨.software kind, mode⟩ (.cycle .dummy :: vectorFetch) := by
      simp [Straight, vectorFetch, MicroOp.straight, MicroOp.queues]
    have front : Straight ⟨.software kind, mode⟩ ([.cycle .peekPc] ++ Frame.program true) :=
      Straight.append (by simp [Straight, MicroOp.straight, MicroOp.queues]) (straight_frame _ _)
    refine ⟨_, ?_, ends_grown m mem notes _ (.cycle .dummy :: vectorFetch) h front
      (by simp) rfl (by decide) fetch rfl⟩
    rw [Instruction.time, Instruction.surplus, unindexed]
    rfl
  | sync =>
    refine ⟨_, ?_, ends_entered m mem notes [.cycle .peekPc] h
      (by simp [Straight, MicroOp.straight, MicroOp.queues]) (by decide) rfl⟩
    rw [Instruction.time, Instruction.surplus, unindexed]
    rfl
  | cwai =>
    have front : Straight ⟨.cwai, mode⟩
        ([.cycle .fetchOperand, .action .operate, .cycle .peekPc] ++ Frame.program true) :=
      Straight.append (by simp [Straight, MicroOp.straight, MicroOp.queues]) (straight_frame _ _)
    refine ⟨_, ?_, ends_entered m mem notes _ h front (by decide) rfl⟩
    rw [Instruction.time, Instruction.surplus, unindexed]
    rfl
  | lock =>
    refine ⟨_, ?_, ends_entered m mem notes [] h (by simp [Straight]) (by decide) rfl⟩
    rw [Instruction.time, Instruction.surplus, unindexed]
    rfl
  | _ => exact absurd rfl closing

/-- Every instruction of the map ends in its time. -/
theorem ends_decoded (m : Monitor σ) (mem : Memory) (notes : σ) {regs : RegisterFile}
    (h : c.Decoded i regs) (quiet : c.inputs.Quiet) (timed : i.Timed) (laid : i.LaidOut) :
    ∃ n, 1 + n = i.time mem.peek regs ∧ Ends m i n (settled m ⟨c, mem, notes⟩) := by
  obtain rfl := h.regs
  have within := Within.of_decoded h quiet
  cases closing : i.op.closing with
  | some action =>
    have closed : i.op.closing ≠ none := by
      rw [closing]
      nofun
    have plain : i.mode ≠ .indexed := fun indexed => closed (timed.indexed indexed).1
    rw [timed.closed closed] at within
    exact ends_closed m mem notes within closed plain
  | none =>
    obtain ⟨goesOn, surplus⟩ := Instruction.goesOn_of_closing closing
    rw [Instruction.time, surplus]
    by_cases indexed : i.mode = .indexed
    · obtain ⟨_, straight, length⟩ := timed.indexed indexed
      have postbyte : i.program = [.cycle .fetchPostbyte] := by
        rw [Instruction.program, indexed]
      rw [postbyte] at within
      refine ⟨_, ?_, ends_indexed m mem notes within straight (laid.lengthBody indexed) goesOn⟩
      rw [if_pos indexed, ← length, cyclesIn_indexProgram]
      omega
    · obtain ⟨straight, length⟩ := timed.plain indexed closing
      refine ⟨_, ?_, ends_plain m mem notes within straight goesOn⟩
      rw [if_neg indexed, ← length]
      rfl

end Board

/-! ## Steps -/

theorem Encodes.ne_selectPage {ram : Ram} {page : Byte} {pc : Word} {n : Nat} {i : Instruction}
    (encoded : Encodes ram page pc n i) (selected : Byte) : i.op ≠ .selectPage selected := by
  induction encoded with
  | opcode final => exact final selected
  | select _ _ ih => exact ih

/-- Memory has one opcode at most to offer from an address on. -/
theorem Encodes.unique {ram : Ram} {page : Byte} {pc : Word} {n n' : Nat} {i i' : Instruction}
    (encoded : Encodes ram page pc n i) (other : Encodes ram page pc n' i') : n = n' := by
  induction encoded generalizing n' i' with
  | opcode final =>
    cases other with
    | opcode _ => rfl
    | select selects _ => exact absurd selects (final _)
  | select selects _ ih =>
    cases other with
    | opcode final => exact absurd selects (final _)
    | select again more =>
      rw [selects] at again
      cases again
      exact congrArg (· + 1) (ih more)

/-- Somewhere there is a byte that selects no page. -/
theorem Encodes.exists_final {ram : Ram} {page : Byte} {pc : Word} {n : Nat} {i : Instruction}
    (encoded : Encodes ram page pc n i) :
    ∃ address, Instruction.selectsPage (ram address) = false := by
  induction encoded with
  | @opcode page pc final =>
    refine ⟨pc, ?_⟩
    cases selects : Instruction.selectsPage (ram pc) with
    | false => rfl
    | true =>
      obtain ⟨selected, operation⟩ := (Instruction.selectsPage_iff page).1 selects
      exact absurd operation (final selected)
  | select _ _ ih => exact ih

/-- So the page selections do not go around memory. -/
theorem Encodes.length_le {ram : Ram} {page : Byte} {pc : Word} {n : Nat} {i : Instruction}
    (encoded : Encodes ram page pc n i) : n ≤ 65536 := by
  obtain ⟨address, final⟩ := encoded.exists_final
  obtain ⟨n', bound, _, other⟩ := Encodes.exists_of_final final page pc
  rw [encoded.unique other]
  exact bound

/-- **Every step takes the time of the table.** From a boundary with nothing on the lines, on any
registers and any memory, an instruction behind `k` page selections takes `k` cycles and its
own time, under a monitor that never holds it. A step over SYNC, CWAI or the lock ends with the
processor waiting, and any other one at the next boundary. A boundary is what a reachable
processor shows as one. -/
theorem steps_take_their_time :
    (∀ c, Reachable anyCall c → c.atBoundary = true → c.AtOpcode 0) ∧
    ∀ {σ : Type} {m : Monitor σ}, m.Proceeds → ∀ b : Board Memory σ, b.cpu.AtOpcode 0 →
      b.cpu.inputs.Quiet → ∀ {k : Nat} {i : Instruction},
      Encodes b.bus.peek 0 b.cpu.regs.pc (k + 1) i →
      ∃ after : Board Memory σ, b.step m = (⟨k + i.time b.bus.peek
          { b.cpu.regs with pc := b.cpu.regs.pc + UInt16.ofNat (k + 1) }, true⟩, after) ∧
        if i.op.waits then after.cpu.isWaiting = true ∧ after.cpu.atBoundary = false
        else after.cpu.AtOpcode 0 ∧ after.cpu.inputs.Quiet := by
  refine ⟨fun c => Processor.atOpcode_of_reachable, ?_⟩
  intro σ m proceeds b start quiet k i encoded
  obtain ⟨page, opcode, decoded⟩ := encoded.decoded
  have timed : i.Timed := by
    rw [← decoded]
    exact Instruction.timed_decode page opcode (by rw [decoded]; exact encoded.ne_selectPage)
  have laid : i.LaidOut := by
    rw [← decoded]
    exact Instruction.laidOut_decode page opcode
  -- The opcode is fetched,
  obtain ⟨d, mem, notes, fetch, ready, same, still⟩ := encoded.runs proceeds b.bus b.notes
    start rfl rfl (List.length_replicate (a := Levels.low))
  have hushed := still (fun _ => List.eq_of_mem_replicate) 0 quiet
  rw [Nat.zero_sub] at hushed
  -- and what is behind it takes the rest of the time.
  obtain ⟨n, time, after, runs, ends⟩ := Board.ends_decoded m mem notes ready hushed timed laid
  rw [same] at time
  have whole := fetch.trans runs
  rw [Board.lows, List.replicate_append_replicate] at whole
  have bound := i.time_le b.bus.peek
    { b.cpu.regs with pc := b.cpu.regs.pc + UInt16.ofNat (k + 1) }
  have length := encoded.length_le
  have stops : after.cpu.EndsStep := by
    split at ends
    · exact Or.inr ends.1
    · exact Or.inl ends.1.atBoundary
  refine ⟨after, ?_, ends⟩
  have all : ∀ levels ∈ Board.lows (k + 1 + n), levels = b.cpu.inputs.live := by
    intro levels mem
    rw [List.eq_of_mem_replicate mem, quiet.1]
  have enough : (Board.lows (k + 1 + n)).length ≤ Board.stepLimit := by
    rw [List.length_replicate, Board.stepLimit]
    omega
  have steps := whole.stepWithin_of_ends all stops enough
  rw [List.length_replicate, Nat.add_assoc, time] at steps
  exact steps

/-- A redundant page selection before PSHS of every register: one cycle, five, and one for each
of the twelve bytes. -/
theorem steps_take_their_time_pshs :
    ∃ (mem : Memory) (after : Board Memory Unit),
      (mem.peek 0x1000 = 0x10 ∧ mem.peek 0x1001 = 0x34 ∧ mem.peek 0x1002 = 0xFF) ∧
      Board.step .silent ⟨Processor.powerOn.setPc 0x1000, mem, ()⟩ = (⟨18, true⟩, after) ∧
      after.cpu.AtOpcode 0 := by
  let mem := ((Memory.blank.poke 0x1000 0x10).poke 0x1001 0x34).poke 0x1002 0xFF
  have first : mem.peek 0x1000 = 0x10 := by
    rw [Memory.peek_poke, if_neg (by decide), Memory.peek_poke, if_neg (by decide),
      Memory.peek_poke_self]
  have second : mem.peek 0x1001 = 0x34 := by
    rw [Memory.peek_poke, if_neg (by decide), Memory.peek_poke_self]
  have third : mem.peek 0x1002 = 0xFF := Memory.peek_poke_self _ _ _
  have selects : Instruction.decode 0 (mem.peek 0x1000) = ⟨.selectPage 2, .inherent⟩ := by
    rw [first]
    decide
  have pushes : Instruction.decode 2 (mem.peek 0x1001) = ⟨.push .s, .immediate⟩ := by
    rw [second]
    decide
  have encoded : Encodes mem.peek 0 0x1000 2 ⟨.push .s, .immediate⟩ :=
    .select (congrArg Instruction.op selects) (.of_decode pushes nofun)
  have start : (Processor.powerOn.setPc 0x1000).AtOpcode 0 :=
    steps_take_their_time.1 _ (.call (.setPc 0x1000) trivial .powerOn) (by decide)
  obtain ⟨after, step, boundary, _⟩ :=
    steps_take_their_time.2 (m := .silent) (fun _ _ => rfl)
      ⟨Processor.powerOn.setPc 0x1000, mem, ()⟩ start ⟨rfl, rfl, rfl⟩ encoded
  have time : 1 + (⟨.push .s, .immediate⟩ : Instruction).time mem.peek
      { Processor.powerOn.regs with pc := 0x1002 } = 18 := by
    change 1 + (5 + RegisterList.bytes (mem.peek 0x1002)) = 18
    rw [third]
    decide
  refine ⟨mem, after, ⟨first, second, third⟩, ?_, boundary⟩
  rw [step, ← time]
  rfl

end Sim6809
