/-
Data instructions refine the instruction set.

`Instruction.execute` says in one step what an instruction means, and the processor
does it in up to a dozen cycles, with latches that it shares among all of them. The
proof follows the program: the cycles that form the address, one lemma for each mode,
then the body, one case for each family of operations. Each lemma says what a list of
steps does to registers and memory, whatever the latches held before, so they can be
put together by `enactAll_append`. The only step of such a program that is not straight
is the fetch of an indexed postbyte, which is where the indexed mode is cut in two.

The clocks come last (`Board.runs_decoded`), and with them the inputs: two cycles on
low lines are enough for the stages behind them to come to rest before the next
boundary, and a data instruction has two.
-/
import Sim6809.Proofs.Fetching
import Sim6809.Proofs.InstructionSet

set_option autoImplicit false

namespace Sim6809

open Arithmetic

/-! ## Address cycles -/

theorem enact_directCycles (c : Processor) (ram : Ram) :
    enactAll [.cycle .fetchDirect, .cycle .dummy] (c, ram) =
      ({ c with regs := { c.regs with pc := c.regs.pc + 1 }
                ea := Word.ofBytes c.regs.dp (ram c.regs.pc) }, ram) :=
  rfl

theorem enact_extendedCycles (c : Processor) (ram : Ram) :
    enactAll [.cycle .fetchAddress, .cycle .fetchAddress, .cycle .dummy] (c, ram) =
      ({ c with regs := { c.regs with pc := c.regs.pc + 2 }, ea := ram.word c.regs.pc }, ram) := by
  have second : c.regs.pc + 1 + 1 = c.regs.pc + 2 := by rw [UInt16.add_assoc]; rfl
  have word : Word.shiftIn (Word.shiftIn c.ea (ram c.regs.pc)) (ram (c.regs.pc + 1)) =
      ram.word c.regs.pc := Word.shiftIn_shiftIn _ _ _
  rw [← second, ← word]
  rfl

theorem enact_indirection (c : Processor) (ram : Ram) :
    enactAll IndexForm.indirection (c, ram) =
      ({ c with ea := ram.word c.ea, data := ram.word c.ea }, ram) := by
  have first : c.ea + (0 : Byte).toUInt16 = c.ea := UInt16.add_zero _
  have word : Word.shiftIn (Word.shiftIn c.data (ram (c.ea + (0 : Byte).toUInt16)))
      (ram (c.ea + (1 : Byte).toUInt16)) = ram.word c.ea := by
    rw [first]
    exact Word.shiftIn_shiftIn _ _ _
  rw [← word]
  rfl

theorem index_withPc (r : RegisterFile) (pc : Word) (register : IndexRegister) :
    ({ r with pc := pc }).index register = r.index register := by
  cases register <;> rfl

/-! A form without bytes of its own has its address from the start, and its cycles are
idle. -/

theorem enact_idleCycles {form : IndexForm} (none : form.extraBytes = 0)
    (sight : Processor × Ram) : enactAll form.cycles sight = sight := by
  cases form with
  | offset8 | offset16 | pcOffset8 | pcOffset16 | absolute => cases none
  | _ => rfl

theorem target_of_idle {form : IndexForm} (none : form.extraBytes = 0) (postbyte : Byte)
    (ram : Ram) (r : RegisterFile) (ea : Word) :
    (form.address? postbyte r).getD ea = form.target postbyte ram r r.pc := by
  cases form with
  | offset8 | offset16 | pcOffset8 | pcOffset16 | absolute => cases none
  | _ => rfl

theorem step_of_busy {form : IndexForm} (some : form.extraBytes ≠ 0) : form.step = 0 := by
  cases form with
  | offset8 | offset16 | pcOffset8 | pcOffset16 | absolute => rfl
  | _ => exact absurd rfl some

/-- The other forms fetch their bytes and form the address from them. They step no
register. -/
theorem enact_busyCycles {form : IndexForm} (some : form.extraBytes ≠ 0) (c : Processor)
    (ram : Ram) :
    ∃ data, enactAll form.cycles (c, ram) =
      ({ c with regs := { c.regs with pc := c.regs.pc + UInt16.ofNat form.extraBytes }
                ea := form.target c.postbyte ram c.regs c.regs.pc, data := data }, ram) := by
  have two : c.regs.pc + UInt16.ofNat 2 = c.regs.pc + 1 + 1 :=
    (UInt16.add_assoc c.regs.pc 1 1).symm
  have first : Word.low (Word.shiftIn c.data (ram c.regs.pc)) = ram c.regs.pc :=
    Word.low_shiftIn _ _
  have word : ∀ w, Word.shiftIn (Word.shiftIn w (ram c.regs.pc)) (ram (c.regs.pc + 1)) =
      ram.word c.regs.pc := fun w => Word.shiftIn_shiftIn w _ _
  cases form with
  | offset8 =>
    have ea : ({ c.regs with pc := c.regs.pc + 1 }).index (.ofPostbyte c.postbyte) +
        Word.signExtend (Word.low (Word.shiftIn c.data (ram c.regs.pc))) =
        IndexForm.offset8.target c.postbyte ram c.regs c.regs.pc := by
      rw [index_withPc, first]
      rfl
    refine ⟨Word.shiftIn c.data (ram c.regs.pc), ?_⟩
    rw [← ea]
    rfl
  | offset16 =>
    refine ⟨Word.shiftIn (Word.shiftIn c.data (ram c.regs.pc)) (ram (c.regs.pc + 1)), ?_⟩
    rw [IndexForm.target, ← index_withPc c.regs (c.regs.pc + 1 + 1), ← word c.data,
      IndexForm.extraBytes, two]
    rfl
  | pcOffset8 =>
    have ea : c.regs.pc + 1 +
        Word.signExtend (Word.low (Word.shiftIn c.data (ram c.regs.pc))) =
        IndexForm.pcOffset8.target c.postbyte ram c.regs c.regs.pc := by
      rw [first]
      rfl
    refine ⟨Word.shiftIn c.data (ram c.regs.pc), ?_⟩
    rw [← ea]
    rfl
  | pcOffset16 =>
    refine ⟨Word.shiftIn (Word.shiftIn c.data (ram c.regs.pc)) (ram (c.regs.pc + 1)), ?_⟩
    rw [IndexForm.target, ← word c.data, IndexForm.extraBytes, two]
    change _ = (({ c with
      regs := { c.regs with pc := c.regs.pc + 1 + 1 }
      ea := c.regs.pc + UInt16.ofNat 2 + _, data := _ } : Processor), ram)
    rw [two]
    rfl
  | absolute =>
    refine ⟨c.data, ?_⟩
    rw [IndexForm.target, ← word c.ea, IndexForm.extraBytes, two]
    rfl
  | _ => exact absurd rfl some

theorem target_withPc (form : IndexForm) (postbyte : Byte) (ram : Ram) (r : RegisterFile)
    (pc next : Word) :
    form.target postbyte ram { r with pc := pc } next = form.target postbyte ram r next := by
  unfold IndexForm.target
  rw [index_withPc]
  rfl

/-- What the postbyte itself does: the register is stepped, and an address that needs no
more bytes is formed. -/
theorem enact_postbyte (c : Processor) (ram : Ram) :
    MicroOp.enact (.cycle .fetchPostbyte) (c, ram) =
      ({ c with
          postbyte := ram c.regs.pc
          ea := ((IndexForm.ofPostbyte (ram c.regs.pc)).address? (ram c.regs.pc)
            { c.regs with pc := c.regs.pc + 1 }).getD c.ea
          regs := { Postbyte.stepped (ram c.regs.pc) c.regs with pc := c.regs.pc + 1 } },
        ram) := by
  rw [← Postbyte.stepped_withPc, ← Postbyte.stepped_eq]
  rfl

/-- The postbyte and the cycles of its form. -/
theorem enact_form (c : Processor) (ram : Ram) :
    ∃ data, enactAll (IndexForm.ofPostbyte (ram c.regs.pc)).cycles
        (MicroOp.enact (.cycle .fetchPostbyte) (c, ram)) =
      ({ c with
          postbyte := ram c.regs.pc
          regs := { Postbyte.stepped (ram c.regs.pc) c.regs with
            pc := c.regs.pc +
              UInt16.ofNat (1 + (IndexForm.ofPostbyte (ram c.regs.pc)).extraBytes) }
          ea := (IndexForm.ofPostbyte (ram c.regs.pc)).target (ram c.regs.pc) ram c.regs
            (c.regs.pc + 1)
          data := data }, ram) := by
  rw [enact_postbyte]
  by_cases none : (IndexForm.ofPostbyte (ram c.regs.pc)).extraBytes = 0
  · refine ⟨c.data, ?_⟩
    rw [enact_idleCycles none, target_of_idle none (ram c.regs.pc) ram, target_withPc, none]
    rfl
  · -- No register is stepped, so the address is formed from the registers as they were.
    have same : Postbyte.stepped (ram c.regs.pc) c.regs = c.regs :=
      Postbyte.stepped_of_still (step_of_busy none) c.regs
    obtain ⟨data, formed⟩ := enact_busyCycles none
      { c with
          postbyte := ram c.regs.pc
          ea := ((IndexForm.ofPostbyte (ram c.regs.pc)).address? (ram c.regs.pc)
            { c.regs with pc := c.regs.pc + 1 }).getD c.ea
          regs := { c.regs with pc := c.regs.pc + 1 } } ram
    refine ⟨data, ?_⟩
    rw [same, formed, target_withPc, UInt16.ofNat_add, ← UInt16.add_assoc]
    rfl

/-- All address cycles of an indexed instruction. -/
theorem enact_indexed (c : Processor) (ram : Ram) :
    ∃ data, enactAll (IndexForm.program (ram c.regs.pc))
        (MicroOp.enact (.cycle .fetchPostbyte) (c, ram)) =
      ({ c with
          postbyte := ram c.regs.pc
          regs := { Postbyte.stepped (ram c.regs.pc) c.regs with
            pc := c.regs.pc + UInt16.ofNat (1 + Postbyte.operandBytes (ram c.regs.pc)) }
          ea := Postbyte.address (ram c.regs.pc) ram c.regs (c.regs.pc + 1)
          data := data }, ram) := by
  obtain ⟨data, formed⟩ := enact_form c ram
  rw [IndexForm.program, enactAll_append, formed, Postbyte.target_eq, Postbyte.extraBytes_eq,
    Postbyte.address, ← Postbyte.isPointer_eq]
  by_cases indirect : IndexForm.isIndirect (ram c.regs.pc) = true
  · simp only [indirect, if_true, enact_indirection]
    exact ⟨_, rfl⟩
  · simp only [indirect]
    exact ⟨data, rfl⟩

/-! ## Bodies -/

/-- A body computes on the operand at the effective address. -/
theorem enact_body {c : Processor} (ram : Ram) (data : c.instruction.op.isData = true)
    (memory : c.instruction.mode ≠ .immediate) :
    seen (enactAll c.instruction.body (c, ram)) = c.instruction.op.execute c.ea c.regs ram := by
  obtain ⟨regs, inputs, phase, schedule, ⟨op, mode⟩, page, postbyte, ea, latch, result,
    announced, cycles⟩ := c
  have here : ea + (0 : Byte).toUInt16 = ea := UInt16.add_zero ea
  have byte : Word.low (Word.shiftIn latch (ram (ea + (0 : Byte).toUInt16))) = ram ea := by
    rw [here, Word.low_shiftIn]
  have word : Word.shiftIn (Word.shiftIn latch (ram (ea + (0 : Byte).toUInt16)))
      (ram (ea + (1 : Byte).toUInt16)) = ram.word ea := by
    rw [here]
    exact Word.shiftIn_shiftIn _ _ _
  cases op with
  | byte op register =>
    have body : Instruction.body ⟨.byte op register, mode⟩ =
        [.cycle (.read 0), .action .operate] := by
      rw [Instruction.body, Instruction.byteOperand, if_neg memory]
      rfl
    rw [body, Operation.execute_byte, ← byte]
    rfl
  | word op register =>
    have body : Instruction.body ⟨.word op register, mode⟩ =
        [.cycle (.read 0), .cycle (.read 1), .cycle .dummy, .action .operate] := by
      rw [Instruction.body, Instruction.wordOperand, if_neg memory]
      rfl
    rw [body, Operation.execute_word, ← word]
    -- A comparison keeps nothing, and both other operations load their register.
    cases op <;> rfl
  | loadWord register =>
    have body : Instruction.body ⟨.loadWord register, mode⟩ =
        [.cycle (.read 0), .cycle (.read 1), .action .operate] := by
      rw [Instruction.body, Instruction.wordOperand, if_neg memory]
      rfl
    rw [body, Operation.execute_loadWord, ← word]
    rfl
  | store register =>
    have out : ∀ value : Byte, Word.low value.toUInt16 = value := UInt8.toUInt8_toUInt16
    rw [Operation.execute_store]
    dsimp only
    rw [← out (passByte regs.cc (regs.accumulator register)).value]
    rfl
  | storeWord register =>
    rw [Operation.execute_storeWord]
    rfl
  | unary op target =>
    have out : ∀ value : Byte, Word.low value.toUInt16 = value := UInt8.toUInt8_toUInt16
    cases target with
    | accumulator register => cases data
    | memory =>
      rw [Operation.execute, ← byte]
      cases op with
      | tst => rfl
      | _ =>
        rw [if_neg (by decide), ← out (Arithmetic.UnaryOp.apply _ _ _).value]
        rfl
  | _ => cases data

/-- An immediate operand is fetched from the instruction, and PC moves past it. -/
theorem enact_immediateBody {c : Processor} (ram : Ram)
    (fetches : c.instruction.op.hasImmediate = true) (immediate : c.instruction.mode = .immediate) :
    seen (enactAll c.instruction.body (c, ram)) =
      c.instruction.op.execute c.regs.pc
        { c.regs with pc := c.regs.pc + UInt16.ofNat c.instruction.op.immediateBytes } ram := by
  obtain ⟨regs, inputs, phase, schedule, ⟨op, mode⟩, page, postbyte, ea, latch, result,
    announced, cycles⟩ := c
  cases immediate
  have byte : Word.low (Word.shiftIn latch (ram regs.pc)) = ram regs.pc := Word.low_shiftIn _ _
  have word : Word.shiftIn (Word.shiftIn latch (ram regs.pc)) (ram (regs.pc + 1)) =
      ram.word regs.pc := Word.shiftIn_shiftIn _ _ _
  have two : regs.pc + UInt16.ofNat 2 = regs.pc + 1 + 1 := (UInt16.add_assoc regs.pc 1 1).symm
  cases op with
  | byte op register =>
    rw [Operation.execute_byte, ← byte]
    rfl
  | word op register =>
    rw [Operation.execute_word, ← word, Operation.immediateBytes, two]
    cases op <;> rfl
  | loadWord register =>
    rw [Operation.execute_loadWord, ← word, Operation.immediateBytes, two]
    rfl
  | _ => cases fetches

/-! ## Programs -/

theorem Instruction.straight_body {i : Instruction} (data : i.op.isData = true) :
    Straight i i.body := by
  obtain ⟨op, mode⟩ := i
  cases op with
  | byte _ _ | word _ _ | loadWord _ =>
    cases mode <;> simp [Straight, Instruction.body, Instruction.byteOperand,
      Instruction.wordOperand, MicroOp.straight, MicroOp.queues]
  | store _ | storeWord _ =>
    simp [Straight, Instruction.body, MicroOp.straight, MicroOp.queues]
  | unary op target =>
    cases target with
    | accumulator _ => cases data
    | memory =>
      cases op <;> simp [Straight, Instruction.body, MicroOp.straight, MicroOp.queues]
  | _ => cases data

theorem Instruction.length_body_le {i : Instruction} (data : i.op.isData = true) :
    i.body.length ≤ 4 := by
  obtain ⟨op, mode⟩ := i
  cases op with
  | byte _ _ | word _ _ | loadWord _ =>
    cases mode <;> simp [Instruction.body, Instruction.byteOperand, Instruction.wordOperand]
  | store _ | storeWord _ => simp [Instruction.body]
  | unary op target =>
    cases target with
    | accumulator _ => cases data
    | memory => cases op <;> simp [Instruction.body]
  | _ => cases data

theorem Instruction.one_le_cycles_body {i : Instruction} (data : i.op.isData = true) :
    1 ≤ i.body.countP (·.usesBus) := by
  obtain ⟨op, mode⟩ := i
  cases op with
  | byte _ _ | word _ _ | loadWord _ =>
    cases mode <;> simp [Instruction.body, Instruction.byteOperand, Instruction.wordOperand,
      MicroOp.usesBus]
  | store _ | storeWord _ => simp [Instruction.body, MicroOp.usesBus]
  | unary op target =>
    cases target with
    | accumulator _ => cases data
    | memory => cases op <;> simp [Instruction.body, MicroOp.usesBus]
  | _ => cases data

/-- Together with the opcode that is time for the inputs to come to rest. -/
theorem Instruction.one_le_cycles {i : Instruction} (data : i.op.isData = true)
    (plain : i.mode ≠ .indexed) : 1 ≤ i.program.countP (·.usesBus) := by
  have body := one_le_cycles_body data
  cases mode : i.mode with
  | indexed => exact absurd mode plain
  | direct | extended =>
    rw [Instruction.program, mode, List.countP_append]
    exact Nat.le_add_left_of_le body
  | _ =>
    rw [Instruction.program, mode]
    exact body

theorem Instruction.straight_program {i : Instruction} (data : i.op.isData = true)
    (plain : i.mode ≠ .indexed) : Straight i i.program := by
  have body := straight_body data
  cases mode : i.mode with
  | indexed => exact absurd mode plain
  | direct | extended =>
    rw [Instruction.program, mode]
    refine Straight.append ?_ body
    simp [Straight, MicroOp.straight, MicroOp.queues]
  | _ =>
    rw [Instruction.program, mode]
    exact body

theorem straight_indexProgram (i : Instruction) (postbyte : Byte) :
    Straight i (IndexForm.program postbyte) := by
  refine Straight.append ?_ ?_
  · cases IndexForm.ofPostbyte postbyte <;>
      simp [Straight, IndexForm.cycles, MicroOp.straight, MicroOp.queues]
  · split <;> simp [Straight, IndexForm.indirection, MicroOp.straight, MicroOp.queues]

/-- The modes in which the opcode map has data instructions. -/
def Instruction.hasDataMode (i : Instruction) : Bool :=
  match i.mode with
  | .direct | .extended | .indexed => true
  | .immediate => i.op.hasImmediate
  | .inherent | .relative => false

theorem Instruction.hasDataMode_decode (page opcode : Byte) :
    (decode page opcode).op.isData = true → (decode page opcode).hasDataMode = true :=
  decode_induction (P := fun i => i.op.isData = true → i.hasDataMode = true)
    (by decide +kernel) (by decide +kernel) (by decide +kernel) page opcode

/-- Outside of the indexed mode the program is a stretch, and does what the instruction
is meant to do. -/
theorem enact_program {c : Processor} (ram : Ram) (data : c.instruction.op.isData = true)
    (mode : c.instruction.hasDataMode = true) (plain : c.instruction.mode ≠ .indexed) :
    seen (enactAll c.instruction.program (c, ram)) =
      c.instruction.execute ram c.regs c.regs.pc := by
  cases case : c.instruction.mode with
  | immediate =>
    have fetches : c.instruction.op.hasImmediate = true := by
      rw [Instruction.hasDataMode, case] at mode
      exact mode
    rw [Instruction.program, case, Instruction.execute, Instruction.effectiveAddress,
      Instruction.addressed, Instruction.operandLength, case]
    exact enact_immediateBody ram fetches case
  | direct =>
    rw [Instruction.program, case, Instruction.execute, Instruction.effectiveAddress,
      Instruction.addressed, Instruction.operandLength, case]
    dsimp only
    rw [enactAll_append, enact_directCycles]
    exact enact_body (c := { c with
      regs := { c.regs with pc := c.regs.pc + 1 }
      ea := Word.ofBytes c.regs.dp (ram c.regs.pc) }) ram data (by rw [case]; decide)
  | extended =>
    rw [Instruction.program, case, Instruction.execute, Instruction.effectiveAddress,
      Instruction.addressed, Instruction.operandLength, case]
    dsimp only
    rw [enactAll_append, enact_extendedCycles]
    exact enact_body (c := { c with
      regs := { c.regs with pc := c.regs.pc + 2 }
      ea := ram.word c.regs.pc }) ram data (by rw [case]; decide)
  | indexed => exact absurd case plain
  | inherent | relative =>
    rw [Instruction.hasDataMode, case] at mode
    cases mode

/-- In the indexed mode the postbyte comes first, and queues the rest. -/
theorem enact_indexedProgram {c : Processor} (ram : Ram) (data : c.instruction.op.isData = true)
    (indexed : c.instruction.mode = .indexed) :
    seen (enactAll (IndexForm.program (ram c.regs.pc) ++ c.instruction.body)
        (MicroOp.enact (.cycle .fetchPostbyte) (c, ram))) =
      c.instruction.execute ram c.regs c.regs.pc := by
  obtain ⟨latch, formed⟩ := enact_indexed c ram
  rw [enactAll_append, formed, Instruction.execute, Instruction.effectiveAddress,
    Instruction.addressed, Instruction.operandLength, indexed]
  exact enact_body (c := { c with
      postbyte := ram c.regs.pc
      regs := { Postbyte.stepped (ram c.regs.pc) c.regs with
        pc := c.regs.pc + UInt16.ofNat (1 + Postbyte.operandBytes (ram c.regs.pc)) }
      ea := Postbyte.address (ram c.regs.pc) ram c.regs (c.regs.pc + 1)
      data := latch }) ram data (by rw [indexed]; decide)

/-! ## Runs -/

/-- In the indexed mode the fetch of the postbyte comes first, and takes up what it
queues. -/
theorem Board.clock_fetchPostbyte {σ : Type} (m : Monitor σ) {c : Processor} (mem : Memory)
    (notes : σ) (levels : Levels) (consistent : c.schedule.Consistent)
    (pending : c.schedule.pending = [.cycle .fetchPostbyte])
    (length : c.instruction.body.length ≤ 5) :
    ∃ d, clock m (withLevels levels ⟨c, mem, notes⟩) =
        (.cycle, settled m ⟨d, mem.counted, notes⟩) ∧
      d.schedule.Consistent ∧
      d.schedule.pending = IndexForm.program (mem.peek c.regs.pc) ++ c.instruction.body ∧
      d.instruction = c.instruction ∧ d.phase = c.phase ∧ d.page = c.page ∧
      d.inputs = (c.withLevels levels).inputs.cycle ∧
      Alike (d, mem.peek) (MicroOp.enact (.cycle .fetchPostbyte) (c, mem.peek)) := by
  have clocked :=
    clock_of_cycle (c := c.withLevels levels) m mem notes consistent pending (by decide)
  have room : (IndexForm.program (mem.peek c.regs.pc) ++ c.instruction.body).length ≤ 32 := by
    have address := length_indexProgram_le (mem.peek c.regs.pc)
    rw [List.length_append]
    omega
  have queued := Schedule.pending_advance_extend consistent pending _ room
  exact ⟨(c.withLevels levels).carryOut .fetchPostbyte (mem.peek c.regs.pc), clocked,
    consistent.advance.extend _, queued, rfl, rfl, rfl, rfl, ⟨rfl, rfl⟩⟩

/-- A decoded data instruction, on low lines. -/
theorem Board.runs_decoded {σ : Type} (m : Monitor σ) {c : Processor} {i : Instruction}
    {regs : RegisterFile} (mem : Memory) (notes : σ) (h : c.Decoded i regs)
    (data : i.op.isData = true) (mode : i.hasDataMode = true) (quiet : c.inputs.QuietIn 1) :
    ∃ lines e mem' notes', (∀ levels ∈ lines, levels = Levels.low) ∧
      Runs m Processor.Busy lines (settled m ⟨c, mem, notes⟩) (settled m ⟨e, mem', notes'⟩) ∧
      e.Finished ∧ e.inputs.Quiet ∧ seen (e, mem'.peek) = i.execute mem.peek regs regs.pc := by
  obtain rfl := h.instruction
  obtain rfl := h.regs
  have low : ∀ k, ∀ levels ∈ List.replicate k Levels.low, levels = .low :=
    fun k levels mem => List.eq_of_mem_replicate mem
  by_cases indexed : c.instruction.mode = .indexed
  · have pending : c.schedule.pending = [.cycle .fetchPostbyte] := by
      rw [h.pending, Instruction.program, indexed]
    have busy : c.Busy := by
      refine Processor.Amid.busy ⟨h.phase, .fetchPostbyte, ?_, by decide⟩
      rw [Schedule.current_eq_head? h.consistent, pending]
      rfl
    obtain ⟨d, clocked, consistent, queued, instruction, phase, page, inputs, alike⟩ :=
      clock_fetchPostbyte m mem notes .low h.consistent pending
        (Nat.le_succ_of_le (Instruction.length_body_le data))
    have straight : Straight d.instruction
        (IndexForm.program (mem.peek c.regs.pc) ++ c.instruction.body) := by
      rw [instruction]
      exact (straight_indexProgram _ _).append (Instruction.straight_body data)
    obtain ⟨e, mem', notes', runs, finished, still, sees⟩ :=
      runs_finish m mem.counted notes consistent queued straight (phase.trans h.phase)
        (page.trans h.page) (List.length_replicate (a := Levels.low))
    have rested := still (low _) 0 (by rw [inputs]; exact (quiet.drive rfl).cycle)
    rw [Nat.zero_sub] at rested
    rw [settled_of_rest (Processor.move?_of_cycle h.consistent pending)]
    refine ⟨.low :: List.replicate _ .low, e, mem', notes', low (_ + 1),
      Runs.clock busy clocked runs, finished, rested, ?_⟩
    rw [← enact_indexedProgram mem.peek data indexed, sees]
    exact (alike.enactAll straight).seen
  · obtain ⟨e, mem', notes', runs, finished, still, sees⟩ :=
      runs_finish m mem notes h.consistent h.pending
        (Instruction.straight_program data indexed) h.phase h.page
        (List.length_replicate (a := Levels.low))
    have rested := still (low _) 1 quiet
    rw [List.length_replicate, Nat.sub_eq_zero_of_le (Instruction.one_le_cycles data indexed)]
      at rested
    refine ⟨_, e, mem', notes', low _, runs, finished, rested, ?_⟩
    rw [← enact_program mem.peek data mode indexed]
    exact sees

theorem Instruction.effectiveAddress_withPc (i : Instruction) (ram : Ram) (r : RegisterFile)
    (pc next : Word) :
    i.effectiveAddress ram { r with pc := pc } next = i.effectiveAddress ram r next := by
  simp only [Instruction.effectiveAddress, Postbyte.address_withPc]

/-- Where the instruction is does not depend on what PC holds besides. -/
theorem Instruction.execute_withPc (i : Instruction) (ram : Ram) (r : RegisterFile)
    (pc next : Word) : i.execute ram { r with pc := pc } next = i.execute ram r next := by
  have registers : i.addressed ram { r with pc := pc } next = i.addressed ram r next := by
    unfold Instruction.addressed
    split
    · rw [Postbyte.stepped_withPc]
    · rfl
  rw [Instruction.execute, effectiveAddress_withPc, registers, Instruction.execute]

/-- No data instruction writes PC, beyond moving it past its bytes. -/
theorem pc_execute (op : Operation) (ea : Word) (r : RegisterFile) (ram : Ram) :
    (op.execute ea r ram).1.pc = r.pc := by
  unfold Operation.execute
  split
  · next op register =>
    dsimp only
    split
    · rfl
    · cases register <;> rfl
  · next op register =>
    dsimp only
    split
    · rfl
    · cases register <;> rfl
  · next register => cases register <;> rfl
  all_goals rfl

theorem Encodes.pos {ram : Ram} {page : Byte} {pc : Word} {n : Nat} {i : Instruction}
    (encoded : Encodes ram page pc n i) : 0 < n := by
  cases encoded with
  | opcode => exact Nat.one_pos
  | select => exact Nat.succ_pos _

theorem Encodes.decoded {ram : Ram} {page : Byte} {pc : Word} {n : Nat} {i : Instruction}
    (encoded : Encodes ram page pc n i) : ∃ page opcode, Instruction.decode page opcode = i := by
  induction encoded with
  | opcode => exact ⟨_, _, rfl⟩
  | select _ _ ih => exact ih

/-- **Data instructions refine the instruction set.** From any boundary on low lines, with
no edge of NMI waiting, and with any registers and memory, a step over an instruction of
this kind comes to the next boundary, with the registers and the memory that its
definition gives; PC has moved past all of its bytes. -/
theorem data_instruction_refines {σ : Type} {m : Monitor σ} (proceeds : m.Proceeds)
    (b : Board Memory σ) (start : b.cpu.AtOpcode 0) (low : b.cpu.inputs.live = .low)
    (unasked : b.cpu.inputs.latched.nmi = false) {n : Nat}
    {i : Instruction} (encoded : Encodes b.bus.peek 0 b.cpu.regs.pc n i)
    (data : i.op.isData = true) :
    ∃ cycles after, (∀ limit, cycles ≤ limit → b.stepWithin m limit = (⟨cycles, true⟩, after)) ∧
      after.cpu.AtOpcode 0 ∧ after.cpu.inputs.Quiet ∧
      (after.cpu.regs, after.bus.peek) =
        i.execute b.bus.peek b.cpu.regs (b.cpu.regs.pc + UInt16.ofNat n) ∧
      after.cpu.regs.pc = b.cpu.regs.pc +
        UInt16.ofNat (n + i.operandLength b.bus.peek (b.cpu.regs.pc + UInt16.ofNat n)) := by
  obtain ⟨page, opcode, decoded⟩ := encoded.decoded
  have mode : i.hasDataMode = true := by
    rw [← decoded] at data ⊢
    exact Instruction.hasDataMode_decode page opcode data
  -- The opcode is fetched,
  obtain ⟨d, mem, notes, fetch, ready, same, still⟩ := encoded.runs proceeds b.bus b.notes
    start rfl rfl (List.length_replicate (a := Levels.low))
  -- the rest of the program runs,
  have quiet : b.cpu.inputs.QuietIn (n + 1) := by
    obtain ⟨j, rfl⟩ := Nat.exists_eq_add_one.2 encoded.pos
    exact ⟨low, unasked⟩
  have hushed := still (fun levels mem => List.eq_of_mem_replicate mem) (n + 1) quiet
  rw [Nat.add_sub_cancel_left] at hushed
  obtain ⟨lines, e, mem', notes', low', runs, finished, quiet', sees⟩ :=
    Board.runs_decoded m mem notes ready data mode hushed
  -- and the processor goes on to the next opcode.
  obtain ⟨f, notes'', settled, boundary, regs, quiet''⟩ :=
    Board.settled_boundary m finished quiet' mem' notes'
  rw [settled] at runs
  rw [same] at sees
  have all : ∀ levels ∈ List.replicate n Levels.low ++ lines, levels = b.cpu.inputs.live := by
    intro levels mem
    rw [low]
    rcases List.mem_append.1 mem with mem | mem
    · exact List.eq_of_mem_replicate mem
    · exact low' levels mem
  have outcome : (f.regs, mem'.peek) =
      i.execute b.bus.peek b.cpu.regs (b.cpu.regs.pc + UInt16.ofNat n) := by
    rw [regs, ← Instruction.execute_withPc]
    exact sees
  refine ⟨(List.replicate n Levels.low ++ lines).length, ⟨f, mem', notes''⟩, ?_, boundary, quiet'',
    outcome, ?_⟩
  · intro limit enough
    exact (fetch.trans runs).stepWithin all boundary.atBoundary enough
  · have pc := congrArg (fun out : RegisterFile × Ram => out.1.pc) outcome
    change f.regs.pc = _
    dsimp only at pc
    rw [pc, Instruction.execute, pc_execute, UInt16.ofNat_add, ← UInt16.add_assoc]
    rfl

/-- `LDY ,X++`, which has a page selection and a postbyte: Y gets the word that X points to, X is
two further, and memory is as it was. -/
theorem data_instruction_refines_ldy :
    ∃ (mem : Memory) (before after : Board Memory Unit) (cycles : Nat),
      (mem.peek 0x1000 = 0x10 ∧ mem.peek 0x1001 = 0xAE ∧ mem.peek 0x1002 = 0x81 ∧
        Ram.word mem.peek 0x2000 = 0x9234) ∧
      before = ⟨Processor.setPc { Processor.powerOn with
        regs := { RegisterFile.powerOn with d := 0xABCD, x := 0x2000, y := 0x5678 } } 0x1000,
        mem, ()⟩ ∧
      (∀ limit, cycles ≤ limit → Board.stepWithin .silent limit before = (⟨cycles, true⟩, after)) ∧
      after.cpu.AtOpcode 0 ∧
      after.cpu.regs = { before.cpu.regs with
        pc := 0x1003, x := 0x2002, y := 0x9234
        cc := { before.cpu.regs.cc with negative := true } } ∧
      after.bus.peek = mem.peek := by
  let mem := ((((Memory.blank.poke 0x1000 0x10).poke 0x1001 0xAE).poke 0x1002 0x81).poke
    0x2000 0x92).poke 0x2001 0x34
  have first : mem.peek 0x1000 = 0x10 := by simp [mem, Memory.peek_poke]
  have second : mem.peek 0x1001 = 0xAE := by simp [mem, Memory.peek_poke]
  have third : mem.peek 0x1002 = 0x81 := by simp [mem, Memory.peek_poke]
  have operand : Ram.word mem.peek 0x2000 = 0x9234 := by
    have high : mem.peek 0x2000 = 0x92 := by simp [mem, Memory.peek_poke]
    have low : mem.peek 0x2001 = 0x34 := by simp [mem]
    rw [Ram.word, high, show (0x2000 + 1 : Word) = 0x2001 from rfl, low]
    decide
  let b : Board Memory Unit := ⟨Processor.setPc { Processor.powerOn with
    regs := { RegisterFile.powerOn with d := 0xABCD, x := 0x2000, y := 0x5678 } } 0x1000, mem, ()⟩
  have selects : Instruction.decode 0 (mem.peek 0x1000) = ⟨.selectPage 2, .inherent⟩ := by
    rw [first]
    decide
  have loads : Instruction.decode 2 (mem.peek 0x1001) = ⟨.loadWord .y, .indexed⟩ := by
    rw [second]
    decide
  have encoded : Encodes b.bus.peek 0 b.cpu.regs.pc 2 ⟨.loadWord .y, .indexed⟩ :=
    .select (congrArg Instruction.op selects) (.of_decode loads (by rintro _ ⟨⟩))
  have start : b.cpu.AtOpcode 0 := Processor.atOpcode_setPc _ _
  obtain ⟨cycles, after, steps, boundary, _, outcome, _⟩ :=
    data_instruction_refines (m := .silent) (fun _ _ => rfl) b start rfl rfl encoded rfl
  have address : Postbyte.address 0x81 mem.peek b.cpu.regs (0x1002 + 1) = 0x2000 := rfl
  have stepped : Postbyte.stepped 0x81 b.cpu.regs = { b.cpu.regs with x := 0x2002 } := rfl
  change (after.cpu.regs, after.bus.peek) =
    Instruction.execute ⟨.loadWord .y, .indexed⟩ mem.peek b.cpu.regs 0x1002 at outcome
  simp only [Instruction.execute, Operation.execute, Instruction.effectiveAddress,
    Instruction.addressed, Instruction.operandLength, third, if_true, stepped, address,
    operand] at outcome
  obtain ⟨regs, ram⟩ := Prod.mk.inj outcome
  exact ⟨mem, b, after, cycles, ⟨first, second, third, operand⟩, rfl, steps, boundary, regs, ram⟩

end Sim6809
