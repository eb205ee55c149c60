/-
Indexed addresses, read off the table.

`IndexForm` says how an indexed address is formed in the terms of the steps that form it: some
forms have their address with the postbyte, others fetch bytes of their own first. The table
of a programmer's reference knows nothing of that. It gives, for each postbyte, the address, the
change of the register and the number of bytes (`Postbyte.address`, `Postbyte.changed`,
`Postbyte.operandBytes`), and `InstructionSet` shows that the two agree on all 256 of them.

What the steps of a form do is known from the data instructions (`enact_indexed`), and it does
not depend on the instruction they are a part of. So the address is the one in the table when
the body of any indexed instruction begins, be it a load, a jump or an LEA, and whatever the
inputs do meanwhile.
-/
import Sim6809.Proofs.DataInstructions

set_option autoImplicit false

namespace Sim6809

/-- PC is behind the whole instruction, counted from the postbyte. -/
theorem Postbyte.registers_eq (p : Byte) (r : RegisterFile) (pc : Word) :
    { stepped p r with pc := pc + UInt16.ofNat (1 + operandBytes p) } =
      registers p r (pc + 1) := by
  rw [registers, UInt16.ofNat_add, ← UInt16.add_assoc]
  rfl

theorem Postbyte.registers_withPc (p : Byte) (r : RegisterFile) (pc next : Word) :
    registers p { r with pc := pc } next = registers p r next := by
  rw [registers, stepped_withPc, registers]

/-! ## Where the body begins -/

/-- The address cycles of an indexed instruction are done, and nothing of its body. The
postbyte is at `at_`, and `r` and `ram` are from before. -/
structure Processor.Addressed (i : Instruction) (r : RegisterFile) (ram : Ram) (at_ : Word)
    (c : Processor) : Prop where
  pending : c.schedule.pending = i.body
  instruction : c.instruction = i
  phase : c.phase = .execution
  postbyte : c.postbyte = ram at_
  ea : c.ea = Postbyte.address (ram at_) ram r (at_ + 1)
  regs : c.regs = Postbyte.registers (ram at_) r (at_ + 1)

namespace Board

/-- From the fetch of the postbyte up to the body, with any levels on the lines. -/
theorem runs_addressed {σ : Type} (m : Monitor σ) {c : Processor} {i : Instruction}
    {r : RegisterFile} (mem : Memory) (notes : σ) (h : c.Decoded i r)
    (indexed : i.mode = .indexed) (length : i.body.length ≤ 5) {lines : List Levels}
    (clocks : lines.length = 1 + (IndexForm.program (mem.peek r.pc)).countP (·.usesBus)) :
    ∃ d mem' notes', Runs m Processor.Busy lines (settled m ⟨c, mem, notes⟩)
        (settled m ⟨d, mem', notes'⟩) ∧
      d.Addressed i r mem.peek r.pc ∧ mem'.peek = mem.peek := by
  obtain rfl := h.instruction
  obtain rfl := h.regs
  have pending : c.schedule.pending = [.cycle .fetchPostbyte] := by
    rw [h.pending, Instruction.program, indexed]
  have busy : c.Busy := by
    refine Processor.Amid.busy ⟨h.phase, .fetchPostbyte, ?_, by decide⟩
    rw [Schedule.current_eq_head? h.consistent, pending]
    rfl
  rw [Nat.add_comm] at clocks
  obtain ⟨levels, more, rfl⟩ := List.exists_cons_of_length_eq_add_one clocks
  -- The postbyte queues what follows,
  obtain ⟨d, clocked, consistent, queued, instruction, phase, _, _, alike⟩ :=
    clock_fetchPostbyte m mem notes levels h.consistent pending length
  -- and of that the address cycles are a stretch.
  have straight := straight_indexProgram d.instruction (mem.peek c.regs.pc)
  obtain ⟨e, mem', notes', runs, done, stays⟩ :=
    (Headed.start mem.counted.peek c.instruction.body consistent queued straight).runs m notes
      (Nat.succ.inj clocks)
  obtain ⟨left, formed⟩ := done.nothingLeft
  obtain ⟨data, indexes⟩ := enact_indexed c mem.peek
  have whole := formed.trans (alike.enactAll straight)
  rw [indexes, Postbyte.registers_eq] at whole
  rw [phase.trans h.phase] at runs
  rw [settled_of_rest (Processor.move?_of_cycle h.consistent pending)]
  refine ⟨e, mem', notes', .clock busy clocked (runs.mono fun _ => Processor.Amid.busy), ?_,
    whole.ram⟩
  exact ⟨left, stays.instruction.trans instruction, (stays.phase.trans phase).trans h.phase,
    congrArg (·.postbyte) whole.core, congrArg (·.ea) whole.core, whole.regs⟩

end Board

/-- **Indexed addressing computes its table.** From any boundary with an instruction in the
indexed mode, the clocks for its opcode, its postbyte and its address cycles lead to where its
body begins, with any levels on the lines in each of them. The effective address is the one in
the table then, one register is changed and PC moved as the table says, and no other register
and no byte of memory is. -/
theorem indexed_address_tabulated {σ : Type} {m : Monitor σ} (proceeds : m.Proceeds)
    (b : Board Memory σ) (start : b.cpu.AtOpcode 0) {n : Nat} {i : Instruction}
    (encoded : Encodes b.bus.peek 0 b.cpu.regs.pc n i) (indexed : i.mode = .indexed)
    (lines : List Levels) (clocks : lines.length = n + (1 + (IndexForm.program
      (b.bus.peek (b.cpu.regs.pc + UInt16.ofNat n))).countP (·.usesBus))) :
    ∃ d mem notes, Board.UnderWay m lines b (Board.settled m ⟨d, mem, notes⟩) ∧
      d.Addressed i b.cpu.regs b.bus.peek (b.cpu.regs.pc + UInt16.ofNat n) ∧
      mem.peek = b.bus.peek := by
  obtain ⟨front, back, rfl, opcode, address⟩ := exists_append_of_length clocks
  obtain ⟨c, mem, notes, fetch, decoded, same, _⟩ :=
    encoded.runs proceeds b.bus b.notes start rfl rfl opcode
  have laid : i.LaidOut := by
    obtain ⟨page, byte, rfl⟩ := encoded.decoded
    exact Instruction.laidOut_decode page byte
  rw [← same] at address
  obtain ⟨d, mem', notes', runs, addressed, kept⟩ :=
    Board.runs_addressed m mem notes decoded indexed (laid.lengthBody indexed) address
  rw [same] at addressed kept
  -- What PC held at the opcode is not looked at.
  exact ⟨d, mem', notes', fetch.trans runs, ⟨addressed.pending, addressed.instruction,
    addressed.phase, addressed.postbyte, addressed.ea.trans (Postbyte.address_withPc _ _ _ _ _),
    addressed.regs.trans (Postbyte.registers_withPc _ _ _ _)⟩, kept⟩

/-- `LDA [,--Y]` with Y at zero: the pointer is the last word of memory. -/
theorem indexed_address_tabulated_lda :
    ∃ (mem : Memory) (d : Processor) (mem' : Memory),
      (mem.peek 0x1000 = 0xA6 ∧ mem.peek 0x1001 = 0xB3 ∧
        Ram.word mem.peek 0xFFFE = 0x2001) ∧
      Board.UnderWay .silent (.replicate 9 .low) ⟨Processor.powerOn.setPc 0x1000, mem, ()⟩
        (Board.settled .silent ⟨d, mem', ()⟩) ∧
      d.ea = 0x2001 ∧ d.regs.y = 0xFFFE ∧ d.regs.pc = 0x1002 := by
  let mem := (((Memory.blank.poke 0x1000 0xA6).poke 0x1001 0xB3).poke 0xFFFE 0x20).poke 0xFFFF 0x01
  have opcode : mem.peek 0x1000 = 0xA6 := by simp [mem, Memory.peek_poke]
  have postbyte : mem.peek 0x1001 = 0xB3 := by simp [mem, Memory.peek_poke]
  have pointer : Ram.word mem.peek 0xFFFE = 0x2001 := by
    have high : mem.peek 0xFFFE = 0x20 := by simp [mem, Memory.peek_poke]
    have low : mem.peek 0xFFFF = 0x01 := by simp [mem]
    rw [Ram.word, high, show (0xFFFE + 1 : Word) = 0xFFFF from rfl, low]
    decide
  have start : (Processor.powerOn.setPc 0x1000).AtOpcode 0 := Processor.atOpcode_setPc _ _
  have loads : Instruction.decode 0 (mem.peek 0x1000) = ⟨.byte .ld .a, .indexed⟩ := by
    rw [opcode]
    decide
  obtain ⟨d, mem', ⟨⟩, runs, addressed, _⟩ :=
    indexed_address_tabulated (m := .silent) (fun _ _ => rfl)
      ⟨Processor.powerOn.setPc 0x1000, mem, ()⟩ start (.of_decode loads (by rintro _ ⟨⟩)) rfl
      (.replicate 9 .low) (by
        change _ = 1 + (1 + (IndexForm.program (mem.peek 0x1001)).countP _)
        rw [postbyte]
        decide)
  have ea : d.ea = _ := addressed.ea
  have regs : d.regs = _ := addressed.regs
  change d.ea = Postbyte.address (mem.peek 0x1001) _ _ _ at ea
  change d.regs = Postbyte.registers (mem.peek 0x1001) _ _ at regs
  rw [postbyte] at ea regs
  refine ⟨mem, d, mem', ⟨opcode, postbyte, pointer⟩, runs, ?_, ?_, ?_⟩
  · rw [ea, ← pointer]
    rfl
  · rw [regs]
    decide
  · rw [regs]
    decide

end Sim6809
