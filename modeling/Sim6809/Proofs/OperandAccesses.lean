/-
The operand accesses of an instruction: which ones it makes, and which steps make them.

Most of the bytes that an instruction moves are its own, or belong to a stack, a pointer or a
vector. What is left is the operand, and what an instruction does to that can be said without a
bus cycle in sight: reads and writes at the effective address and the one after it, with the
bytes that memory or the registers hold (`Instruction.operandTransfers`).

The cycles are marked one by one, by `BusCycle.isOperand`. `operandsIn` collects those of a list
of steps, in the way `enactAll` runs it, and the two agree (`operandsIn_steps`): the cycles that
form an address hold no mark, and behind them `enact_indexed` and its like say what the address
and the registers have become, so that it remains to go through the bodies.
-/
import Sim6809.Proofs.Execution

set_option autoImplicit false

namespace Sim6809

open Arithmetic

/-! ## The programmer's view -/

/-- A read of memory, with the byte that is there. -/
def Ram.reading (ram : Ram) (address : Word) : Transfer := ⟨.read address, ram address⟩

/-- A write. -/
def Transfer.writing (address : Word) (value : Byte) : Transfer := ⟨.write address value, value⟩

/-- What an operation does to an operand in memory, at `ea`. -/
def Operation.operandTransfers (op : Operation) (ea : Word) (r : RegisterFile) (ram : Ram) :
    List Transfer :=
  match op with
  | .byte .. => [ram.reading ea]
  | .word .. | .loadWord _ => [ram.reading ea, ram.reading (ea + 1)]
  | .unary op .memory =>
    ram.reading ea ::
      if op = .tst then [] else [.writing ea (op.apply r.cc (ram ea)).value]
  | .store register => [.writing ea (r.accumulator register)]
  | .storeWord register =>
    [.writing ea (Word.high (r.word register)), .writing (ea + 1) (Word.low (r.word register))]
  | _ => []

/-- The operand accesses of an instruction, its opcode right before `pc`. An immediate operand
is a part of the instruction and fetched like the rest of it, but a word store overwrites the
second byte of it. -/
def Instruction.operandTransfers (i : Instruction) (ram : Ram) (r : RegisterFile) (pc : Word) :
    List Transfer :=
  match i.op, i.mode with
  | .storeWordImmediate register, _ => [.writing (pc + 1) (Word.low (r.word register))]
  | _, .immediate => []
  | op, _ => op.operandTransfers (i.effectiveAddress ram r pc) (i.addressed ram r pc) ram

theorem Instruction.addressed_withPc (i : Instruction) (ram : Ram) (r : RegisterFile)
    (pc next : Word) : i.addressed ram { r with pc := pc } next = i.addressed ram r next := by
  unfold Instruction.addressed
  split
  · rw [Postbyte.stepped_withPc]
  · rfl

theorem word_withPc (r : RegisterFile) (pc : Word) (register : WordRegister) :
    ({ r with pc := pc }).word register = r.word register := by
  cases register <;> rfl

/-- They do not depend on what PC holds besides. -/
theorem Instruction.operandTransfers_withPc (i : Instruction) (ram : Ram) (r : RegisterFile)
    (pc next : Word) :
    i.operandTransfers ram { r with pc := pc } next = i.operandTransfers ram r next := by
  simp only [Instruction.operandTransfers, Instruction.effectiveAddress_withPc,
    Instruction.addressed_withPc, word_withPc]

/-! ## Marked steps -/

/-- The step moves an operand. -/
def MicroOp.isOperand : MicroOp → Bool
  | .cycle due => due.isOperand
  | .action _ => false

/-- What it moves. -/
def MicroOp.operands : MicroOp → Processor × Ram → List Transfer
  | .cycle due, (c, ram) =>
    if due.isOperand then [⟨due.access c, ((due.access c).perform ram).1⟩] else []
  | .action _, _ => []

/-- The operands that a list of steps moves, first to last. -/
def operandsIn : List MicroOp → Processor × Ram → List Transfer
  | [], _ => []
  | op :: ops, sight => op.operands sight ++ operandsIn ops (op.enact sight)

theorem operandsIn_append (front back : List MicroOp) (sight : Processor × Ram) :
    operandsIn (front ++ back) sight =
      operandsIn front sight ++ operandsIn back (enactAll front sight) := by
  induction front generalizing sight with
  | nil => rfl
  | cons op front ih =>
    rw [List.cons_append, operandsIn, ih, operandsIn, List.append_assoc]
    rfl

theorem MicroOp.operands_of_unmarked {op : MicroOp} (unmarked : op.isOperand = false)
    (sight : Processor × Ram) : op.operands sight = [] := by
  cases op with
  | cycle due =>
    rw [MicroOp.isOperand] at unmarked
    rw [MicroOp.operands, unmarked]
    rfl
  | action _ => rfl

theorem operandsIn_of_unmarked {ops : List MicroOp} (unmarked : ∀ op ∈ ops, op.isOperand = false)
    (sight : Processor × Ram) : operandsIn ops sight = [] := by
  induction ops generalizing sight with
  | nil => rfl
  | cons op ops ih =>
    rw [operandsIn, MicroOp.operands_of_unmarked (unmarked op List.mem_cons_self),
      ih fun other mem => unmarked other (List.mem_cons_of_mem op mem)]
    rfl

namespace Alike

variable {sight sight' : Processor × Ram}

theorem operands (op : MicroOp) (h : Alike sight sight') :
    op.operands sight = op.operands sight' := by
  have accesses := h.access
  obtain ⟨c, ram⟩ := sight
  obtain ⟨d, ram'⟩ := sight'
  obtain ⟨_, same⟩ := h
  cases same
  cases op with
  | cycle cycle =>
    have access : cycle.access c = cycle.access d := accesses cycle
    rw [MicroOp.operands, MicroOp.operands, access]
  | action _ => rfl

theorem operandsIn {ops : List MicroOp} (h : Alike sight sight') (ne : .cycle .fetchOpcode ∉ ops) :
    Sim6809.operandsIn ops sight = Sim6809.operandsIn ops sight' := by
  induction ops generalizing sight sight' with
  | nil => rfl
  | cons op ops ih =>
    obtain ⟨other, rest⟩ := not_or.1 (mt List.mem_cons.2 ne)
    rw [Sim6809.operandsIn, Sim6809.operandsIn, h.operands op,
      ih (h.enact_of_ne (Ne.symm other)) rest]

end Alike

/-! ## Bodies -/

/-- The operation writes into the instruction. -/
def Operation.overwrites : Operation → Bool
  | .storeWordImmediate _ => true
  | _ => false

/-- A data instruction with its operand in memory moves it, and so does one that overwrites its
own. No other instruction moves an operand. -/
theorem Instruction.unmarked_decode (page opcode : Byte) :
    ((decode page opcode).op.isData = true → (decode page opcode).mode = .immediate) →
      (decode page opcode).op.overwrites = false →
        ∀ op ∈ (decode page opcode).body, op.isOperand = false :=
  decode_induction
    (P := fun i => (i.op.isData = true → i.mode = .immediate) → i.op.overwrites = false →
      ∀ op ∈ i.body, op.isOperand = false)
    (by decide +kernel) (by decide +kernel) (by decide +kernel) page opcode

theorem Operation.operandTransfers_of_not_data {op : Operation} (none : op.isData = false)
    (ea : Word) (r : RegisterFile) (ram : Ram) : op.operandTransfers ea r ram = [] := by
  cases op with
  | byte _ _ | word _ _ | loadWord _ | store _ | storeWord _ => cases none
  | unary _ target =>
    cases target with
    | memory => cases none
    | accumulator _ => rfl
  | _ => rfl

/-- The body of a data instruction works on memory at the effective address. -/
theorem operandsIn_dataBody {c : Processor} (ram : Ram) (data : c.instruction.op.isData = true)
    (memory : c.instruction.mode ≠ .immediate) :
    operandsIn c.instruction.body (c, ram) =
      c.instruction.op.operandTransfers c.ea c.regs ram := by
  obtain ⟨regs, inputs, phase, schedule, ⟨op, mode⟩, page, postbyte, ea, latch, result,
    announced, cycles⟩ := c
  have here : ea + (0 : Byte).toUInt16 = ea := UInt16.add_zero ea
  have first : (⟨.read (ea + (0 : Byte).toUInt16), ram (ea + (0 : Byte).toUInt16)⟩ : Transfer) =
      ram.reading ea := by
    rw [here]
    rfl
  have out : ∀ value : Byte, Word.low value.toUInt16 = value := UInt8.toUInt8_toUInt16
  cases op with
  | byte op register =>
    have body : Instruction.body ⟨.byte op register, mode⟩ =
        [.cycle (.read 0), .action .operate] := by
      rw [Instruction.body, Instruction.byteOperand, if_neg memory]
      rfl
    rw [body, Operation.operandTransfers, ← first]
    rfl
  | word op register =>
    have body : Instruction.body ⟨.word op register, mode⟩ =
        [.cycle (.read 0), .cycle (.read 1), .cycle .dummy, .action .operate] := by
      rw [Instruction.body, Instruction.wordOperand, if_neg memory]
      rfl
    rw [body, Operation.operandTransfers, ← first]
    rfl
  | loadWord register =>
    have body : Instruction.body ⟨.loadWord register, mode⟩ =
        [.cycle (.read 0), .cycle (.read 1), .action .operate] := by
      rw [Instruction.body, Instruction.wordOperand, if_neg memory]
      rfl
    rw [body, Operation.operandTransfers, ← first]
    rfl
  | store register =>
    rw [Operation.operandTransfers, ← out (regs.accumulator register)]
    rfl
  | storeWord register => rfl
  | unary op target =>
    have operand : Word.low (Word.shiftIn latch (ram (ea + (0 : Byte).toUInt16))) = ram ea := by
      rw [here, Word.low_shiftIn]
    cases target with
    | accumulator register => cases data
    | memory =>
      rw [Operation.operandTransfers, ← first]
      cases op with
      | tst => rfl
      | _ =>
        rw [if_neg (by decide), ← operand, ← out (UnaryOp.apply _ _ _).value]
        rfl
  | _ => cases data

/-- What is overwritten is the second byte of the operand. -/
theorem operandsIn_overwriting {c : Processor} (ram : Ram) {register : WordRegister}
    (op : c.instruction.op = .storeWordImmediate register) :
    operandsIn c.instruction.body (c, ram) =
      [.writing (c.regs.pc + 1) (Word.low (c.regs.word register))] := by
  obtain ⟨regs, inputs, phase, schedule, ⟨operation, mode⟩, page, postbyte, ea, data, result,
    announced, cycles⟩ := c
  obtain rfl : operation = .storeWordImmediate register := op
  change _ = [Transfer.writing (regs.pc + 1) (Word.low (regs.word register))]
  rw [← word_withPc regs (regs.pc + 1)]
  rfl

/-! ## Programs -/

/-- A pointer is no operand, and what forms an address none either. -/
theorem unmarked_indexProgram {postbyte : Byte} {op : MicroOp}
    (mem : op ∈ IndexForm.program postbyte) : op.isOperand = false := by
  have cycles : ∀ form : IndexForm, ∀ op ∈ form.cycles, op.isOperand = false := by
    intro form
    cases form <;> decide
  rcases List.mem_append.1 mem with first | last
  · exact cycles _ op first
  · split at last
    · have indirection : ∀ op ∈ IndexForm.indirection, op.isOperand = false := by decide
      exact indirection op last
    · cases last

section Programs

variable {c : Processor} (decoded : ∃ page opcode, Instruction.decode page opcode = c.instruction)
  (ram : Ram)

include decoded

/-- The operand of an instruction that overwrites it is immediate. -/
theorem Instruction.overwrites_of_memory (memory : c.instruction.mode ≠ .immediate) :
    c.instruction.op.overwrites = false := by
  obtain ⟨page, opcode, same⟩ := decoded
  have mode := mode_mem_modes page opcode
  rw [same] at mode
  cases op : c.instruction.op with
  | storeWordImmediate _ =>
    rw [op] at mode
    exact absurd (List.mem_singleton.1 mode) memory
  | _ => rfl

theorem operandsIn_body (memory : c.instruction.mode ≠ .immediate) :
    operandsIn c.instruction.body (c, ram) =
      c.instruction.op.operandTransfers c.ea c.regs ram := by
  have whole := Instruction.overwrites_of_memory decoded memory
  obtain ⟨page, opcode, same⟩ := decoded
  cases data : c.instruction.op.isData with
  | true => exact operandsIn_dataBody ram data memory
  | false =>
    have unmarked := Instruction.unmarked_decode page opcode
    rw [same, data] at unmarked
    rw [Operation.operandTransfers_of_not_data data]
    exact operandsIn_of_unmarked (unmarked nofun whole) _

theorem Instruction.operandTransfers_of_memory (memory : c.instruction.mode ≠ .immediate)
    (r : RegisterFile) (pc : Word) :
    c.instruction.operandTransfers ram r pc =
      c.instruction.op.operandTransfers (c.instruction.effectiveAddress ram r pc)
        (c.instruction.addressed ram r pc) ram := by
  have whole := Instruction.overwrites_of_memory decoded memory
  unfold Instruction.operandTransfers
  split
  · next op =>
    rw [op] at whole
    cases whole
  · next immediate _ => exact absurd immediate memory
  · rfl

/-- Without an operand in memory nothing is left but the overwritten one. -/
theorem operandsIn_immediate (immediate : c.instruction.mode = .immediate) :
    operandsIn c.instruction.body (c, ram) =
      c.instruction.operandTransfers ram c.regs c.regs.pc := by
  obtain ⟨page, opcode, same⟩ := decoded
  have unmarked := Instruction.unmarked_decode page opcode
  rw [same] at unmarked
  cases op : c.instruction.op with
  | storeWordImmediate register =>
    rw [operandsIn_overwriting ram op, Instruction.operandTransfers, op]
  | _ =>
    rw [Instruction.operandTransfers, op, immediate]
    exact operandsIn_of_unmarked (unmarked (fun _ => immediate) (by rw [op]; rfl)) _

/-- Behind steps that move no operand, the body works with what they have formed. -/
theorem operandsIn_formed {front : List MicroOp} {d : Processor}
    (memory : c.instruction.mode ≠ .immediate) (unmarked : ∀ op ∈ front, op.isOperand = false)
    (formed : enactAll front (c, ram) = (d, ram)) (same : d.instruction = c.instruction) :
    operandsIn (front ++ c.instruction.body) (c, ram) =
      c.instruction.op.operandTransfers d.ea d.regs ram := by
  rw [operandsIn_append, operandsIn_of_unmarked unmarked, formed, List.nil_append]
  rw [← same] at decoded memory ⊢
  exact operandsIn_body decoded ram memory

/-- **The steps of an instruction make its operand accesses**, and no others. -/
theorem operandsIn_steps :
    operandsIn (c.instruction.steps (ram c.regs.pc)) (c, ram) =
      c.instruction.operandTransfers ram c.regs c.regs.pc := by
  cases mode : c.instruction.mode with
  | immediate =>
    rw [Instruction.steps, if_neg (by rw [mode]; decide), Instruction.program, mode]
    exact operandsIn_immediate decoded ram mode
  | inherent | relative =>
    have memory : c.instruction.mode ≠ .immediate := by rw [mode]; decide
    have none : c.instruction.op.isData = false := by
      obtain ⟨page, opcode, same⟩ := decoded
      have table := Instruction.hasDataMode_decode page opcode
      rw [same, Instruction.hasDataMode, mode] at table
      exact Bool.eq_false_iff.2 fun data => Bool.noConfusion (table data)
    rw [Instruction.steps, if_neg (by rw [mode]; decide), Instruction.program, mode]
    dsimp only
    rw [operandsIn_body decoded ram memory,
      Instruction.operandTransfers_of_memory decoded ram memory,
      Operation.operandTransfers_of_not_data none, Operation.operandTransfers_of_not_data none]
  | direct =>
    have memory : c.instruction.mode ≠ .immediate := by rw [mode]; decide
    rw [Instruction.steps, if_neg (by rw [mode]; decide), Instruction.program, mode,
      Instruction.operandTransfers_of_memory decoded ram memory, Instruction.effectiveAddress,
      Instruction.addressed, Instruction.operandLength, mode]
    exact operandsIn_formed decoded ram memory (by decide) (enact_directCycles c ram) rfl
  | extended =>
    have memory : c.instruction.mode ≠ .immediate := by rw [mode]; decide
    rw [Instruction.steps, if_neg (by rw [mode]; decide), Instruction.program, mode,
      Instruction.operandTransfers_of_memory decoded ram memory, Instruction.effectiveAddress,
      Instruction.addressed, Instruction.operandLength, mode]
    exact operandsIn_formed decoded ram memory (by decide) (enact_extendedCycles c ram) rfl
  | indexed =>
    have memory : c.instruction.mode ≠ .immediate := by rw [mode]; decide
    have unmarked : ∀ op ∈ .cycle .fetchPostbyte :: IndexForm.program (ram c.regs.pc),
        op.isOperand = false := List.forall_mem_cons.2 ⟨rfl, fun _ => unmarked_indexProgram⟩
    obtain ⟨latch, formed⟩ := enact_indexed c ram
    rw [Instruction.steps, if_pos mode, Instruction.operandTransfers_of_memory decoded ram memory,
      Instruction.effectiveAddress, Instruction.addressed, Instruction.operandLength, mode]
    exact operandsIn_formed decoded ram memory unmarked formed rfl

end Programs

end Sim6809
