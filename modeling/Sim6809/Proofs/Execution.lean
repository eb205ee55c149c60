/-
The contract of one instruction, on any lines.

What an instruction does to registers and memory is settled while it runs: the inputs move on
in every one of its cycles, but nothing looks at them before the last one is over. `Executes`
puts that into a statement which a programmer can use. So many clocks, whatever is driven in
them, lead to these registers and this memory, with no boundary in between. Only then the inputs
have their say: unless they ask for something the next opcode is due, and low lines ask for
nothing.

The steps of an instruction are a stretch, or a stretch whose last step queues a second one.
`executes_stretch` and `executes_grown` reduce the contract to `enactAll` over these steps, for
every processor that has the instruction decoded: what its latches hold may not matter. With the
former, data instructions keep their contract as well (`executes_data`).
-/
import Sim6809.Proofs.InterruptReturn
import Sim6809.Proofs.Timing

set_option autoImplicit false

namespace Sim6809

/-! ## Past the last cycle -/

namespace Processor

variable {c : Processor}

/-- Neither HALT nor an interrupt that would be recognised is there. -/
def Unasked (c : Processor) : Prop :=
  c.inputs.active.halt = false ∧
    HardwareInterrupt.recognised c.inputs.active c.regs.cc = none

instance (c : Processor) : Decidable c.Unasked := inferInstanceAs (Decidable (_ ∧ _))

theorem unasked_of_quiet (quiet : c.inputs.Quiet) : c.Unasked := by
  rw [Unasked, quiet.2.2]
  exact ⟨rfl, rfl⟩

theorem settle_of_halted (h : c.Finished) (halted : c.inputs.active.halt = true) :
    c.settle.state = { c with phase := .boundary } := by
  have still : ({ c with phase := .boundary } : Processor).move? = none := by
    rw [move?_of_dry (c := { c with phase := .boundary }) h.consistent h.pending]
    exact if_pos halted
  rw [settle_of_move h.consistent (move?_of_execution h.consistent h.pending h.phase)]
  change ({ c with phase := .boundary } : Processor).settle.state = _
  rw [settle_of_rest still]

theorem settle_of_released (h : c.Finished) (released : c.inputs.active.halt = false) :
    c.settle.state = ({ c with phase := .arbitration } : Processor).settle.state := by
  have free := move?_of_boundary (c := { c with phase := .boundary }) h.consistent h.pending rfl
    released
  rw [settle_of_move h.consistent (move?_of_execution h.consistent h.pending h.phase)]
  change ({ c with phase := .boundary } : Processor).settle.state = _
  rw [settle_of_move (c := { c with phase := .boundary }) h.consistent free]
  rfl

/-- What follows an instruction changes no register and no input, and unless one of them asks for
something it is the next opcode. -/
theorem Finished.settles (h : c.Finished) :
    c.settle.state.regs = c.regs ∧ c.settle.state.inputs = c.inputs ∧
      (c.settle.state.Unasked → c.settle.state.AtOpcode 0) := by
  by_cases halted : c.inputs.active.halt = true
  · rw [settle_of_halted h halted]
    refine ⟨rfl, rfl, ?_⟩
    intro unasked
    exact absurd halted (ne_true_of_eq_false unasked.1)
  · rw [settle_of_released h (eq_false_of_ne_true halted)]
    cases asked : HardwareInterrupt.recognised c.inputs.active c.regs.cc with
    | some interrupt =>
      rw [(settle_of_asked (c := { c with phase := .arbitration }) h.consistent h.pending rfl
        asked).1]
      refine ⟨rfl, rfl, ?_⟩
      intro unasked
      exact absurd (asked.symm.trans unasked.2) nofun
    | none =>
      obtain ⟨fetch, pending⟩ := settle_of_unasked (c := { c with phase := .arbitration })
        h.consistent h.pending rfl asked
      rw [fetch]
      exact ⟨rfl, rfl, fun _ => ⟨h.consistent.extend _, pending, rfl, h.page⟩⟩

end Processor

namespace Board

open Processor

variable {σ : Type}

/-! ## The contract -/

/-- One instruction was executed in the clocks of `lines`, with these registers and this memory
at its end. -/
structure Executed (m : Monitor σ) (lines : List Levels) (b after : Board Memory σ)
    (r : RegisterFile) (ram : Ram) : Prop where
  underWay : UnderWay m lines b after
  regs : after.cpu.regs = r
  ram : after.bus.peek = ram
  boundary : after.cpu.Unasked → after.cpu.AtOpcode 0
  quiet : (∀ levels ∈ lines, levels = .low) → b.cpu.inputs.Quiet → after.cpu.inputs.Quiet

/-- One instruction is executed in so many clocks, whatever is driven in them. -/
def Executes (m : Monitor σ) (cycles : Nat) (b : Board Memory σ) (r : RegisterFile) (ram : Ram) :
    Prop :=
  ∀ lines : List Levels, lines.length = cycles → Executed m lines b (clocks m lines b) r ram

/-- With nothing on the lines it leads to the next boundary. -/
theorem Executes.atOpcode {m : Monitor σ} {cycles : Nat} {b : Board Memory σ} {r : RegisterFile}
    {ram : Ram} (h : Executes m cycles b r ram) (quiet : b.cpu.inputs.Quiet) :
    (clocks m (lows cycles) b).cpu.AtOpcode 0 := by
  have executed := h (lows cycles) List.length_replicate
  exact executed.boundary
    (unasked_of_quiet (executed.quiet (fun _ => List.eq_of_mem_replicate) quiet))

/-- So many clocks complete the instruction that a processor has decoded. -/
def Completes (m : Monitor σ) (cycles : Nat) (c : Processor) (mem : Memory) (notes : σ)
    (out : RegisterFile × Ram) : Prop :=
  ∀ lines : List Levels, lines.length = cycles → ∃ e mem' notes',
    Runs m Processor.Busy lines (settled m ⟨c, mem, notes⟩) (settled m ⟨e, mem', notes'⟩) ∧
      e.Finished ∧ seen (e, mem'.peek) = out ∧
      ((∀ levels ∈ lines, levels = .low) → c.inputs.Quiet → e.inputs.Quiet)

variable (m : Monitor σ) {i : Instruction} {c : Processor} (mem : Memory) (notes : σ)

theorem completes_stretch {ops : List MicroOp} (h : Executing i ops c) (straight : Straight i ops) :
    Completes m (cyclesIn ops) c mem notes (seen (enactAll ops (c, mem.peek))) := by
  intro lines length
  rw [← List.append_nil ops] at h
  obtain ⟨e, mem', notes', runs, done, alike, still⟩ := runs_stretch m mem notes h straight length
  exact ⟨e, mem', notes', runs, done.finished, alike.seen, still⟩

/-- A postbyte, and what it queues. -/
theorem completes_indexed (h : Executing i [.cycle .fetchPostbyte] c) (straight : Straight i i.body)
    (length : i.body.length ≤ 5) :
    Completes m (1 + cyclesIn (IndexForm.program (mem.peek c.regs.pc) ++ i.body)) c mem notes
      (seen (enactAll (.cycle .fetchPostbyte ::
        (IndexForm.program (mem.peek c.regs.pc) ++ i.body)) (c, mem.peek))) := by
  intro lines cycles
  rw [Nat.add_comm] at cycles
  obtain ⟨levels, more, rfl⟩ := List.exists_cons_of_length_eq_add_one cycles
  obtain ⟨d, clocked, left, inputs, alike⟩ := clock_postbyte m mem notes levels h length
  have whole := (straight_indexProgram i (mem.peek c.regs.pc)).append straight
  obtain ⟨e, mem', notes', runs, finished, sees, still⟩ :=
    completes_stretch m mem.counted notes left whole more
      (Nat.succ.inj cycles)
  refine ⟨e, mem', notes', ?_, finished, ?_, ?_⟩
  · rw [settled_of_rest (move?_of_cycle h.consistent h.pending)]
    exact Runs.clock (h.busy (by decide)) clocked runs
  · rw [sees]
    exact (alike.enactAll whole).seen
  · intro low quiet
    refine still (fun other mem => low other (List.mem_cons_of_mem levels mem)) ?_
    rw [inputs]
    exact Inputs.QuietIn.cycle (k := 0)
      (Inputs.QuietIn.drive (k := 0) quiet (low levels List.mem_cons_self))

/-- The effect of the instruction comes last, and queues the rest. -/
theorem completes_grown {front : List MicroOp} (h : Executing i (front ++ [.action .operate]) c)
    (straight : Straight i front) {d : Processor} {ram : Ram}
    (enacted : enactAll front (c, mem.peek) = (d, ram)) :
    Completes m (cyclesIn front + d.growth.length) c mem notes
      (seen (enactAll d.growth (d.effect, ram))) := by
  intro lines length
  obtain ⟨first, second, rfl, front_length, more_length⟩ := exists_append_of_length length
  have queued : ((enactAll front (c, mem.peek)).1.act .operate).queued = d.growth := by
    rw [enacted]
    rfl
  obtain ⟨e, mem₁, notes₁, runs, grown, alike, still⟩ := runs_closing m mem notes front d.growth h
    straight nofun queued (Nat.le_trans (growth_fits d).2.1 (by decide)) front_length
  rw [← cyclesIn_growth] at more_length
  obtain ⟨f, mem₂, notes₂, runs', finished, sees, still'⟩ :=
    completes_stretch m mem₁ notes₁ grown (straight_growth i d) second
      more_length
  refine ⟨f, mem₂, notes₂, runs.trans runs', finished, ?_, ?_⟩
  · rw [sees, (alike.enactAll (straight_growth i d)).seen, enactAll_append, enacted]
    rfl
  · intro low quiet
    exact still' (fun levels mem => low levels (List.mem_append_right first mem))
      (still (fun levels mem => low levels (List.mem_append_left second mem)) quiet)

end Board

/-! ## Instructions in memory -/

/-- The registers past so many bytes of an instruction. -/
abbrev RegisterFile.past (r : RegisterFile) (n : Nat) : RegisterFile :=
  { r with pc := r.pc + UInt16.ofNat n }

theorem RegisterFile.past_succ (r : RegisterFile) (n : Nat) :
    { r.past n with pc := (r.past n).pc + 1 } = r.past (n + 1) := by
  rw [past, UInt16.add_assoc, past, UInt16.ofNat_add]
  rfl

theorem RegisterFile.past_succ_succ (r : RegisterFile) (n : Nat) :
    { r.past n with pc := (r.past n).pc + 2 } = r.past (n + 2) := by
  rw [past, UInt16.add_assoc, past, UInt16.ofNat_add]
  rfl

/-- A byte behind the opcode is latched, whatever the latch held. -/
theorem enact_byteOperand (c : Processor) (ram : Ram) :
    ∃ data, enactAll [.cycle .fetchOperand] (c, ram) =
        ({ c with regs := { c.regs with pc := c.regs.pc + 1 }, data := data }, ram) ∧
      Word.low data = ram c.regs.pc :=
  ⟨_, rfl, Word.low_shiftIn _ _⟩

/-- So is a word. -/
theorem enact_wordOperand (c : Processor) (ram : Ram) :
    enactAll [.cycle .fetchOperand, .cycle .fetchOperand] (c, ram) =
      ({ c with
          regs := { c.regs with pc := c.regs.pc + 2 }
          data := ram.word c.regs.pc }, ram) := by
  have second : c.regs.pc + 1 + 1 = c.regs.pc + 2 := UInt16.add_assoc _ _ _
  have word : Word.shiftIn (Word.shiftIn c.data (ram c.regs.pc)) (ram (c.regs.pc + 1)) =
      ram.word c.regs.pc := Word.shiftIn_shiftIn _ _ _
  rw [← second, ← word]
  rfl

/-- The modes in which the opcode map has an operation. -/
def Operation.modes : Operation → List AddressMode
  | .byte _ _ | .word _ _ | .loadWord _ => [.immediate, .direct, .indexed, .extended]
  | .unary _ .memory | .store _ | .storeWord _ | .jmp | .jsr => [.direct, .indexed, .extended]
  | .storeImmediate _ | .storeWordImmediate _ | .push _ | .pull _ | .cwai | .orcc | .andcc
  | .andccSlow | .exg | .tfr => [.immediate]
  | .branch _ | .longBranch _ | .lbra | .bsr | .lbsr => [.relative]
  | .lea _ => [.indexed]
  | _ => [.inherent]

namespace Instruction

theorem mode_mem_modes (page opcode : Byte) :
    (decode page opcode).mode ∈ (decode page opcode).op.modes :=
  decode_induction (P := fun i => i.mode ∈ i.op.modes)
    (by decide +kernel) (by decide +kernel) (by decide +kernel) page opcode

/-- The steps of an instruction with this byte behind its opcode. If its effect queues more, they
are not all. -/
def steps (i : Instruction) (next : Byte) : List MicroOp :=
  if i.mode = .indexed then .cycle .fetchPostbyte :: (IndexForm.program next ++ i.body)
  else i.program

/-- A data instruction does what it is meant to do, whatever the latches hold. -/
theorem enact_steps {i : Instruction} (data : i.op.isData = true) (mode : i.hasDataMode = true)
    {c : Processor} (decoded : c.instruction = i) (ram : Ram) :
    seen (enactAll (i.steps (ram c.regs.pc)) (c, ram)) = i.execute ram c.regs c.regs.pc := by
  subst decoded
  by_cases indexed : c.instruction.mode = .indexed
  · rw [steps, if_pos indexed]
    exact enact_indexedProgram ram data indexed
  · rw [steps, if_neg indexed]
    exact enact_program ram data mode indexed

theorem closing_of_isData {op : Operation} (data : op.isData = true) : op.closing = none := by
  cases op with
  | byte _ _ | word _ _ | loadWord _ | store _ | storeWord _ => rfl
  | unary _ target => rfl
  | _ => cases data

end Instruction

namespace Encodes

open Board

variable {σ : Type} {m : Monitor σ} {b : Board Memory σ} {n : Nat} {i : Instruction}
  {r : RegisterFile} {ram : Ram}

/-- Which of the modes it is shows from the operation, if there is one only. -/
theorem mode_mem_modes {page : Byte} {pc : Word} {n : Nat} {i : Instruction}
    (encoded : Encodes ram page pc n i) : i.mode ∈ i.op.modes := by
  obtain ⟨page, opcode, rfl⟩ := encoded.decoded
  exact Instruction.mode_mem_modes page opcode

theorem eq_of_modes {page : Byte} {pc : Word} {n : Nat} {i : Instruction}
    (encoded : Encodes ram page pc n i) {op : Operation} (operation : i.op = op)
    {mode : AddressMode} (only : op.modes = [mode]) : i = ⟨op, mode⟩ := by
  have found := encoded.mode_mem_modes
  rw [operation, only] at found
  rw [← operation, ← List.mem_singleton.1 found]

/-- The opcode is fetched first, so what is left is to complete the instruction. -/
theorem executes (encoded : Encodes b.bus.peek 0 b.cpu.regs.pc n i) (proceeds : m.Proceeds)
    (start : b.cpu.AtOpcode 0) {k : Nat}
    (completes : ∀ (c : Processor) (mem : Memory) (notes : σ),
      c.Decoded i (b.cpu.regs.past n) → mem.peek = b.bus.peek →
      Completes m k c mem notes (r, ram)) :
    b.Executes m (n + k) r ram := by
  intro lines length
  obtain ⟨opcode, rest, rfl, opcode_length, rest_length⟩ := exists_append_of_length length
  obtain ⟨d, mem, notes, fetch, decoded, same, still⟩ :=
    encoded.runs proceeds b.bus b.notes start rfl rfl opcode_length
  obtain ⟨e, mem', notes', runs, finished, sees, still'⟩ :=
    completes d mem notes decoded same rest rest_length
  have whole := fetch.trans runs
  obtain ⟨regs, inputs, boundary⟩ := finished.settles
  refine ⟨?_, ?_, ?_, ?_, ?_⟩ <;> rw [whole.clocks_eq]
  · exact whole
  · exact regs.trans (congrArg Prod.fst sees)
  · exact congrArg Prod.snd sees
  · exact boundary
  · intro low quiet
    have hushed := still (fun levels mem => low levels (List.mem_append_left rest mem)) 0 quiet
    rw [Nat.zero_sub] at hushed
    change e.settle.state.inputs.Quiet
    rw [inputs]
    exact still' (fun levels mem => low levels (List.mem_append_right opcode mem)) hushed

/-- An instruction that is one stretch behind its opcode takes its time of the table, and does
what its steps do. -/
theorem executes_stretch (encoded : Encodes b.bus.peek 0 b.cpu.regs.pc n i)
    (proceeds : m.Proceeds) (start : b.cpu.AtOpcode 0) (closing : i.op.closing = none)
    (does : ∀ c : Processor, c.instruction = i → c.regs = b.cpu.regs.past n →
      seen (enactAll (i.steps (b.bus.peek c.regs.pc)) (c, b.bus.peek)) = (r, ram))
    {cycles : Nat} (time : cycles + 1 = n + i.time b.bus.peek (b.cpu.regs.past n)) :
    b.Executes m cycles r ram := by
  obtain ⟨page, opcode, decoded⟩ := encoded.decoded
  have timed : i.Timed := by
    rw [← decoded]
    exact Instruction.timed_decode page opcode (by rw [decoded]; exact encoded.ne_selectPage)
  have laid : i.LaidOut := by
    rw [← decoded]
    exact Instruction.laidOut_decode page opcode
  obtain ⟨_, surplus⟩ := Instruction.goesOn_of_closing closing
  rw [Instruction.time, surplus] at time
  by_cases indexed : i.mode = .indexed
  · obtain ⟨_, straight, length⟩ := timed.indexed indexed
    obtain ⟨postbyte, here⟩ : ∃ byte, b.bus.peek (b.cpu.regs.past n).pc = byte := ⟨_, rfl⟩
    have total : cycles = n + (1 + cyclesIn (IndexForm.program postbyte ++ i.body)) := by
      rw [if_pos indexed, ← length, here] at time
      rw [cyclesIn, List.countP_append, ← cyclesIn, cyclesIn_indexProgram, ← cyclesIn]
      omega
    rw [total]
    refine encoded.executes proceeds start fun c mem notes ready same => ?_
    have within : Processor.Executing i [.cycle .fetchPostbyte] c := by
      have whole := Processor.Executing.of_decoded ready
      rw [Instruction.program, indexed] at whole
      exact whole
    have sees := does c ready.instruction ready.regs
    rw [ready.regs, here, Instruction.steps, if_pos indexed, ← same] at sees
    have done := completes_indexed m mem notes within straight
      (laid.lengthBody indexed)
    rw [ready.regs, same, here, ← same, sees] at done
    exact done
  · obtain ⟨straight, length⟩ := timed.plain indexed closing
    have total : cycles = n + cyclesIn i.program := by
      rw [if_neg indexed, ← length] at time
      omega
    rw [total]
    refine encoded.executes proceeds start fun c mem notes ready same => ?_
    rw [← does c ready.instruction ready.regs, Instruction.steps, if_neg indexed, ← same]
    exact completes_stretch m mem notes (.of_decoded ready) straight

/-- An instruction whose effect comes last, and queues the rest. -/
theorem executes_grown (encoded : Encodes b.bus.peek 0 b.cpu.regs.pc n i)
    (proceeds : m.Proceeds) (start : b.cpu.AtOpcode 0) (front : List MicroOp)
    (program : i.program = front ++ [.action .operate]) (straight : Straight i front) {k : Nat}
    (does : ∀ c : Processor, c.instruction = i → c.regs = b.cpu.regs.past n →
      ∃ d ram', enactAll front (c, b.bus.peek) = (d, ram') ∧
        cyclesIn front + d.growth.length = k ∧
        seen (enactAll d.growth (d.effect, ram')) = (r, ram)) :
    b.Executes m (n + k) r ram := by
  refine encoded.executes proceeds start fun c mem notes ready same => ?_
  obtain ⟨d, ram', enacted, cycles, sees⟩ := does c ready.instruction ready.regs
  have within := Processor.Executing.of_decoded ready
  rw [program] at within
  rw [← same] at enacted
  rw [← cycles, ← sees]
  exact completes_grown m mem notes within straight enacted

/-- A data instruction does in its time what it is meant to do. -/
theorem executes_data (encoded : Encodes b.bus.peek 0 b.cpu.regs.pc n i) (proceeds : m.Proceeds)
    (start : b.cpu.AtOpcode 0) (data : i.op.isData = true) {cycles : Nat}
    (time : cycles + 1 = n + i.time b.bus.peek (b.cpu.regs.past n)) :
    b.Executes m cycles
      (i.execute b.bus.peek b.cpu.regs (b.cpu.regs.pc + UInt16.ofNat n)).1
      (i.execute b.bus.peek b.cpu.regs (b.cpu.regs.pc + UInt16.ofNat n)).2 := by
  obtain ⟨page, opcode, decoded⟩ := encoded.decoded
  have mode : i.hasDataMode = true := by
    rw [← decoded] at data ⊢
    exact Instruction.hasDataMode_decode page opcode data
  refine encoded.executes_stretch proceeds start (Instruction.closing_of_isData data) ?_ time
  intro c instruction regs
  rw [Instruction.enact_steps data mode instruction, regs, Instruction.execute_withPc]

end Encodes

end Sim6809
