/-
Calls and returns.

A call is its address cycles and then a tail that all calls have in common: the target is looked
at, PC goes onto the hardware stack in two pushes, and the target takes its place. Whatever the
address cycles did to PC and S is done by then, so what is pushed is the address behind the whole
instruction, below a stack pointer that the postbyte may have stepped. `caller` names the
registers at this point, and both halves of `call_return_match` refer to them: the call leaves
them but for PC and S, and the return takes the same two from the stack.
-/
import Sim6809.Proofs.Execution

set_option autoImplicit false

namespace Sim6809

/-! ## The calls in one step -/

/-- The operations that push PC and go elsewhere. -/
def Operation.isCall : Operation → Bool
  | .jsr | .bsr | .lbsr => true
  | _ => false

namespace Instruction

variable (i : Instruction) (ram : Ram) (r : RegisterFile) (pc : Word)

/-- Bytes behind the opcode of a call, which is the one before `pc`: those of the operand, or the
displacement. -/
def callLength : Nat :=
  match i.op with
  | .bsr => 1
  | .lbsr => 2
  | _ => i.operandLength ram pc

/-- Where a call goes. A displacement counts from the end of the instruction. -/
def callTarget : Word :=
  match i.op with
  | .bsr => pc + 1 + Word.signExtend (ram pc)
  | .lbsr => pc + 2 + ram.word pc
  | _ => i.effectiveAddress ram r pc

/-- The registers of the caller: PC is past the call, and an index register has been stepped. -/
def caller : RegisterFile :=
  let r := if i.mode = .indexed then Postbyte.stepped (ram pc) r else r
  { r with pc := pc + UInt16.ofNat (i.callLength ram pc) }

end Instruction

/-! ## Address cycles -/

/-- The address cycles of a mode that has an address. The operation comes after them. -/
theorem enact_address {c : Processor} (ram : Ram)
    (mode : c.instruction.mode ∈ [AddressMode.direct, .indexed, .extended]) :
    ∃ d : Processor, enactAll (c.instruction.steps (ram c.regs.pc)) (c, ram) =
        enactAll c.instruction.body (d, ram) ∧
      d.instruction = c.instruction ∧
      d.regs = c.instruction.addressed ram c.regs c.regs.pc ∧
      d.ea = c.instruction.effectiveAddress ram c.regs c.regs.pc := by
  rw [Instruction.steps, Instruction.addressed, Instruction.operandLength,
    Instruction.effectiveAddress]
  by_cases indexed : c.instruction.mode = .indexed
  · obtain ⟨data, formed⟩ := enact_indexed c ram
    rw [if_pos indexed, enactAll, enactAll_append, formed, indexed]
    exact ⟨_, rfl, rfl, rfl, rfl⟩
  · rw [if_neg indexed, if_neg indexed, Instruction.program]
    by_cases direct : c.instruction.mode = .direct
    · rw [direct]
      dsimp only
      rw [enactAll_append, enact_directCycles]
      exact ⟨_, rfl, rfl, rfl, rfl⟩
    · have extended : c.instruction.mode = .extended := by simp_all
      rw [extended]
      dsimp only
      rw [enactAll_append, enact_extendedCycles]
      exact ⟨_, rfl, rfl, rfl, rfl⟩

/-! ## The tail of a call -/

theorem Ram.put_put (ram : Ram) {address other : Word} (ne : address ≠ other) (v w : Byte) :
    (ram.put address v).put other w = (ram.put other w).put address v := by
  funext a
  unfold Ram.put
  by_cases here : address = a
  · subst here
    rw [if_pos rfl, if_neg ne.symm, if_pos rfl]
  · rw [if_neg here, if_neg here]

/-- PC is pushed, low byte first, and then replaced. -/
theorem enact_callTail {d : Processor} (ram : Ram) (call : d.instruction.op.isCall = true) :
    seen (enactAll Instruction.callTail (d, ram)) =
      ({ d.regs with pc := d.ea, s := d.regs.s - 2 },
        ram.putWord (d.regs.s - 2) d.regs.pc) := by
  have down : d.regs.s - 1 - 1 = d.regs.s - 2 := Word.sub_sub _ _ _
  have up : d.regs.s - 2 + 1 = d.regs.s - 1 := by
    rw [← down, UInt16.sub_add_cancel]
  have apart : d.regs.s - 1 ≠ d.regs.s - 2 := by
    rw [← up]
    simp
  have stacked : (ram.put (d.regs.s - 1) (Word.low d.regs.pc)).put (d.regs.s - 2)
      (Word.high d.regs.pc) = ram.putWord (d.regs.s - 2) d.regs.pc := by
    rw [Ram.put_put ram apart, Ram.putWord, up]
  rw [← stacked, ← down]
  obtain ⟨regs, inputs, phase, schedule, ⟨op, mode⟩, page, postbyte, ea, data, result, announced,
    cycles⟩ := d
  cases op with
  | jsr | bsr | lbsr => rfl
  | _ => cases call

/-- A displacement is fetched, and added to PC. -/
theorem enact_shortTarget (c : Processor) (ram : Ram) :
    ∃ data, enactAll [.cycle .fetchOperand, .action .branchTarget8, .cycle .dummy] (c, ram) =
      ({ c with
          regs := { c.regs with pc := c.regs.pc + 1 }
          ea := c.regs.pc + 1 + Word.signExtend (ram c.regs.pc)
          data := data }, ram) := by
  obtain ⟨data, fetched, operand⟩ := enact_byteOperand c ram
  refine ⟨data, ?_⟩
  rw [← operand, ← List.singleton_append, enactAll_append, fetched]
  rfl

theorem enact_longTarget (c : Processor) (ram : Ram) :
    enactAll [.cycle .fetchOperand, .cycle .fetchOperand, .action .branchTarget16,
        .cycle .dummy, .cycle .dummy] (c, ram) =
      ({ c with
          regs := { c.regs with pc := c.regs.pc + 2 }
          ea := c.regs.pc + 2 + ram.word c.regs.pc
          data := ram.word c.regs.pc }, ram) := by
  change enactAll ([.cycle .fetchOperand, .cycle .fetchOperand] ++
    [.action .branchTarget16, .cycle .dummy, .cycle .dummy]) (c, ram) = _
  rw [enactAll_append, enact_wordOperand]
  rfl

/-- What is before the tail leaves the registers of the caller, and the target. -/
theorem enact_target {c : Processor} (call : c.instruction.op.isCall = true)
    (mode : c.instruction.mode ∈ c.instruction.op.modes) (ram : Ram) :
    ∃ d : Processor, enactAll (c.instruction.steps (ram c.regs.pc)) (c, ram) =
        enactAll Instruction.callTail (d, ram) ∧
      d.instruction = c.instruction ∧
      d.regs = c.instruction.caller ram c.regs c.regs.pc ∧
      d.ea = c.instruction.callTarget ram c.regs c.regs.pc := by
  rw [Instruction.caller, Instruction.callLength, Instruction.callTarget]
  have relative : c.instruction.mode = .relative →
      c.instruction.steps (ram c.regs.pc) = c.instruction.body := by
    intro relative
    rw [Instruction.steps, relative, if_neg (by decide), Instruction.program, relative]
  cases op : c.instruction.op with
  | jsr =>
    have body : c.instruction.body = Instruction.callTail := by
      rw [Instruction.body, op]
    rw [op] at mode
    obtain ⟨d, steps, instruction, regs, ea⟩ := enact_address ram mode
    exact ⟨d, by rw [steps, body], instruction, regs, ea⟩
  | bsr =>
    rw [op] at mode
    have displaced := List.mem_singleton.1 mode
    obtain ⟨data, target⟩ := enact_shortTarget c ram
    rw [relative displaced, Instruction.body, op]
    dsimp only
    rw [enactAll_append, target, displaced, if_neg (by decide)]
    exact ⟨_, rfl, rfl, rfl, rfl⟩
  | lbsr =>
    rw [op] at mode
    have displaced := List.mem_singleton.1 mode
    have target := enact_longTarget c ram
    rw [relative displaced, Instruction.body, op]
    dsimp only
    rw [enactAll_append, target, displaced, if_neg (by decide)]
    exact ⟨_, rfl, rfl, rfl, rfl⟩
  | _ =>
    rw [op] at call
    cases call

/-! ## Return -/

/-- PC comes from the stack, and nothing else does. -/
theorem enact_rts (c : Processor) (ram : Ram) :
    seen (enactAll (Instruction.body ⟨.rts, .inherent⟩) (c, ram)) =
      ({ c.regs with pc := ram.word c.regs.s, s := c.regs.s + 2 }, ram) := by
  have up : c.regs.s + 1 + 1 = c.regs.s + 2 := UInt16.add_assoc _ _ _
  have word : Word.withLow (Word.withHigh c.regs.pc (ram c.regs.s)) (ram (c.regs.s + 1)) =
      ram.word c.regs.s := by
    rw [Word.withLow, Word.withHigh, Word.high_ofBytes]
    rfl
  rw [← up, ← word]
  rfl

/-! ## Where the instruction is -/

theorem Instruction.caller_past (i : Instruction) (ram : Ram) (r : RegisterFile) (n : Nat) :
    i.caller ram (r.past n) (r.past n).pc = i.caller ram r (r.past n).pc := by
  unfold caller
  split
  · dsimp only
    rw [Postbyte.stepped_withPc]
  · rfl

theorem Instruction.callTarget_past (i : Instruction) (ram : Ram) (r : RegisterFile) (n : Nat) :
    i.callTarget ram (r.past n) (r.past n).pc = i.callTarget ram r (r.past n).pc := by
  rw [callTarget, callTarget, effectiveAddress_withPc]

theorem Operation.closing_of_isCall {op : Operation} (call : op.isCall = true) :
    op.closing = none := by
  cases op with
  | jsr | bsr | lbsr => rfl
  | _ => cases call

section

open Board

variable {σ : Type} {m : Monitor σ} {b : Board Memory σ} {n : Nat} {i : Instruction}

theorem Encodes.executes_call (encoded : Encodes b.bus.peek 0 b.cpu.regs.pc n i)
    (proceeds : m.Proceeds) (start : b.cpu.AtOpcode 0) (call : i.op.isCall = true) {pc : Word}
    (behind : (b.cpu.regs.past n).pc = pc) {r : RegisterFile}
    (caller : i.caller b.bus.peek b.cpu.regs pc = r) {cycles : Nat}
    (time : cycles + 1 = n + i.time b.bus.peek (b.cpu.regs.past n)) :
    b.Executes m cycles { r with pc := i.callTarget b.bus.peek b.cpu.regs pc, s := r.s - 2 }
      (Ram.putWord b.bus.peek (r.s - 2) r.pc) := by
  refine encoded.executes_stretch proceeds start (Operation.closing_of_isCall call) ?_ time
  rintro c rfl regs
  obtain ⟨d, steps, instruction, caller', target⟩ :=
    enact_target call encoded.mode_mem_modes b.bus.peek
  rw [regs, Instruction.caller_past, behind, caller] at caller'
  rw [regs, Instruction.callTarget_past, behind] at target
  rw [steps, enact_callTail b.bus.peek (by rw [instruction]; exact call), caller', target]

theorem Encodes.executes_rts
    (encoded : Encodes b.bus.peek 0 b.cpu.regs.pc n ⟨.rts, .inherent⟩) (proceeds : m.Proceeds)
    (start : b.cpu.AtOpcode 0) :
    b.Executes m (n + 4)
      { b.cpu.regs with
        pc := Ram.word b.bus.peek b.cpu.regs.s
        s := b.cpu.regs.s + 2 } b.bus.peek := by
  refine encoded.executes_stretch proceeds start rfl ?_ rfl
  intro c _ regs
  have returned := enact_rts c b.bus.peek
  rw [regs] at returned ⊢
  exact returned

theorem Ram.word_putWord (ram : Ram) (address value : Word) :
    (ram.putWord address value).word address = value := by
  have apart : address + 1 ≠ address := by simp
  rw [word, putWord, put, if_neg apart, put, if_pos rfl, put, if_pos rfl, Word.ofBytes_high_low]

/-- **Calls and returns match.** From a boundary, with any registers and memory, a call goes to its
target and leaves the address behind it in the two bytes below the stack pointer, high byte first;
of the caller's registers, in which a postbyte may have stepped one, only PC and S change. From any
later boundary at which S and these two bytes are the same, RTS goes back there and puts S back,
and changes nothing else. The lines do not matter, in either of the two. -/
theorem call_return_match {σ : Type} {m : Monitor σ} (proceeds : m.Proceeds) (b : Board Memory σ)
    (start : b.cpu.AtOpcode 0) {n : Nat} {i : Instruction}
    (encoded : Encodes b.bus.peek 0 b.cpu.regs.pc n i) (call : i.op.isCall = true) :
    let pc := (b.cpu.regs.past n).pc
    let r := i.caller b.bus.peek b.cpu.regs pc
    b.Executes m (n - 1 + i.time b.bus.peek (b.cpu.regs.past n))
        { r with pc := i.callTarget b.bus.peek b.cpu.regs pc, s := r.s - 2 }
        (Ram.putWord b.bus.peek (r.s - 2) r.pc) ∧
      ∀ {τ : Type} {w : Monitor τ} (later : Board Memory τ) {k : Nat} {j : Instruction},
        w.Proceeds → later.cpu.AtOpcode 0 →
        Encodes later.bus.peek 0 later.cpu.regs.pc k j → j.op = .rts →
        later.cpu.regs.s = r.s - 2 →
        (∀ a ∈ [r.s - 2, r.s - 2 + 1],
          later.bus.peek a = Ram.putWord b.bus.peek (r.s - 2) r.pc a) →
        later.Executes w (k + 4) { later.cpu.regs with pc := r.pc, s := r.s } later.bus.peek := by
  intro pc r
  have opcode := encoded.pos
  refine ⟨encoded.executes_call proceeds start call rfl rfl (by omega), ?_⟩
  intro τ w later k j proceeds' start' encoded' rts top intact
  obtain rfl := encoded'.eq_of_modes rts rfl
  have back : Ram.word later.bus.peek (r.s - 2) = r.pc := by
    rw [← Ram.word_putWord b.bus.peek (r.s - 2) r.pc, Ram.word, Ram.word,
      intact _ List.mem_cons_self, intact _ (List.mem_cons_of_mem _ List.mem_cons_self)]
  have returns := encoded'.executes_rts proceeds' start'
  rw [top, back, UInt16.sub_add_cancel] at returns
  exact returns

/-- `JSR ,--S` at `$1000`, which calls an RTS right above the stack. -/
theorem call_return_match_jsr :
    ∃ (mem : Memory) (before called : Board Memory Unit),
      (mem.peek 0x1000 = 0xAD ∧ mem.peek 0x1001 = 0xE3 ∧ mem.peek 0x2000 = 0x39) ∧
      before = ⟨Processor.setPc { Processor.powerOn with
        regs := { RegisterFile.powerOn with s := 0x2002 } } 0x1000, mem, ()⟩ ∧
      called = Board.clocks .silent (lows 10) before ∧
      called.cpu.regs = { before.cpu.regs with pc := 0x2000, s := 0x1FFE } ∧
      (Board.clocks .silent (lows 5) called).cpu.regs =
        { before.cpu.regs with pc := 0x1002, s := 0x2000 } := by
  let mem := ((Memory.blank.poke 0x1000 0xAD).poke 0x1001 0xE3).poke 0x2000 0x39
  have first : mem.peek 0x1000 = 0xAD := by
    rw [Memory.peek_poke, if_neg (by decide), Memory.peek_poke, if_neg (by decide),
      Memory.peek_poke_self]
  have second : mem.peek 0x1001 = 0xE3 := by
    rw [Memory.peek_poke, if_neg (by decide), Memory.peek_poke_self]
  have third : mem.peek 0x2000 = 0x39 := Memory.peek_poke_self _ _ _
  let b : Board Memory Unit := ⟨Processor.setPc { Processor.powerOn with
    regs := { RegisterFile.powerOn with s := 0x2002 } } 0x1000, mem, ()⟩
  have start : b.cpu.AtOpcode 0 := Processor.atOpcode_setPc _ _
  have calls : Instruction.decode 0 (mem.peek 0x1000) = ⟨.jsr, .indexed⟩ := by
    rw [first]
    decide
  have behind : (b.cpu.regs.past 1).pc = 0x1001 := by decide
  have stepped : Postbyte.stepped 0xE3 b.cpu.regs = { b.cpu.regs with s := 0x2000 } := by decide
  have address : Postbyte.address 0xE3 mem.peek b.cpu.regs (0x1001 + 1) = 0x2000 := by
    rw [Postbyte.address, if_neg (by decide)]
    decide
  have time : (⟨.jsr, .indexed⟩ : Instruction).time mem.peek (b.cpu.regs.past 1) = 10 := by
    rw [Instruction.time, Instruction.surplus]
    dsimp only
    rw [if_pos rfl]
    change _ + IndexForm.extra (mem.peek (b.cpu.regs.past 1).pc) = 10
    rw [behind, second]
    rfl
  have caller : (⟨.jsr, .indexed⟩ : Instruction).caller mem.peek b.cpu.regs 0x1001 =
      { b.cpu.regs with pc := 0x1002, s := 0x2000 } := by
    simp only [Instruction.caller, Instruction.callLength, Instruction.operandLength, second,
      stepped, if_true]
    rfl
  have target : (⟨.jsr, .indexed⟩ : Instruction).callTarget mem.peek b.cpu.regs 0x1001 =
      0x2000 := by
    simp only [Instruction.callTarget, Instruction.effectiveAddress, second, address]
  obtain ⟨called, returns⟩ := call_return_match (m := .silent) (fun _ _ => rfl) b start
    (.of_decode calls (by rintro _ ⟨⟩)) rfl
  rw [time, behind, caller, target] at called
  rw [behind, caller] at returns
  have done := called (lows 10) rfl
  have boundary := called.atOpcode ⟨rfl, rfl, rfl⟩
  generalize reached : Board.clocks .silent (lows 10) b = later at done boundary
  have pc : later.cpu.regs.pc = 0x2000 := congrArg RegisterFile.pc done.regs
  have rts : Instruction.decode 0 (later.bus.peek later.cpu.regs.pc) = ⟨.rts, .inherent⟩ := by
    rw [pc, done.ram, Ram.putWord, Ram.put, if_neg (by decide), Ram.put, if_neg (by decide)]
    change Instruction.decode 0 (mem.peek 0x2000) = _
    rw [third]
    decide
  have returned := returns (w := .silent) later (fun _ _ => rfl) boundary
    (.of_decode rts (by rintro _ ⟨⟩)) rfl (congrArg RegisterFile.s done.regs)
    (fun a _ => congrFun done.ram a)
  refine ⟨mem, b, later, ⟨first, second, third⟩, rfl, reached.symm, done.regs.trans (by decide), ?_⟩
  rw [(returned (lows 5) rfl).regs, done.regs]

end

end Sim6809
