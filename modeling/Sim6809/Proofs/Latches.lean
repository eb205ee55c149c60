/-
What the pending steps still read of the latches.

The latches are never cleared: the operand and the address are shift registers, and
the postbyte, the result and the decoded instruction stay until the next one comes.
Whether what is left in them matters is a question about the steps to come, and it is
answered backwards, as liveness always is. `Needs` is the part of the latches that is
still to be read; `MicroOp.needs` says how a step turns what is needed after it into
what is needed before it, by adding what it reads and taking away what it overwrites.
A shift register takes this well: it is described by how many of its low bytes are
needed, and a byte shifted in is one less.

Two facts make the analysis useful. It is sound: processors that agree on what is
needed before a step agree on what is needed after it (`Agree.act`, `Agree.absorb`).
And it ends in nothing: the program of a decoded instruction needs no latch but the
instruction itself (`Instruction.needs_decode`), and what a postbyte queues needs no more
than the postbyte has filled (`Instruction.needs_indexed`), so that each sequence of steps
fills the latches before it reads them.
-/
import Sim6809.Proofs.Provenance

set_option autoImplicit false

namespace Sim6809

/-! ## The analysis -/

/-- What is still to be read. Of a shift register it is a number of low bytes: none,
one or both. -/
structure Needs where
  instruction : Bool := false
  postbyte : Bool := false
  ea : Nat := 0
  data : Nat := 0
  result : Bool := false
deriving DecidableEq

/-- What an effect reads besides the registers. -/
inductive Operand
  | none
  /-- The low byte of the operand. -/
  | byte
  | word
  /-- The effective address. -/
  | address

/-- The operand of an operation. A register list is one, though the effect leaves it to
`growth`. -/
def Operation.operand : Operation → Operand
  | .unary _ .memory | .byte .. | .branch _ | .push _ | .pull _ | .cwai | .orcc | .andcc
  | .andccSlow | .exg | .tfr => .byte
  | .word .. | .loadWord _ | .longBranch _ | .lbra => .word
  | .jmp | .jsr | .bsr | .lbsr | .lea _ => .address
  | _ => .none

/-- The operations whose effect fills the result latch. -/
def Operation.setsResult : Operation → Bool
  | .unary _ .memory | .store _ | .storeWord _ | .storeWordImmediate _ => true
  | _ => false

namespace Needs

/-- An operand is needed as well. -/
def reading (after : Needs) : Operand → Needs
  | .none => after
  | .byte => { after with data := max after.data 1 }
  | .word => { after with data := max after.data 2 }
  | .address => { after with ea := max after.ea 2 }

end Needs

/-- What is needed before a bus cycle. -/
def BusCycle.needs (after : Needs) : BusCycle → Needs
  | fetchOperand => { after with data := after.data - 1 }
  | fetchAddress => { after with ea := after.ea - 1 }
  | fetchDirect => { after with ea := 0 }
  -- The address is formed for some postbytes only, so it is not taken away.
  | fetchPostbyte => { after with instruction := true, postbyte := false }
  | peekEa => after.reading .address
  | read _ | readPointer _ => { after.reading .address with data := after.data - 1 }
  | writeByte | writeHigh | writeLow => { after.reading .address with result := true }
  | writePc => { after with result := true }
  -- An opcode may be a page selection, which decodes nothing.
  | fetchOpcode => after
  | peekPc | peekPcNext | peekStack _ | dummy | push .. | pull .. => after

/-- What is needed before an action, in the course of this instruction. -/
def Action.needs (instruction : Instruction) (after : Needs) : Action → Needs
  | operate =>
    { after.reading instruction.op.operand with
      instruction := true, result := !instruction.op.setsResult && after.result }
  | indexOffset8 => { after.reading .byte with ea := 0, postbyte := true }
  | indexOffset16 => { after.reading .word with ea := 0, postbyte := true }
  | pcOffset8 | branchTarget8 => { after.reading .byte with ea := 0 }
  | pcOffset16 | branchTarget16 | indirect => { after.reading .word with ea := 0 }
  | vector _ => { after with ea := 0 }
  | jump => after.reading .word
  | markEntire _ | enter _ => after

/-- What is needed before a step. -/
def MicroOp.needs (instruction : Instruction) (op : MicroOp) (after : Needs) : Needs :=
  match op with
  | .cycle work => work.needs after
  | .action work => work.needs instruction after

/-- What is needed before some steps. -/
def Needs.before (instruction : Instruction) (ops : List MicroOp) (after : Needs := {}) : Needs :=
  ops.foldr (MicroOp.needs instruction) after

theorem Needs.before_cons (instruction : Instruction) (op : MicroOp) (ops : List MicroOp)
    (after : Needs) :
    Needs.before instruction (op :: ops) after =
      op.needs instruction (Needs.before instruction ops after) := rfl

theorem Needs.before_append (instruction : Instruction) (front back : List MicroOp)
    (after : Needs) :
    Needs.before instruction (front ++ back) after =
      Needs.before instruction front (Needs.before instruction back after) :=
  List.foldr_append

/-! ## Agreement on what is needed -/

/-- Two words have as many low bytes in common. -/
def Word.SameLow : Nat → Word → Word → Prop
  | 0, _, _ => True
  | 1, v, w => Word.low v = Word.low w
  | _ + 2, v, w => v = w

namespace Word.SameLow

variable {n k : Nat} {v w : Word}

theorem of_eq (h : v = w) : SameLow n v w :=
  match n with
  | 0 => trivial
  | 1 => congrArg Word.low h
  | _ + 2 => h

theorem mono (h : SameLow n v w) (le : k ≤ n) : SameLow k v w := by
  match n, k with
  | _, 0 => trivial
  | 1, 1 => exact h
  | _ + 2, _ + 1 => exact of_eq h
  | 1, _ + 2 => omega

theorem low (h : SameLow (max n 1) v w) : Word.low v = Word.low w :=
  h.mono (Nat.le_max_right n 1)

theorem eq (h : SameLow (max n 2) v w) : v = w :=
  h.mono (Nat.le_max_right n 2)

/-- A byte shifted in is one more in common. -/
theorem shiftIn (h : SameLow (n - 1) v w) (byte : Byte) :
    SameLow n (Word.shiftIn v byte) (Word.shiftIn w byte) := by
  match n with
  | 0 => trivial
  | 1 =>
    change Word.low _ = Word.low _
    rw [Word.low_shiftIn, Word.low_shiftIn]
  | _ + 2 =>
    have low : Word.low v = Word.low w := h.mono (Nat.succ_le_succ (Nat.zero_le _))
    change Word.ofBytes _ _ = Word.ofBytes _ _
    rw [low]

end Word.SameLow

namespace Processor

/-- Two processors agree in all that is not a latch, schedule apart, and in that part of
the latches that is needed. -/
structure Agree (n : Needs) (c d : Processor) : Prop where
  regs : c.regs = d.regs
  inputs : c.inputs = d.inputs
  phase : c.phase = d.phase
  page : c.page = d.page
  announced : c.announced = d.announced
  cycles : c.cycles = d.cycles
  instruction : n.instruction = true → c.instruction = d.instruction
  postbyte : n.postbyte = true → c.postbyte = d.postbyte
  ea : Word.SameLow n.ea c.ea d.ea
  data : Word.SameLow n.data c.data d.data
  result : n.result = true → c.result = d.result

namespace Agree

variable {n : Needs} {c d : Processor}

/-- The schedule is no part of it. -/
theorem withSchedule (h : Agree n c d) (q q' : Schedule) :
    Agree n { c with schedule := q } { d with schedule := q' } := { h with }

theorem clocked (h : Agree n c d) : Agree n c.clocked d.clocked :=
  { h with
    inputs := congrArg Inputs.cycle h.inputs
    cycles := congrArg CycleCount.next h.cycles }

/-- Nothing is needed any more. -/
theorem nothing (h : Agree n c d) : Agree {} c d :=
  { h with instruction := nofun, postbyte := nofun, ea := trivial, data := trivial
           result := nofun }

end Agree

end Processor

/-- Two moves that lead to agreement and queue the same steps, which need nothing else. -/
structure Move.Agree (after : Needs) (m m' : Move) : Prop where
  next : Processor.Agree after m.next m'.next
  queued : m.queued = m'.queued
  fresh : m.queued ≠ [] →
    Processor.Agree (Needs.before m.next.instruction m.queued) m.next m'.next

namespace Move.Agree

variable {n : Needs} {m m' : Move}

theorem of_quiet (next : Processor.Agree n m.next m'.next) (quiet : m.queued = [])
    (quiet' : m'.queued = []) : Agree n m m' where
  next := next
  queued := quiet.trans quiet'.symm
  fresh := fun busy => absurd quiet busy

end Move.Agree

/-! ## Actions -/

/-- The operand is the same in both. -/
def Operand.Same (c d : Processor) : Operand → Prop
  | .none => True
  | .byte => Word.low c.data = Word.low d.data
  | .word => c.data = d.data
  | .address => c.ea = d.ea

theorem Operand.same_of_reading {n : Needs} {c d : Processor} {operand : Operand}
    (ea : Word.SameLow (n.reading operand).ea c.ea d.ea)
    (data : Word.SameLow (n.reading operand).data c.data d.data) : operand.Same c d :=
  match operand with
  | .none => trivial
  | .byte => data.low
  | .word => data.eq
  | .address => ea.eq

namespace Needs

theorem ea_le_reading (n : Needs) (operand : Operand) : n.ea ≤ (n.reading operand).ea := by
  cases operand with
  | address => exact Nat.le_max_left _ _
  | _ => exact Nat.le_refl _

theorem data_le_reading (n : Needs) (operand : Operand) : n.data ≤ (n.reading operand).data := by
  cases operand with
  | byte | word => exact Nat.le_max_left _ _
  | _ => exact Nat.le_refl _

theorem postbyte_reading (n : Needs) (operand : Operand) :
    (n.reading operand).postbyte = n.postbyte := by
  cases operand <;> rfl

end Needs

namespace Processor

variable {n : Needs} {c d : Processor}

/-- What an effect computes depends on the registers, the instruction and the operand. -/
theorem effect_congr (regs : c.regs = d.regs) (inputs : c.inputs = d.inputs)
    (instruction : c.instruction = d.instruction) (operand : c.instruction.op.operand.Same c d) :
    c.effect.regs = d.effect.regs ∧ c.effect.inputs = d.effect.inputs ∧
      ((c.instruction.op.setsResult = false → c.result = d.result) →
        c.effect.result = d.effect.result) := by
  obtain ⟨regs, inputs, _, _, ⟨op, _⟩, _, _, ea, data, _, _, _⟩ := c
  obtain ⟨_, _, _, _, _, _, _, _, _, _, _, _⟩ := d
  dsimp only at regs inputs instruction operand
  subst regs inputs instruction
  cases op
  case word op register =>
    obtain rfl := operand
    dsimp only [effect]
    split <;> exact ⟨rfl, rfl, fun same => same rfl⟩
  case longBranch condition =>
    obtain rfl := operand
    dsimp only [effect]
    split <;> exact ⟨rfl, rfl, fun same => same rfl⟩
  case loadWord | lbra =>
    obtain rfl := operand
    exact ⟨rfl, rfl, fun same => same rfl⟩
  case jmp | jsr | bsr | lbsr =>
    obtain rfl := operand
    exact ⟨rfl, rfl, fun same => same rfl⟩
  case lea register =>
    obtain rfl := operand
    cases register <;> exact ⟨rfl, rfl, fun same => same rfl⟩
  case branch condition =>
    have low : Word.low data = _ := operand
    dsimp only [effect]
    rw [low]
    split <;> exact ⟨rfl, rfl, fun same => same rfl⟩
  case byte | cwai | orcc | andcc | andccSlow | exg | tfr =>
    have low : Word.low data = _ := operand
    dsimp only [effect]
    rw [low]
    exact ⟨rfl, rfl, fun same => same rfl⟩
  case unary op target =>
    cases target with
    | memory =>
      have low : Word.low data = _ := operand
      dsimp only [effect]
      rw [low]
      exact ⟨rfl, rfl, fun _ => rfl⟩
    | accumulator register => exact ⟨rfl, rfl, fun same => same rfl⟩
  case store | storeWord | storeWordImmediate => exact ⟨rfl, rfl, fun _ => rfl⟩
  -- What is left reads the registers and sets no result.
  all_goals exact ⟨rfl, rfl, fun same => same rfl⟩

/-- So do the steps that it adds. -/
theorem growth_congr (regs : c.regs = d.regs) (instruction : c.instruction = d.instruction)
    (operand : c.instruction.op.operand.Same c d) : c.growth = d.growth := by
  unfold growth
  rw [← instruction, ← regs]
  split
  · rfl
  · next stack push =>
    rw [push] at operand
    rw [show Word.low c.data = Word.low d.data from operand]
  · next stack pull =>
    rw [pull] at operand
    rw [show Word.low c.data = Word.low d.data from operand]
  · rfl
  · rfl

end Processor

/-- Idle cycles and stack traffic need no latch. -/
theorem BusCycle.needs_of_idleOrStack {cycle : BusCycle} (h : cycle.idleOrStack = true)
    (after : Needs) : cycle.needs after = after := by
  cases cycle <;> first | rfl | cases h

theorem Needs.before_of_idleOrStack (instruction : Instruction) {ops : List MicroOp}
    (h : ∀ op ∈ ops, ∃ cycle, op = .cycle cycle ∧ cycle.idleOrStack = true) :
    Needs.before instruction ops = {} := by
  induction ops with
  | nil => rfl
  | cons op ops ih =>
    obtain ⟨cycle, rfl, idle⟩ := h op List.mem_cons_self
    rw [Needs.before_cons, ih fun other mem => h other (List.mem_cons_of_mem _ mem)]
    exact BusCycle.needs_of_idleOrStack idle {}

namespace Processor.Agree

variable {n : Needs} {c d : Processor}

/-- The effect of the instruction. -/
theorem operate (h : Agree (Action.needs c.instruction n .operate) c d) :
    Move.Agree n (c.act .operate) (d.act .operate) := by
  have instruction := h.instruction rfl
  have operand : c.instruction.op.operand.Same c d := Operand.same_of_reading h.ea h.data
  obtain ⟨regs, inputs, result⟩ := effect_congr h.regs h.inputs instruction operand
  have kept (needed : n.result = true) (keeps : c.instruction.op.setsResult = false) :
      c.result = d.result :=
    h.result (by rw [Action.needs, keeps, needed]; rfl)
  have next : Agree n c.effect d.effect := by
    rw [effect_eq c, effect_eq d]
    exact { h with
      regs := regs
      inputs := inputs
      instruction := fun _ => instruction
      postbyte := fun needed => h.postbyte (by rw [← needed]; exact Needs.postbyte_reading _ _)
      ea := h.ea.mono (Needs.ea_le_reading _ _)
      data := h.data.mono (Needs.data_le_reading _ _)
      result := fun needed => result (kept needed) }
  refine ⟨next, growth_congr h.regs instruction operand, fun _ => ?_⟩
  change Agree (Needs.before _ c.growth) c.effect d.effect
  rw [Needs.before_of_idleOrStack _ fun op => mem_growth]
  exact next.nothing

/-- The way to a handler, whatever the address was before. -/
theorem takeVector (h : Agree { n with ea := 0 } c d) (which : InterruptVector) :
    Move.Agree n (c.takeVector which) (d.takeVector which) where
  next := { h with
    regs := by rw [Processor.takeVector, Processor.takeVector, setFlags, setFlags, h.regs]
    ea := .of_eq rfl }
  queued := rfl
  fresh := fun _ => { h.nothing with
    regs := by rw [Processor.takeVector, Processor.takeVector, setFlags, setFlags, h.regs]
    ea := .of_eq rfl }

/-- Every action. -/
theorem act {action : Action} (h : Agree (action.needs c.instruction n) c d) :
    Move.Agree n (c.act action) (d.act action) := by
  cases action with
  | operate => exact h.operate
  | indexOffset8 =>
    have base : c.indexBase = d.indexBase := by
      rw [indexBase, indexBase, h.regs, h.postbyte rfl]
    have address : (c.act .indexOffset8).next.ea = (d.act .indexOffset8).next.ea := by
      rw [Processor.act, Processor.act, base, h.data.low]
    exact .of_quiet
      { h with
        postbyte := fun _ => h.postbyte rfl
        ea := .of_eq address
        data := h.data.mono (Nat.le_max_left _ _) } rfl rfl
  | indexOffset16 =>
    have base : c.indexBase = d.indexBase := by
      rw [indexBase, indexBase, h.regs, h.postbyte rfl]
    have address : (c.act .indexOffset16).next.ea = (d.act .indexOffset16).next.ea := by
      rw [Processor.act, Processor.act, base, h.data.eq]
    exact .of_quiet
      { h with
        postbyte := fun _ => h.postbyte rfl
        ea := .of_eq address
        data := h.data.mono (Nat.le_max_left _ _) } rfl rfl
  | pcOffset8 | branchTarget8 =>
    have address : c.regs.pc + Word.signExtend (Word.low c.data) =
        d.regs.pc + Word.signExtend (Word.low d.data) := by
      rw [h.regs, h.data.low]
    exact .of_quiet
      { h with ea := .of_eq address, data := h.data.mono (Nat.le_max_left _ _) } rfl rfl
  | pcOffset16 | branchTarget16 =>
    have address : c.regs.pc + c.data = d.regs.pc + d.data := by
      rw [h.regs, h.data.eq]
    exact .of_quiet
      { h with ea := .of_eq address, data := h.data.mono (Nat.le_max_left _ _) } rfl rfl
  | indirect =>
    exact .of_quiet
      { h with ea := .of_eq h.data.eq, data := h.data.mono (Nat.le_max_left _ _) } rfl rfl
  | markEntire entire =>
    have regs : (c.act (.markEntire entire)).next.regs =
        (d.act (.markEntire entire)).next.regs := by
      rw [Processor.act, Processor.act, setFlags, setFlags, h.regs]
    exact .of_quiet { h with regs := regs } rfl rfl
  | vector which => exact h.takeVector which
  | jump =>
    exact .of_quiet
      { h with
        regs := by rw [Processor.act, Processor.act, goTo, goTo, h.regs, h.data.eq]
        data := h.data.mono (Nat.le_max_left _ _) } rfl rfl
  | enter phase => exact .of_quiet { h with phase := rfl } rfl rfl

end Processor.Agree

/-! ## Programs

Everything that is scheduled fills what it reads. -/

/-- A decoded program is not empty and needs no latch but its instruction; an indexed
body needs its address as well, which the postbyte is there for. -/
theorem Instruction.needs_decode (page opcode : Byte) :
    (decode page opcode).program ≠ [] ∧
      Needs.before (decode page opcode) (decode page opcode).program =
        { instruction :=
            (Needs.before (decode page opcode) (decode page opcode).program).instruction } ∧
      ((decode page opcode).mode = .indexed →
        Needs.before (decode page opcode) (decode page opcode).body =
          { instruction := true, ea := 2 }) :=
  decode_induction
    (P := fun i => i.program ≠ [] ∧
      Needs.before i i.program = { instruction := (Needs.before i i.program).instruction } ∧
      (i.mode = .indexed → Needs.before i i.body = { instruction := true, ea := 2 }))
    (by decide +kernel) (by decide +kernel) (by decide +kernel) page opcode

/-- What a postbyte queues reads neither operand nor result, and the address only if the
postbyte has formed it already. -/
theorem Instruction.needs_indexed {i : Instruction}
    (decoded : ∃ page opcode, decode page opcode = i) (indexed : i.mode = .indexed)
    (postbyte : Byte) (r : RegisterFile) :
    let before := Needs.before i (IndexForm.program postbyte ++ i.body)
    before.data = 0 ∧ before.result = false ∧
      ((IndexForm.ofPostbyte postbyte).address? postbyte r = none → before.ea = 0) := by
  have body : Needs.before i i.body = { instruction := true, ea := 2 } := by
    obtain ⟨page, opcode, rfl⟩ := decoded
    exact (needs_decode page opcode).2.2 indexed
  rw [Needs.before_append, body, IndexForm.program]
  cases IndexForm.ofPostbyte postbyte <;> split <;>
    exact ⟨rfl, rfl, fun unformed => by first | rfl | cases unformed⟩

/-! ## Bus cycles -/

namespace Processor.Agree

variable {n : Needs} {c d : Processor}

/-- What goes onto the bus is the same. -/
theorem access {cycle : BusCycle} (h : Agree (cycle.needs n) c d) :
    cycle.access c = cycle.access d := by
  cases cycle with
  | peekEa => rw [BusCycle.access, BusCycle.access, h.ea.eq]
  | read offset | readPointer offset => rw [BusCycle.access, BusCycle.access, h.ea.eq]
  | writeByte | writeHigh | writeLow =>
    rw [BusCycle.access, BusCycle.access, h.ea.eq, h.result rfl]
  | writePc => rw [BusCycle.access, BusCycle.access, h.regs, h.result rfl]
  | dummy => rfl
  | _ => simp only [BusCycle.access, h.regs]

theorem stepPc (h : Agree n c d) : Agree n c.stepPc d.stepPc :=
  { h with regs := by rw [Processor.stepPc, Processor.stepPc, goTo, goTo, h.regs] }

/-- An opcode makes the instruction known, and its program fills the rest. -/
theorem absorbOpcode (h : Agree n c d) (opcode : Byte) :
    Move.Agree n (c.absorbOpcode opcode) (d.absorbOpcode opcode) := by
  have step := h.stepPc
  have page : c.page = d.page := h.page
  obtain ⟨_, needs, _⟩ := Instruction.needs_decode d.page opcode
  unfold Processor.absorbOpcode
  dsimp only
  rw [page]
  split
  · next selected _ =>
    have next : Agree n
        { c.stepPc with page := if c.stepPc.page = 0 then selected else c.stepPc.page }
        { d.stepPc with page := if d.stepPc.page = 0 then selected else d.stepPc.page } :=
      { step with page := by rw [step.page] }
    exact ⟨next, rfl, fun _ => next.nothing⟩
  · have next (k : Needs) (fewer : Agree { k with instruction := false } c.stepPc d.stepPc) :
        Agree k
          { c.stepPc with
            page := 0, announced := false, instruction := Instruction.decode d.page opcode }
          { d.stepPc with
            page := 0, announced := false, instruction := Instruction.decode d.page opcode } :=
      { fewer with page := rfl, announced := rfl, instruction := fun _ => rfl }
    refine ⟨next n { step with instruction := nofun }, rfl, fun _ => ?_⟩
    dsimp only
    rw [needs]
    exact next _ step.nothing

/-- The address is formed at once, or what was there stays. -/
theorem ea_absorbPostbyte (h : Agree n c d) {k : Nat} {postbyte : Byte}
    (kept : (IndexForm.ofPostbyte postbyte).address? postbyte c.stepPc.regs = none →
      Word.SameLow k c.ea d.ea) :
    Word.SameLow k (c.absorbPostbyte postbyte).next.ea (d.absorbPostbyte postbyte).next.ea := by
  change Word.SameLow k
    (((IndexForm.ofPostbyte postbyte).address? postbyte c.stepPc.regs).getD c.ea)
    (((IndexForm.ofPostbyte postbyte).address? postbyte d.stepPc.regs).getD d.ea)
  rw [← h.stepPc.regs]
  cases formed : (IndexForm.ofPostbyte postbyte).address? postbyte c.stepPc.regs with
  | some address => exact .of_eq rfl
  | none => exact kept formed

/-- A postbyte makes the address known, or its program does. -/
theorem absorbPostbyte (h : Agree { n with instruction := true, postbyte := false } c d)
    (decoded : ∃ page opcode, Instruction.decode page opcode = c.instruction)
    (indexed : c.instruction.mode = .indexed) (postbyte : Byte) :
    Move.Agree n (c.absorbPostbyte postbyte) (d.absorbPostbyte postbyte) := by
  have instruction := h.instruction rfl
  have step := h.stepPc
  have regs : (c.absorbPostbyte postbyte).next.regs = (d.absorbPostbyte postbyte).next.regs := by
    simp only [Processor.absorbPostbyte, step.regs]
  have next (k : Needs) (ea : Word.SameLow k.ea (c.absorbPostbyte postbyte).next.ea
        (d.absorbPostbyte postbyte).next.ea)
      (data : Word.SameLow k.data c.data d.data) (result : k.result = true → c.result = d.result) :
      Agree k (c.absorbPostbyte postbyte).next (d.absorbPostbyte postbyte).next :=
    { step with
      regs := regs, instruction := fun _ => instruction, postbyte := fun _ => rfl
      ea := ea, data := data, result := result }
  have queued : (c.absorbPostbyte postbyte).queued = (d.absorbPostbyte postbyte).queued :=
    congrArg (fun i : Instruction => IndexForm.program postbyte ++ i.body) instruction
  obtain ⟨noData, noResult, noAddress⟩ :=
    Instruction.needs_indexed decoded indexed postbyte c.stepPc.regs
  refine ⟨next n (h.ea_absorbPostbyte fun _ => h.ea) h.data h.result, queued, fun _ => ?_⟩
  change Agree (Needs.before c.instruction (IndexForm.program postbyte ++ c.instruction.body)) _ _
  refine next _ (h.ea_absorbPostbyte fun unformed => ?_) ?_ ?_
  · rw [noAddress unformed]
    trivial
  · rw [noData]
    trivial
  · rw [noResult]
    exact nofun

/-- Every byte. -/
theorem absorb {cycle : BusCycle} (h : Agree (cycle.needs n) c d)
    (decoded : cycle = .fetchPostbyte → c.instruction.mode = .indexed ∧
      ∃ page opcode, Instruction.decode page opcode = c.instruction) (byte : Byte) :
    Move.Agree n (c.absorb byte cycle) (d.absorb byte cycle) := by
  cases cycle with
  | fetchOpcode => exact h.absorbOpcode byte
  | fetchPostbyte => exact h.absorbPostbyte (decoded rfl).2 (decoded rfl).1 byte
  | fetchOperand => exact .of_quiet { h.stepPc with data := h.data.shiftIn byte } rfl rfl
  | fetchAddress => exact .of_quiet { h.stepPc with ea := h.ea.shiftIn byte } rfl rfl
  | fetchDirect =>
    have address : Word.ofBytes c.regs.dp byte = Word.ofBytes d.regs.dp byte := by rw [h.regs]
    exact .of_quiet { h.stepPc with ea := .of_eq address } rfl rfl
  | read offset | readPointer offset =>
    exact .of_quiet
      { h with ea := h.ea.mono (Nat.le_max_left _ _), data := h.data.shiftIn byte } rfl rfl
  | peekEa => exact .of_quiet { h with ea := h.ea.mono (Nat.le_max_left _ _) } rfl rfl
  | writeByte | writeHigh | writeLow =>
    exact .of_quiet
      { h with ea := h.ea.mono (Nat.le_max_left _ _), result := fun _ => h.result rfl } rfl rfl
  | writePc => exact .of_quiet { h.stepPc with result := fun _ => h.result rfl } rfl rfl
  | push stack part =>
    exact .of_quiet { h with regs := congrArg (·.grow stack) h.regs } rfl rfl
  | pull stack part =>
    have regs : (c.regs.shrink stack).setPart part byte =
        (d.regs.shrink stack).setPart part byte := by
      rw [h.regs]
    have inputs : (c.absorb byte (.pull stack part)).next.inputs =
        (d.absorb byte (.pull stack part)).next.inputs := by
      simp only [Processor.absorb, h.inputs]
    exact .of_quiet { h with regs := regs, inputs := inputs } rfl rfl
  | _ => exact .of_quiet h rfl rfl

end Processor.Agree

end Sim6809
