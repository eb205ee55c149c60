/-
The return from an interrupt, and the round trip of entry and return.

RTI reads the flags first, and E among them tells how much more there is to pull. Its
program is therefore two stretches with a decision in between (`Board.runs_rti`), and
none of it looks at the inputs, so they may do what they like meanwhile. An entry
leaves the image of a frame in memory (`Taken`) and RTI asks for such an image: in
`entry_return_transparent` the two meet, however the entry went.
-/
import Sim6809.Proofs.InterruptEntry

set_option autoImplicit false

namespace Sim6809

/-! ## After the last cycle

The phases between two instructions may find another interrupt and schedule its frame,
but they leave the registers alone. -/

namespace Processor

theorem regs_settle_of_arbitration {c : Processor} (h : c.schedule.Consistent)
    (dry : c.schedule.pending = []) (phase : c.phase = .arbitration) :
    c.settle.state.regs = c.regs := by
  cases asked : HardwareInterrupt.recognised c.inputs.active c.regs.cc with
  | some interrupt =>
    rw [(settle_of_asked h dry phase asked).1]
    rfl
  | none =>
    rw [(settle_of_unasked h dry phase asked).1]

theorem regs_settle_of_boundary {c : Processor} (h : c.schedule.Consistent)
    (dry : c.schedule.pending = []) (phase : c.phase = .boundary) :
    c.settle.state.regs = c.regs := by
  cases halted : c.inputs.active.halt with
  | true =>
    have still : c.move? = none := by
      rw [move?_of_dry h dry, phaseMove?, phase]
      exact if_pos halted
    rw [settle_of_rest still]
  | false =>
    rw [settle_of_move h (move?_of_boundary h dry phase halted)]
    exact regs_settle_of_arbitration (c := { c with phase := .arbitration }) h dry rfl

theorem regs_settle_of_execution {c : Processor} (h : c.schedule.Consistent)
    (dry : c.schedule.pending = []) (phase : c.phase = .execution) :
    c.settle.state.regs = c.regs := by
  rw [settle_of_move h (move?_of_execution h dry phase)]
  exact regs_settle_of_boundary (c := { c with phase := .boundary }) h dry rfl

/-! ## RTI -/

theorem act_rti {c : Processor} (rti : c.instruction = ⟨.rti, .inherent⟩) :
    c.act .operate = { next := c, queued := Frame.unwind c.regs.cc.entire } := by
  simp only [act, effect, growth, rti]

end Processor

theorem straight_unwind (instruction : Instruction) (entire : Bool) :
    Straight instruction (Frame.unwind entire) := by
  cases entire <;> simp [Straight, Frame.unwind, Frame.entirePulled, MicroOp.straight,
    MicroOp.queues]

section

variable {σ : Type} {entire : Bool} {r : RegisterFile}

/-- The flags are pulled, and the decision is due. -/
theorem Board.runs_flags (m : Monitor σ) {c : Processor} {regs : RegisterFile} (mem : Memory)
    (notes : σ) (h : c.Decoded ⟨.rti, .inherent⟩ regs) {lines : List Levels}
    (length : lines.length = 2) :
    ∃ d mem' notes', Runs m Processor.Busy lines (settled m ⟨c, mem, notes⟩)
        (settled m ⟨d, mem', notes'⟩) ∧
      d.schedule.Consistent ∧ d.schedule.pending = [.action .operate] ∧
      d.instruction = ⟨.rti, .inherent⟩ ∧ d.phase = .execution ∧ d.page = 0 ∧
      mem'.peek = mem.peek ∧
      d.regs = { regs with cc := .ofByte (mem.peek regs.s), s := regs.s + 1 } := by
  obtain rfl := h.regs
  have straight : Straight c.instruction [.cycle .peekPc, .cycle (.pull .s .cc)] := by
    simp [Straight, MicroOp.straight, MicroOp.queues]
  have headed := Headed.start mem.peek [.action .operate] h.consistent h.pending straight
  obtain ⟨d, mem', notes', runs, done, stays⟩ := headed.runs m notes length
  obtain ⟨pending, alike⟩ := done.nothingLeft
  rw [h.phase] at runs
  refine ⟨d, mem', notes', runs.mono fun _ => Processor.Amid.busy, done.consistent, pending,
    stays.instruction.trans h.instruction, stays.phase.trans h.phase, stays.page.trans h.page,
    alike.ram, ?_⟩
  exact alike.regs

/-- Decided for a frame, RTI pulls the rest of it. -/
theorem Board.runs_unwind (m : Monitor σ) {c : Processor} (mem : Memory) (notes : σ)
    (consistent : c.schedule.Consistent)
    (pending : c.schedule.pending = [.action .operate]) (rti : c.instruction = ⟨.rti, .inherent⟩)
    (phase : c.phase = .execution) (page : c.page = 0) (decided : c.regs.cc.entire = entire)
    (found : Ram.Holds mem.peek c.regs.s ((Frame.pulls entire).map r.part)) {lines : List Levels}
    (length : lines.length = Frame.size entire) :
    ∃ d mem' notes', Runs m Processor.Busy lines (settled m ⟨c, mem, notes⟩)
        (settled m ⟨d, mem', notes'⟩) ∧
      d.Finished ∧ mem'.peek = mem.peek ∧
      d.regs = { c.regs.copied r (Frame.pulls entire) with
        s := c.regs.s + UInt16.ofNat (Frame.pulls entire).length } := by
  have room : (Frame.unwind entire).length ≤ 32 := by
    cases entire <;> decide
  have queued := Schedule.pending_advance_extend consistent pending _ room
  have due := Processor.move?_of_action consistent pending
  rw [Processor.act_rti (c := { c with schedule := c.schedule.advance }) rti] at due
  have cycles : lines.length = (Frame.unwind entire).countP (·.usesBus) := by
    rw [length]
    cases entire <;> rfl
  obtain ⟨d, mem', notes', runs, finished, _, sees⟩ :=
    runs_finish m mem notes
      (c := { c with schedule := c.schedule.advance.extend (Frame.unwind entire) })
      (consistent.advance.extend _) queued (straight_unwind _ entire) phase page cycles
  rw [enact_unwind entire
    { c with schedule := c.schedule.advance.extend (Frame.unwind entire) } mem.peek r found] at sees
  have begun : settled m ⟨c, mem, notes⟩ = settled m
      ⟨{ c with schedule := c.schedule.advance.extend (Frame.unwind entire) }, mem, notes⟩ := by
    rw [settled_of_move consistent due, decided]
    rfl
  refine ⟨d, mem', notes', ?_, finished, congrArg Prod.snd sees, congrArg Prod.fst sees⟩
  rw [begun]
  exact runs

/-- **RTI.** With the image of a frame above the stack pointer, an RTI puts the registers
back in as many cycles as it has opcode bytes, two, and one for each byte of the frame;
which lines are driven in them does not matter. -/
theorem Board.runs_rti {m : Monitor σ} (mem : Memory) (notes : σ) (proceeds : m.Proceeds)
    {c : Processor} (start : c.AtOpcode 0) {n : Nat}
    (encoded : Encodes mem.peek 0 c.regs.pc n ⟨.rti, .inherent⟩)
    (top : c.regs.s + UInt16.ofNat (Frame.size entire) = r.s)
    (found : Ram.Holds mem.peek c.regs.s (Frame.image entire r)) {lines : List Levels}
    (length : lines.length = n + 2 + Frame.size entire) :
    ∃ e mem' notes', UnderWay m lines ⟨c, mem, notes⟩ (settled m ⟨e, mem', notes'⟩) ∧
      e.Finished ∧ e.regs = Frame.resumed entire c.regs r ∧ mem'.peek = mem.peek := by
  rw [Frame.image_eq] at found
  obtain ⟨front, pulled, rfl, front_length, rest⟩ := exists_append_of_length length
  obtain ⟨opcode, flags, rfl, first, second⟩ := exists_append_of_length front_length
  obtain ⟨d, mem₁, notes₁, fetch, ready, same₁, _⟩ :=
    encoded.runs proceeds mem notes start rfl rfl first
  obtain ⟨e, mem₂, notes₂, decide, consistent, pending, rti, phase, page, same₂, regs⟩ :=
    runs_flags m mem₁ notes₁ ready second
  -- The flags tell which frame it is, so the rest of it is pulled.
  have cc : ConditionCodes.ofByte (mem₁.peek c.regs.s) = { r.cc with entire := entire } := by
    rw [same₁, found.head, ConditionCodes.ofByte_toByte]
  have regs' : e.regs = { c.regs with
      pc := c.regs.pc + UInt16.ofNat n, s := c.regs.s + 1
      cc := { r.cc with entire := entire } } := by
    rw [regs]
    dsimp only
    rw [cc]
  have above : Ram.Holds mem₂.peek e.regs.s ((Frame.pulls entire).map r.part) := by
    rw [same₂, same₁, regs']
    exact found.tail
  obtain ⟨f, mem₃, notes₃, unwind, finished, same₃, back⟩ :=
    runs_unwind m mem₂ notes₂ consistent pending rti phase page (by rw [regs'])
      above rest
  refine ⟨f, mem₃, notes₃, (fetch.trans decide).trans unwind, finished, ?_,
    (same₃.trans same₂).trans same₁⟩
  have bottom : c.regs.s + 1 + UInt16.ofNat (Frame.pulls entire).length = r.s := by
    rw [← top, UInt16.add_assoc]
    congr 1
    cases entire <;> rfl
  rw [back, regs']
  dsimp only
  rw [bottom]
  exact Frame.copied_pulls entire { c.regs with pc := c.regs.pc + UInt16.ofNat n } r _

/-! ## Entry and return -/

/-- With a vector taken, the handler's address is fetched, and PC is all that changes. -/
theorem Taken.enters (m : Monitor σ) (mem : Memory) (notes : σ) {which : InterruptVector}
    {ram : Ram} {c : Processor}
    (h : Taken entire r ram which c mem.peek) {lines : List Levels}
    (length : lines.length = c.schedule.pending.countP (·.usesBus)) :
    (Board.clocks m lines ⟨c, mem, notes⟩).cpu.regs =
        { c.regs with
          pc := Word.ofBytes (mem.peek which.address) (mem.peek (which.address + 1)) } ∧
      (Board.clocks m lines ⟨c, mem, notes⟩).bus.peek = mem.peek := by
  have ea : c.ea + (0 : UInt8).toUInt16 = which.address := by
    rw [h.ea]
    exact UInt16.add_zero _
  have ea' : c.ea + (1 : UInt8).toUInt16 = which.address + 1 := by
    rw [h.ea]
    rfl
  have jumped : seen (enactAll c.schedule.pending (c, mem.peek)) = ({ c.regs with
      pc := Word.ofBytes (mem.peek which.address) (mem.peek (which.address + 1)) }, mem.peek) := by
    rw [← ea', ← ea, ← Word.shiftIn_shiftIn c.data]
    rcases h.pending with pending | pending <;> rw [pending] <;> rfl
  have straight : Straight c.instruction c.schedule.pending := by
    rcases h.pending with pending | pending <;> rw [pending] <;>
      simp [Straight, vectorFetch, MicroOp.straight, MicroOp.queues]
  have still : c.move? = none := by
    rcases h.pending with pending | pending <;> exact Processor.move?_of_cycle h.consistent pending
  have headed := Headed.start mem.peek [] h.consistent
    (List.append_nil _).symm straight
  obtain ⟨d, mem', notes', runs, done, stays⟩ :=
    headed.runs m notes length
  obtain ⟨dry, alike⟩ := done.nothingLeft
  rw [Board.settled_of_rest still] at runs
  have kept : d.settle.state.regs = d.regs := by
    rcases h.phase with phase | phase
    · exact Processor.regs_settle_of_boundary done.consistent dry (stays.phase.trans phase)
    · exact Processor.regs_settle_of_execution done.consistent dry (stays.phase.trans phase)
  have sees := alike.seen.trans jumped
  rw [runs.clocks_eq]
  exact ⟨kept.trans (congrArg Prod.fst sees), congrArg Prod.snd sees⟩

/-- **Interrupts are transparent.** An entry begins with the registers `r`, the lines do
what they like, and at last a clock takes a vector, of this interrupt or of another.
Then the image of one frame of `r` lies right below the old stack pointer, E in its
first byte tells which, and no register but S and CC has changed; PC follows with the
handler's address. An RTI that finds the stack pointer and the image as they were then
puts all registers back that are in the image, again whatever the lines do, and S with
them. -/
theorem entry_return_transparent {c : Processor} {mem : Memory}
    (begins : EntryBegins mem.peek c entire r) {lines : List Levels} {levels : Levels}
    (untaken : ∀ which pc,
      .vectorTaken which pc ∉ (Board.clocks .logging lines ⟨c, mem, []⟩).notes)
    {which : InterruptVector} {pc : Word}
    (taken : .vectorTaken which pc ∈
      (Board.clocks .logging (lines ++ [levels]) ⟨c, mem, []⟩).notes) :
    let b := Board.clocks .logging (lines ++ [levels]) ⟨c, mem, []⟩
    pc = r.pc ∧
    b.cpu.regs = { r with
      s := r.s - UInt16.ofNat (Frame.size entire)
      cc := ({ r.cc with entire := entire } : ConditionCodes).raise which.mask } ∧
    b.bus.peek = Ram.overlay mem.peek (r.s - UInt16.ofNat (Frame.size entire))
      (Frame.image entire r) ∧
    (ConditionCodes.ofByte (b.bus.peek b.cpu.regs.s)).entire = entire ∧
    (∃ cycles ≤ 4, ∀ more : List Levels, more.length = cycles →
      (Board.clocks .logging more b).cpu.regs = { b.cpu.regs with
        pc := Word.ofBytes (b.bus.peek which.address) (b.bus.peek (which.address + 1)) } ∧
      (Board.clocks .logging more b).bus.peek = b.bus.peek) ∧
    ∀ {σ : Type} {m : Monitor σ} (later : Board Memory σ) {n : Nat} (more : List Levels),
      m.Proceeds → later.cpu.AtOpcode 0 →
      Encodes later.bus.peek 0 later.cpu.regs.pc n ⟨.rti, .inherent⟩ →
      later.cpu.regs.s = b.cpu.regs.s →
      (∀ k < Frame.size entire, later.bus.peek (b.cpu.regs.s + UInt16.ofNat k) =
        b.bus.peek (b.cpu.regs.s + UInt16.ofNat k)) →
      more.length = n + 2 + Frame.size entire →
      ∃ (e : Processor) (after : Board Memory σ), Board.UnderWay m more later after ∧
        e.Finished ∧ after.cpu = e.settle.state ∧
        after.cpu.regs = Frame.resumed entire later.cpu.regs r ∧
        after.bus.peek = later.bus.peek := by
  intro b
  obtain ⟨done, same⟩ := begins.taken untaken taken
  have regs : b.cpu.regs = { Frame.stacked entire r with
      cc := (Frame.stacked entire r).cc.raise which.mask } := done.regs
  have contents : b.bus.peek = Frame.memory entire r mem.peek := done.contents
  have bottom : b.cpu.regs.s = r.s - UInt16.ofNat (Frame.size entire) := by
    rw [regs]
    rfl
  have fits : (Frame.image entire r).length ≤ 65536 := by
    rw [Frame.length_image]
    cases entire <;> decide
  have image : Ram.Holds b.bus.peek b.cpu.regs.s (Frame.image entire r) := by
    rw [contents, bottom]
    exact Ram.Holds.overlay mem.peek _ fits
  refine ⟨same, regs, contents, ?_, ⟨b.cpu.schedule.pending.countP (·.usesBus), ?_, ?_⟩, ?_⟩
  · rw [Frame.image_eq] at image
    rw [image.head, ConditionCodes.ofByte_toByte]
  · rcases done.pending with pending | pending
    · rw [show b.cpu.schedule.pending = _ from pending]
      decide
    · rw [show b.cpu.schedule.pending = _ from pending]
      decide
  · intro more length
    exact Taken.enters .logging b.bus b.notes done length
  · intro σ m later n more proceeds start encoded top intact length
    have found : Ram.Holds later.bus.peek later.cpu.regs.s (Frame.image entire r) := by
      intro k inside
      rw [top, intact k (by rw [← Frame.length_image entire r]; exact inside)]
      exact image k inside
    have back : later.cpu.regs.s + UInt16.ofNat (Frame.size entire) = r.s := by
      rw [top, bottom, UInt16.sub_add_cancel]
    obtain ⟨e, mem', notes', run, finished, resumed, unchanged⟩ :=
      Board.runs_rti later.bus later.notes proceeds start encoded back found length
    refine ⟨e, _, run, finished, rfl, ?_, unchanged⟩
    have kept := Processor.regs_settle_of_execution finished.consistent finished.pending
      finished.phase
    exact kept.trans resumed

/-- FIRQ is recognised and withdrawn, and IRQ, which came meanwhile, is served with the
short frame of FIRQ. An RTI at `$1000` returns from it. -/
theorem entry_return_transparent_withdrawn :
    ∃ (c : Processor) (mem : Memory) (b : Board Memory (List Notice)) (after : Board Memory Unit),
      HardwareInterrupt.recognised c.inputs.active c.regs.cc = some .firq ∧
      b = Board.clocks .logging (.replicate 6 { Levels.low with irq := true }) ⟨c, mem, []⟩ ∧
      b.notes = [.vectorTaken .irq 0x2000] ∧
      b.cpu.regs.s = 0x7FFD ∧
      after = Board.clocks .silent (.replicate 6 .low) ⟨Processor.setPc { Processor.powerOn with
        regs := { RegisterFile.powerOn with s := 0x7FFD } } 0x1000, b.bus, ()⟩ ∧
      after.cpu.regs.pc = 0x2000 ∧ after.cpu.regs.s = 0x8000 := by
  let c : Processor := { Processor.powerOn with
    phase := .arbitration
    regs := { RegisterFile.powerOn with pc := 0x2000, s := 0x8000, cc := .ofByte 0 }
    inputs := { Inputs.released with active := { Levels.low with firq := true } } }
  let mem := Memory.blank.poke 0x1000 0x3B
  let irq : Levels := { Levels.low with irq := true }
  have begins : EntryBegins mem.peek c (HardwareInterrupt.stacksEntire .firq) c.regs :=
    .hardware (by decide) rfl rfl rfl
  have silent : (Board.clocks .logging (.replicate 5 irq) ⟨c, mem, []⟩).notes = [] := by
    decide +kernel
  have noted : (Board.clocks .logging (.replicate 5 irq ++ [irq]) ⟨c, mem, []⟩).notes =
      [.vectorTaken .irq 0x2000] := by
    decide +kernel
  have untaken : ∀ which pc, .vectorTaken which pc ∉
      (Board.clocks .logging (.replicate 5 irq) ⟨c, mem, []⟩).notes := by
    rw [silent]
    exact fun _ _ => List.not_mem_nil
  have taken : .vectorTaken .irq 0x2000 ∈
      (Board.clocks .logging (.replicate 5 irq ++ [irq]) ⟨c, mem, []⟩).notes := by
    rw [noted]
    exact List.mem_cons_self
  obtain ⟨_, regs, contents, _, _, returns⟩ :=
    entry_return_transparent begins untaken taken
  generalize board : Board.clocks .logging (.replicate 5 irq ++ [irq]) ⟨c, mem, []⟩ = b at *
  have s : b.cpu.regs.s = 0x7FFD := by
    rw [regs]
    decide
  have opcode : b.bus.peek 0x1000 = 0x3B := by
    rw [contents, Ram.overlay_of_outside _ (by decide)]
    exact Memory.peek_poke_self _ _ _
  have rti : Instruction.decode 0 (b.bus.peek 0x1000) = ⟨.rti, .inherent⟩ := by
    rw [opcode]
    decide
  have encoded : Encodes b.bus.peek 0 0x1000 1 ⟨.rti, .inherent⟩ := .of_decode rti (by rintro _ ⟨⟩)
  let d : Processor := Processor.setPc { Processor.powerOn with
    regs := { RegisterFile.powerOn with s := 0x7FFD } } 0x1000
  have start : d.AtOpcode 0 := Processor.atOpcode_setPc _ _
  obtain ⟨_, after, run, _, _, resumed, _⟩ := returns (m := .silent) ⟨d, b.bus, ()⟩
    (.replicate 6 .low) (fun _ _ => rfl) start encoded s.symm (fun _ _ => rfl) rfl
  refine ⟨c, mem, b, after, rfl, board.symm, noted, s, run.clocks_eq.symm, ?_, ?_⟩
  · rw [resumed]
    rfl
  · rw [resumed]
    rfl

end

end Sim6809
