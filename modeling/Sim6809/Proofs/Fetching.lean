/-
From one instruction to the next: the opcode fetch at its start, and the way back to
a fetch at its end.

An opcode may stand behind any number of page selections, of which the first counts.
`Encodes` reads them off memory, and `Encodes.runs` is the same recursion made by the
processor, one clock for each byte. It ends with the instruction decoded and its
program pending (`Decoded`), which is where the stretches of `Straight.lean` take
over. `settled_boundary` closes the circle: on quiet lines a processor that has
nothing left to do in an instruction is at the next opcode.
-/
import Sim6809.Proofs.Order
import Sim6809.Proofs.Straight

set_option autoImplicit false

namespace Sim6809

/-- The `n` bytes at `pc` are the opcode of an instruction and the page selections
before it, with this page selected so far. -/
inductive Encodes (ram : Ram) : Byte → Word → Nat → Instruction → Prop
  | opcode {page : Byte} {pc : Word}
      (final : ∀ selected, (Instruction.decode page (ram pc)).op ≠ .selectPage selected) :
      Encodes ram page pc 1 (Instruction.decode page (ram pc))
  | select {page selected : Byte} {pc : Word} {n : Nat} {i : Instruction}
      (selects : (Instruction.decode page (ram pc)).op = .selectPage selected)
      (more : Encodes ram (if page = 0 then selected else page) (pc + 1) n i) :
      Encodes ram page pc (n + 1) i

/-- An opcode with no page selection before it. -/
theorem Encodes.of_decode {ram : Ram} {page : Byte} {pc : Word} {i : Instruction}
    (decoded : Instruction.decode page (ram pc) = i)
    (final : ∀ selected, i.op ≠ .selectPage selected) : Encodes ram page pc 1 i := by
  subst decoded
  exact .opcode final

/-- The instruction hook never holds the processor. -/
def Monitor.Proceeds {σ : Type} (m : Monitor σ) : Prop :=
  ∀ regs notes, (m.ask regs notes).1 = .proceed

namespace Processor

/-- An opcode fetch is all that is pending. With no page selected this is the boundary
between two instructions. -/
structure AtOpcode (page : Byte) (c : Processor) : Prop where
  consistent : c.schedule.Consistent
  pending : c.schedule.pending = [.cycle .fetchOpcode]
  phase : c.phase = .execution
  page : c.page = page

instance (page : Byte) (c : Processor) : Decidable (c.AtOpcode page) :=
  decidable_of_iff (c.schedule.Consistent ∧ c.schedule.pending = [.cycle .fetchOpcode] ∧
      c.phase = .execution ∧ c.page = page)
    ⟨fun ⟨consistent, pending, phase, page⟩ => ⟨consistent, pending, phase, page⟩,
      fun h => ⟨h.consistent, h.pending, h.phase, h.page⟩⟩

/-- That is where a jump leads. -/
theorem atOpcode_setPc (c : Processor) (pc : Word) : (c.setPc pc).AtOpcode 0 :=
  ⟨(Schedule.consistent_clear _).push _, c.pending_setPc pc, rfl, rfl⟩

/-- A boundary as it is seen from outside, in any run, is one. -/
theorem atOpcode_of_reachable {c : Processor} (reachable : Reachable anyCall c)
    (boundary : c.atBoundary = true) : c.AtOpcode 0 := by
  simp only [atBoundary, Bool.and_eq_true, beq_iff_eq] at boundary
  obtain ⟨⟨phase, page⟩, current⟩ := boundary
  have orderly := reachable.orderly
  refine ⟨orderly.consistent, ?_, phase, page⟩
  rw [Schedule.current_eq_head? orderly.consistent] at current
  obtain ⟨rest, pending⟩ := List.head?_eq_some_iff.1 current
  have last := orderly.last
  rw [pending] at last ⊢
  rw [last.rest_eq_nil rfl]

theorem AtOpcode.atBoundary {c : Processor} (h : c.AtOpcode 0) : c.atBoundary = true := by
  rw [Processor.atBoundary, h.phase, h.page, Schedule.current_eq_head? h.consistent, h.pending]
  rfl

/-- The instruction is decoded, and nothing of it done. -/
structure Decoded (i : Instruction) (regs : RegisterFile) (c : Processor) : Prop where
  consistent : c.schedule.Consistent
  pending : c.schedule.pending = i.program
  instruction : c.instruction = i
  phase : c.phase = .execution
  page : c.page = 0
  regs : c.regs = regs

/-- An instruction is under way. -/
def Busy (c : Processor) : Prop := c.atBoundary = false ∧ c.isWaiting = false

/-- A step that comes here goes no further. -/
def EndsStep (c : Processor) : Prop := c.atBoundary = true ∨ c.isWaiting = true

theorem EndsStep.or_eq_true {c : Processor} (h : c.EndsStep) :
    (c.atBoundary || c.isWaiting) = true :=
  Bool.or_eq_true_iff.2 h

theorem busy_or_endsStep (c : Processor) : c.Busy ∨ c.EndsStep := by
  cases boundary : c.atBoundary with
  | true => exact Or.inr (Or.inl boundary)
  | false =>
    cases waiting : c.isWaiting with
    | true => exact Or.inr (Or.inr waiting)
    | false => exact Or.inl ⟨boundary, waiting⟩

theorem AtOpcode.busy {page : Byte} {c : Processor} (h : c.AtOpcode page) (selected : page ≠ 0) :
    c.Busy := by
  refine ⟨?_, ?_⟩
  · have other : c.page ≠ 0 := by
      rw [h.page]
      exact selected
    simp [Processor.atBoundary, other]
  · rw [isWaiting, h.phase]

theorem Amid.busy {c : Processor} (h : Amid .execution c) : c.Busy := by
  obtain ⟨phase, cycle, current, ne⟩ := h
  refine ⟨?_, ?_⟩
  · simp [Processor.atBoundary, current, ne]
  · rw [isWaiting, phase]

/-! ## The byte of an opcode fetch -/

theorem absorbOpcode_of_final (c : Processor) {byte : Byte}
    (final : ∀ selected, (Instruction.decode c.page byte).op ≠ .selectPage selected) :
    c.absorbOpcode byte =
      { next := { c.stepPc with
                  page := 0, announced := false, instruction := Instruction.decode c.page byte }
        queued := (Instruction.decode c.page byte).program } := by
  unfold absorbOpcode
  dsimp only
  split
  · next selected selects => exact absurd selects (final selected)
  · rfl

theorem absorbOpcode_of_select (c : Processor) {byte selected : Byte}
    (selects : (Instruction.decode c.page byte).op = .selectPage selected) :
    c.absorbOpcode byte =
      { next := { c.stepPc with page := if c.page = 0 then selected else c.page }
        queued := [.cycle .fetchOpcode] } := by
  simp only [absorbOpcode, selects]
  rfl

theorem decoded_carryOut {page : Byte} {c : Processor} (h : c.AtOpcode page) {byte : Byte}
    (final : ∀ selected, (Instruction.decode page byte).op ≠ .selectPage selected) :
    (c.carryOut .fetchOpcode byte).Decoded (Instruction.decode page byte)
      { c.regs with pc := c.regs.pc + 1 } := by
  obtain rfl := h.page
  have absorbed := absorbOpcode_of_final { c.clocked with schedule := c.schedule.advance } final
  have fits := (Instruction.laidOut_decode c.page byte).length
  have pending := Schedule.pending_advance_extend h.consistent h.pending
    (Instruction.decode c.page byte).program (by omega)
  rw [carryOut, absorb, absorbed]
  exact ⟨h.consistent.advance.extend _, pending, rfl, h.phase, rfl, rfl⟩

theorem atOpcode_carryOut {page selected : Byte} {c : Processor} (h : c.AtOpcode page)
    {byte : Byte} (selects : (Instruction.decode page byte).op = .selectPage selected) :
    (c.carryOut .fetchOpcode byte).AtOpcode (if page = 0 then selected else page) ∧
      (c.carryOut .fetchOpcode byte).regs = { c.regs with pc := c.regs.pc + 1 } := by
  obtain rfl := h.page
  have absorbed := absorbOpcode_of_select { c.clocked with schedule := c.schedule.advance } selects
  have pending := Schedule.pending_advance_extend h.consistent h.pending
    [.cycle .fetchOpcode] (by decide)
  rw [carryOut, absorb, absorbed]
  exact ⟨⟨h.consistent.advance.extend _, pending, h.phase, rfl⟩, rfl⟩

/-- Whichever byte it is, the inputs move on by a cycle. -/
theorem inputs_carryOut_fetchOpcode (c : Processor) (byte : Byte) :
    (c.carryOut .fetchOpcode byte).inputs = c.inputs.cycle := by
  change (absorbOpcode _ byte).next.inputs = _
  unfold absorbOpcode
  dsimp only
  split <;> rfl

end Processor

/-! ## Fetching, clock by clock -/

namespace Board

variable {β σ : Type} [Bus β] {m : Monitor σ}

/-- The notes after the instruction hook was asked, if it was to be. -/
def asked (m : Monitor σ) (c : Processor) (notes : σ) : σ :=
  if c.asksFirst then (m.ask c.regs notes).2 else notes

/-- The hook is asked if it is to be, and if it does not hold the fetch is made. -/
theorem clock_of_fetch {page : Byte} {c : Processor} (bus : β) {notes : σ}
    (passes : c.asksFirst = true → (m.ask c.regs notes).1 = .proceed) (h : c.AtOpcode page) :
    ∃ announced, clock m ⟨c, bus, notes⟩ =
      (.cycle, settled m
        ⟨Processor.carryOut { c with announced := announced } .fetchOpcode
          (Bus.read bus c.regs.pc).1, (Bus.read bus c.regs.pc).2, asked m c notes⟩) := by
  have due := Processor.due?_of_cycle h.consistent h.pending
  have prepared := Processor.prepare_of_cycle h.consistent h.pending
  cases asks : c.asksFirst with
  | true =>
    have answered := passes asks
    refine ⟨true, ?_⟩
    have announced := Processor.announce_of_asked asks
    have due' : c.announce.due? = some .fetchOpcode := by
      rw [announced]
      exact due
    cases answer : m.ask c.regs notes with
    | mk verdict heard =>
      rw [answer] at answered
      cases answered
      simp only [clock, prepared, asks, answer, asked, if_true, Monitor.hearAll, List.foldl_nil,
        exchange, Processor.access, due', Processor.operandDue, Processor.complete, settled]
      rw [announced]
      rfl
  | false =>
    refine ⟨c.announced, ?_⟩
    simp only [clock, prepared, asks, asked, Monitor.hearAll, List.foldl_nil, exchange,
      Processor.access, due, Processor.operandDue, Processor.complete, settled]
    rfl

/-- The clocks of `lines` lead from one board to another, and between the first and the
last of them an instruction is under way. -/
def UnderWay (m : Monitor σ) (lines : List Levels) (b c : Board β σ) : Prop :=
  ∃ levels more first, lines = levels :: more ∧
    clock m (b.withLevels levels) = (.cycle, first) ∧ Runs m Processor.Busy more first c

theorem UnderWay.trans {lines more : List Levels} {b c d : Board β σ}
    (first : UnderWay m lines b c) (second : Runs m Processor.Busy more c d) :
    UnderWay m (lines ++ more) b d := by
  obtain ⟨levels, rest, next, rfl, cycle, runs⟩ := first
  exact ⟨levels, rest ++ more, next, rfl, cycle, runs.trans second⟩

theorem UnderWay.clocks_eq {lines : List Levels} {b c : Board β σ} (h : UnderWay m lines b c) :
    clocks m lines b = c := by
  obtain ⟨levels, more, first, rfl, cycle, runs⟩ := h
  rw [clocks, tick, cycle]
  exact runs.clocks_eq

end Board

/-- The clock of an opcode fetch, on flat memory. -/
theorem Board.clock_fetch {σ : Type} {m : Monitor σ} (proceeds : m.Proceeds) {page : Byte}
    {c : Processor} (h : c.AtOpcode page) (mem : Memory) (notes : σ) (levels : Levels) :
    ∃ e, clock m (withLevels levels ⟨c, mem, notes⟩) =
        (.cycle, settled m ⟨Processor.carryOut e .fetchOpcode (mem.peek c.regs.pc), mem.counted,
          asked m c notes⟩) ∧
      e.AtOpcode page ∧ e.regs = c.regs ∧
      (levels = .low → ∀ k, c.inputs.QuietIn k → e.inputs.QuietIn k) := by
  have driven : (c.withLevels levels).AtOpcode page := ⟨h.consistent, h.pending, h.phase, h.page⟩
  obtain ⟨announced, cycle⟩ := clock_of_fetch mem (fun _ => proceeds _ notes) driven
  refine ⟨{ c.withLevels levels with announced := announced }, cycle, ?_, rfl, ?_⟩
  · exact ⟨h.consistent, h.pending, h.phase, h.page⟩
  · intro low k quiet
    exact quiet.drive low

/-- Fetching an opcode and the page selections before it takes a clock for each byte,
and leaves the instruction decoded. -/
theorem Encodes.runs {σ : Type} {m : Monitor σ} (proceeds : m.Proceeds) {ram : Ram} {page : Byte}
    {pc : Word} {n : Nat} {i : Instruction} (encoded : Encodes ram page pc n i)
    {c : Processor} (mem : Memory) (notes : σ) (h : c.AtOpcode page) (here : c.regs.pc = pc)
    (contents : mem.peek = ram) {lines : List Levels} (length : lines.length = n) :
    ∃ d mem' notes', Board.UnderWay m lines ⟨c, mem, notes⟩ (Board.settled m ⟨d, mem', notes'⟩) ∧
      d.Decoded i { c.regs with pc := pc + UInt16.ofNat n } ∧ mem'.peek = ram ∧
      ((∀ levels ∈ lines, levels = .low) → ∀ k, c.inputs.QuietIn k →
        d.inputs.QuietIn (k - n)) := by
  induction encoded generalizing c mem notes lines with
  | @opcode page pc final =>
    obtain ⟨levels, rfl⟩ := List.length_eq_one_iff.1 length
    obtain ⟨e, cycle, start, regs, quiet⟩ := Board.clock_fetch proceeds h mem notes levels
    rw [here, contents] at cycle
    have decoded := Processor.decoded_carryOut start final
    rw [regs, here] at decoded
    refine ⟨_, mem.counted, _, ⟨levels, [], _, rfl, cycle, Board.Runs.rest _⟩, decoded,
      contents, ?_⟩
    intro low k still
    rw [Processor.inputs_carryOut_fetchOpcode]
    exact (quiet (low levels List.mem_cons_self) k still).cycle
  | @select page selected pc n i selects more ih =>
    obtain ⟨levels, rest, rfl⟩ := List.exists_cons_of_length_eq_add_one length
    obtain ⟨e, cycle, start, regs, quiet⟩ := Board.clock_fetch proceeds h mem notes levels
    rw [here, contents] at cycle
    obtain ⟨next, moved⟩ := Processor.atOpcode_carryOut start selects
    rw [Board.settled_of_rest (Processor.move?_of_cycle next.consistent next.pending)] at cycle
    rw [regs, here] at moved
    -- A page is selected now, so that this fetch is not taken for a boundary.
    have busy := next.busy (Instruction.selected_ne_zero selects)
    obtain ⟨d, mem', notes'', ⟨levels', rest', second, rfl, cycle', runs⟩, decoded, same, quiet'⟩ :=
      ih mem.counted (Board.asked m c notes) next (by rw [moved]) contents
        (Nat.succ.inj length)
    refine ⟨d, mem', notes'', ⟨levels, _, _, rfl, cycle,
      Board.Runs.clock busy cycle' runs⟩, ?_, same, ?_⟩
    · rw [moved] at decoded
      have far : pc + 1 + UInt16.ofNat n = pc + UInt16.ofNat (n + 1) := by
        rw [UInt16.ofNat_add, UInt16.add_assoc, UInt16.add_comm 1]
        rfl
      rw [far] at decoded
      exact decoded
    · intro low k still
      rw [Nat.add_comm n 1, ← Nat.sub_sub]
      refine quiet' (fun other mem => low other (List.mem_cons_of_mem levels mem)) (k - 1) ?_
      rw [Processor.inputs_carryOut_fetchOpcode]
      exact (quiet (low levels List.mem_cons_self) k still).cycle

/-! ## The end of an instruction -/

namespace Processor

/-- What is left after an instruction: nothing is pending, and the phase goes on. -/
structure Finished (c : Processor) : Prop where
  consistent : c.schedule.Consistent
  pending : c.schedule.pending = []
  phase : c.phase = .execution
  page : c.page = 0

end Processor

/-- The last stretch of an instruction finishes it. -/
theorem Board.runs_finish {σ : Type} (m : Monitor σ) {c : Processor} (mem : Memory) (notes : σ)
    {ops : List MicroOp} (consistent : c.schedule.Consistent) (pending : c.schedule.pending = ops)
    (straight : Straight c.instruction ops) (phase : c.phase = .execution) (page : c.page = 0)
    {lines : List Levels} (length : lines.length = ops.countP (·.usesBus)) :
    ∃ e mem' notes', Runs m Processor.Busy lines (settled m ⟨c, mem, notes⟩)
        (settled m ⟨e, mem', notes'⟩) ∧
      e.Finished ∧ ((∀ levels ∈ lines, levels = .low) → ∀ k, c.inputs.QuietIn k →
        e.inputs.QuietIn (k - lines.length)) ∧
      seen (e, mem'.peek) = seen (enactAll ops (c, mem.peek)) := by
  have headed := Headed.start mem.peek [] consistent
    (pending.trans (List.append_nil ops).symm) straight
  obtain ⟨e, mem', notes', runs, done, stays⟩ := headed.runs m notes length
  obtain ⟨dry, alike⟩ := done.nothingLeft
  rw [phase] at runs
  refine ⟨e, mem', notes', runs.mono fun _ => Processor.Amid.busy, ?_, stays.quiet, alike.seen⟩
  exact ⟨done.consistent, dry, stays.phase.trans phase, stays.page.trans page⟩

/-- On quiet lines a finished instruction leads straight to the next opcode. -/
theorem Board.settled_boundary {β σ : Type} (m : Monitor σ) {c : Processor} (h : c.Finished)
    (quiet : c.inputs.Quiet) (bus : β) (notes : σ) :
    ∃ d notes', settled m ⟨c, bus, notes⟩ = ⟨d, bus, notes'⟩ ∧ d.AtOpcode 0 ∧
      d.regs = c.regs ∧ d.inputs.Quiet := by
  have active : c.inputs.active = .low := quiet.2.2
  -- The instruction retires, HALT is looked at, and then the interrupts.
  have retire := Processor.move?_of_execution h.consistent h.pending h.phase
  have free := Processor.move?_of_boundary (c := { c with phase := .boundary })
    h.consistent h.pending rfl (by rw [active]; rfl)
  obtain ⟨fetch, pending⟩ := Processor.settle_of_unasked (c := { c with phase := .arbitration })
    h.consistent h.pending rfl (by rw [active]; rfl)
  refine ⟨{ c with phase := .execution, schedule := c.schedule.extend [.cycle .fetchOpcode] },
    m.hear notes (.retired c.regs), ?_, ⟨h.consistent.extend _, pending, rfl, h.page⟩, rfl, quiet⟩
  rw [settled_of_move h.consistent retire]
  change settled m ⟨{ c with phase := .boundary }, bus, m.hear notes (.retired c.regs)⟩ = _
  rw [settled_of_move (c := { c with phase := .boundary }) h.consistent free]
  change settled m ⟨{ c with phase := .arbitration }, bus, m.hear notes (.retired c.regs)⟩ = _
  rw [settled, fetch]
  rfl

/-! ## Steps

The processor acts on its inputs and never drives them. So a step, in which nobody
else drives them either, is a run with the levels it started with. -/

namespace Processor

theorem live_serve {c : Processor} {m : Move} (served : c.serve? = some m) :
    m.next.inputs.live = c.inputs.live := by
  unfold serve? at served
  cases recognised : HardwareInterrupt.recognised c.inputs.active c.regs.cc with
  | none =>
    rw [recognised] at served
    cases served
  | some interrupt =>
    rw [recognised] at served
    cases served
    cases interrupt <;> rfl

theorem live_move {c : Processor} {m : Move} (due : c.move? = some m) :
    m.landed.inputs.live = c.inputs.live := by
  change m.next.inputs.live = c.inputs.live
  unfold move? at due
  split at due
  · cases due
  · next action _ =>
    cases due
    rcases inputs_act { c with schedule := c.schedule.advance } action with same | armed
    · rw [same]
    · rw [armed]
      rfl
  · unfold phaseMove? at due
    split at due
    -- reset
    · cases due
      rfl
    -- resetHold
    · split at due <;> cases due
      rfl
    -- boundary
    · split at due <;> cases due
      rfl
    -- arbitration
    · split at due <;> cases due <;> rfl
    -- execution
    · cases due
      rfl
    -- dispatch
    · cases served : c.serve? with
      | some m' =>
        rw [served] at due
        cases due
        exact live_serve served
      | none =>
        rw [served] at due
        cases due
        rfl
    all_goals cases due

theorem live_settle (c : Processor) : c.settle.state.inputs.live = c.inputs.live :=
  settle_preserves (P := fun d => d.inputs.live = c.inputs.live)
    (fun same due => (live_move due).trans same) rfl

theorem live_prepare (c : Processor) : c.prepare.state.inputs.live = c.inputs.live := by
  rcases prepare_cases c with ⟨_, same⟩ | ⟨m, wake, woken⟩
  · rw [same]
    exact live_settle c
  · obtain ⟨_, _, _, served⟩ := wake?_eq_some wake
    rw [woken]
    exact (live_serve served).trans (live_settle c)

theorem live_ready (c : Processor) : c.ready.inputs.live = c.inputs.live := by
  rw [ready, announce_eq]
  exact live_prepare c

theorem live_complete (c : Processor) (byte : Byte) :
    (c.complete byte).state.inputs.live = c.inputs.live := by
  unfold complete
  split
  · next cycle _ =>
    rw [live_settle]
    rcases inputs_carryOut c cycle byte with same | armed
    · rw [same]
      rfl
    · rw [armed]
      rfl
  · rw [idled_eq]
    rfl

end Processor

namespace Board

variable {β σ : Type} [Bus β] {m : Monitor σ}

theorem live_clock (m : Monitor σ) (b : Board β σ) :
    (clock m b).2.cpu.inputs.live = b.cpu.inputs.live := by
  rcases clock_cases m b with ⟨_, notes, outcome⟩ | ⟨notes, outcome⟩
  · rw [outcome]
    exact Processor.live_ready b.cpu
  · rw [outcome]
    exact (Processor.live_complete _ _).trans (Processor.live_ready b.cpu)

-- In parentheses, as for `runOn_succ`.
theorem stepOn_succ (m : Monitor σ) (done limit : Nat) (b : Board β σ) :
    stepOn m done (limit + 1) b =
      match clock m b with
      | (.held, b) => (⟨done, true⟩, b)
      | (.cycle, b) =>
        if b.cpu.atBoundary || b.cpu.isWaiting then (⟨done + 1, true⟩, b)
        else stepOn m (done + 1) limit b := (rfl)

/-- After the first clock of a step: it ends here, or goes on along the run. -/
theorem Runs.stepOn {lines : List Levels} {b c : Board β σ}
    (runs : Runs m Processor.Busy lines b c) (still : ∀ levels ∈ lines, levels = b.cpu.inputs.live)
    (ends : c.cpu.EndsStep) (done extra : Nat) :
    (if b.cpu.atBoundary || b.cpu.isWaiting then (⟨done, true⟩, b)
      else Board.stepOn m done (lines.length + extra) b) = (⟨done + lines.length, true⟩, c) := by
  induction runs generalizing done with
  | rest b => rw [ends.or_eq_true, if_pos rfl, List.length_nil, Nat.add_zero]
  | @clock levels more b first c busy cycle _ ih =>
    have same := still levels List.mem_cons_self
    rw [same, withLevels_live] at cycle
    have live : first.cpu.inputs.live = b.cpu.inputs.live := by
      have kept := live_clock m b
      rw [cycle] at kept
      exact kept
    have on := ih (fun other mem => (still other (List.mem_cons_of_mem levels mem)).trans live.symm)
      ends (done + 1)
    rw [busy.1, busy.2, Bool.or_self, if_neg (by decide), List.length_cons,
      Nat.add_right_comm, stepOn_succ, cycle]
    dsimp only
    rw [on, Nat.add_right_comm, Nat.add_assoc]

/-- A run to where a step ends, on lines that stay, is what the step does, whatever limit
above its length it is given. -/
theorem UnderWay.stepWithin_of_ends {lines : List Levels} {b c : Board β σ}
    (h : UnderWay m lines b c) (still : ∀ levels ∈ lines, levels = b.cpu.inputs.live)
    (ends : c.cpu.EndsStep) {limit : Nat} (enough : lines.length ≤ limit) :
    Board.stepWithin m limit b = (⟨lines.length, true⟩, c) := by
  obtain ⟨levels, more, first, rfl, cycle, runs⟩ := h
  rw [still levels List.mem_cons_self, withLevels_live] at cycle
  have live : first.cpu.inputs.live = b.cpu.inputs.live := by
    have kept := live_clock m b
    rw [cycle] at kept
    exact kept
  obtain ⟨extra, rfl⟩ := Nat.exists_eq_add_of_le enough
  have on := runs.stepOn (fun other mem =>
    (still other (List.mem_cons_of_mem levels mem)).trans live.symm) ends 1 extra
  rw [Board.stepWithin, List.length_cons, Nat.add_right_comm, stepOn_succ, cycle]
  dsimp only
  rw [Nat.zero_add, on, Nat.add_comm]

/-- In particular a run to a boundary. -/
theorem UnderWay.stepWithin {lines : List Levels} {b c : Board β σ} (h : UnderWay m lines b c)
    (still : ∀ levels ∈ lines, levels = b.cpu.inputs.live) (stops : c.cpu.atBoundary = true)
    {limit : Nat} (enough : lines.length ≤ limit) :
    Board.stepWithin m limit b = (⟨lines.length, true⟩, c) :=
  h.stepWithin_of_ends still (Or.inl stops) enough

end Board

end Sim6809
