/-
Straight stretches: steps that queue nothing and stay in the instruction stream.

A program is executed one bus cycle at a time, with inputs that move, a cycle count
and a cursor into the schedule. Between the few steps that queue others none of this
decides anything: what a straight step does to registers, latches and memory is a
function of registers, latches and memory (`MicroOp.enact`), and a stretch of them is
that function folded over the list (`enactAll`). `core` is the processor without what
such a step does not look at, and `Headed` says that what is left of a stretch leads
to a given end.

One clock keeps a stretch headed (`Headed.clock`), and so does an action between two
clocks (`Headed.act`). A whole stretch is the induction over its list, `Headed.runs`.
Memory enters as the function from addresses to bytes: what it counts is of no
interest to a program.
-/
import Sim6809.Memory
import Sim6809.Proofs.Programs
import Sim6809.Proofs.Reachable

set_option autoImplicit false

namespace Sim6809

/-- Memory as a program sees it. -/
abbrev Ram := Word → Byte

/-- Replaces the byte at an address. -/
def Ram.put (ram : Ram) (address : Word) (value : Byte) : Ram :=
  fun a => if address = a then value else ram a

instance : Bus Ram where
  read := fun ram address => (ram address, ram)
  write := Ram.put

/-- An access to flat memory is the access to its contents. -/
theorem Memory.perform_peek (mem : Memory) (access : Access) :
    (access.perform mem).1 = (access.perform mem.peek).1 ∧
      (access.perform mem).2.peek = (access.perform mem.peek).2 := by
  cases access with
  | read address => exact ⟨rfl, rfl⟩
  | write address value =>
    refine ⟨rfl, ?_⟩
    funext a
    exact peek_poke mem address a value

namespace Processor

/-- The processor without its inputs, its schedule and its count. -/
def core (c : Processor) : Processor :=
  { c with inputs := .released, schedule := .empty, cycles := .zero }

theorem core_absorb (c : Processor) (byte : Byte) {cycle : BusCycle}
    (h : cycle ≠ .fetchOpcode) :
    (c.core.absorb byte cycle).next.core = (c.absorb byte cycle).next.core := by
  cases cycle with
  | fetchOpcode => exact absurd rfl h
  | _ => rfl

theorem core_effect (c : Processor) : c.core.effect.core = c.effect.core := by
  obtain ⟨regs, inputs, phase, schedule, ⟨op, mode⟩, page, postbyte, ea, data, result, announced,
    cycles⟩ := c
  dsimp only [core, effect]
  split <;> try rfl
  all_goals split <;> rfl

theorem core_act (c : Processor) (action : Action) :
    (c.core.act action).next.core = (c.act action).next.core := by
  cases action with
  | operate => exact core_effect c
  | _ => rfl

theorem access_core (c : Processor) (cycle : BusCycle) : cycle.access c.core = cycle.access c := by
  cases cycle <;> rfl

/-- NMI may get armed, by a load of the stack pointer; a byte does nothing else to the
inputs. -/
theorem inputs_absorb (c : Processor) (byte : Byte) (cycle : BusCycle) :
    (c.absorb byte cycle).next.inputs = c.inputs ∨
      (c.absorb byte cycle).next.inputs = c.inputs.armNmi := by
  cases cycle with
  | fetchOpcode =>
    rw [absorb, absorbOpcode]
    split <;> exact Or.inl rfl
  | pull stack part =>
    by_cases s : part = .high .s ∨ part = .low .s
    · exact Or.inr (if_pos s)
    · exact Or.inl (if_neg s)
  | _ => exact Or.inl rfl

theorem inputs_carryOut (c : Processor) (cycle : BusCycle) (byte : Byte) :
    (c.carryOut cycle byte).inputs = c.inputs.cycle ∨
      (c.carryOut cycle byte).inputs = c.inputs.cycle.armNmi :=
  inputs_absorb { c.clocked with schedule := c.schedule.advance } byte cycle

theorem inputs_loadRegister (c : Processor) (register : WordRegister) (value : Word) :
    (c.loadRegister register value).inputs = c.inputs ∨
      (c.loadRegister register value).inputs = c.inputs.armNmi := by
  by_cases s : register = .s
  · exact Or.inr (if_pos s)
  · exact Or.inl (if_neg s)

theorem inputs_transfer (c : Processor) (code : Byte) (value : Word) :
    (c.transfer code value).inputs = c.inputs ∨
      (c.transfer code value).inputs = c.inputs.armNmi := by
  by_cases s : Transferable.ofCode code = some (.word .s)
  · exact Or.inr (if_pos s)
  · exact Or.inl (if_neg s)

theorem inputs_effect (c : Processor) :
    c.effect.inputs = c.inputs ∨ c.effect.inputs = c.inputs.armNmi := by
  unfold effect
  dsimp only
  split
  all_goals try exact Or.inl rfl
  -- word operations
  · split
    · exact inputs_loadRegister _ _ _
    · exact Or.inl rfl
  -- word loads
  · exact inputs_loadRegister _ _ _
  -- branches
  · split <;> exact Or.inl rfl
  · split <;> exact Or.inl rfl
  -- address loads
  · split <;> exact inputs_loadRegister _ _ _
  -- an exchange is two transfers
  · have second := inputs_transfer
      (c.transfer (Word.low c.data >>> 4) (c.regs.readCode (Word.low c.data)))
      (Word.low c.data) (c.regs.readCode (Word.low c.data >>> 4))
    rcases inputs_transfer c (Word.low c.data >>> 4) (c.regs.readCode (Word.low c.data)) with
      same | armed
    · rw [same] at second
      exact second
    · rw [armed] at second
      rcases second with same | again
      · exact Or.inr same
      · exact Or.inr again
  · exact inputs_transfer _ _ _

theorem inputs_act (c : Processor) (action : Action) :
    (c.act action).next.inputs = c.inputs ∨ (c.act action).next.inputs = c.inputs.armNmi := by
  cases action with
  | operate => exact inputs_effect c
  | _ => exact Or.inl rfl

end Processor

/-! ## Straight steps -/

/-- A step that queues nothing and does not leave the instruction stream. -/
def MicroOp.straight (instruction : Instruction) : MicroOp → Bool
  | .action (.enter _) => false
  | op => !op.queues instruction

/-- All steps are straight. -/
def Straight (instruction : Instruction) (ops : List MicroOp) : Prop :=
  ∀ op ∈ ops, op.straight instruction = true

instance (instruction : Instruction) (ops : List MicroOp) :
    Decidable (Straight instruction ops) :=
  inferInstanceAs (Decidable (∀ op ∈ ops, op.straight instruction = true))

theorem Straight.append {instruction : Instruction} {front back : List MicroOp}
    (h : Straight instruction front) (h' : Straight instruction back) :
    Straight instruction (front ++ back) := by
  intro op mem
  rcases List.mem_append.1 mem with mem | mem
  · exact h op mem
  · exact h' op mem

theorem Straight.tail {instruction : Instruction} {op : MicroOp} {ops : List MicroOp}
    (h : Straight instruction (op :: ops)) : Straight instruction ops :=
  fun other mem => h other (List.mem_cons_of_mem op mem)

theorem Straight.head {instruction : Instruction} {op : MicroOp} {ops : List MicroOp}
    (h : Straight instruction (op :: ops)) : op.straight instruction = true :=
  h op List.mem_cons_self

namespace Processor

theorem ne_fetchOpcode_of_straight {instruction : Instruction} {cycle : BusCycle}
    (h : (MicroOp.cycle cycle).straight instruction = true) : cycle ≠ .fetchOpcode := by
  rintro rfl
  cases h

theorem queued_absorb {c : Processor} {cycle : BusCycle}
    (h : (MicroOp.cycle cycle).straight c.instruction = true) (byte : Byte) :
    (c.absorb byte cycle).queued = [] := by
  cases cycle with
  | fetchOpcode | fetchPostbyte => cases h
  | _ => rfl

theorem queued_act {c : Processor} {action : Action}
    (h : (MicroOp.action action).straight c.instruction = true) :
    (c.act action).queued = [] := by
  cases action with
  | operate =>
    change c.growth = []
    have plain : (MicroOp.action .operate).queues c.instruction = false := by
      simpa only [MicroOp.straight, Bool.not_eq_true'] using h
    cases op : c.instruction.op with
    | longBranch _ | push _ | pull _ | rti =>
      rw [MicroOp.queues, op] at plain
      cases plain
    | _ => rw [growth, op]
  | vector _ | enter _ => cases h
  | _ => rfl

theorem quiet_act {c : Processor} {action : Action}
    (h : (MicroOp.action action).straight c.instruction = true) :
    (c.act action).reports = [] ∧ (c.act action).next.phase = c.phase := by
  cases action with
  | operate =>
    refine ⟨rfl, ?_⟩
    change c.effect.phase = c.phase
    rw [effect_eq]
  | vector _ | enter _ => cases h
  | _ => exact ⟨rfl, rfl⟩

end Processor

/-! ## What a straight step does -/

/-- A step's effect on a processor and its memory. -/
def MicroOp.enact : MicroOp → Processor × Ram → Processor × Ram
  | .cycle due, (c, ram) =>
    let (byte, ram) := (due.access c).perform ram
    ((c.absorb byte due).next, ram)
  | .action due, (c, ram) => ((c.act due).next, ram)

/-- The effect of a list of steps. -/
def enactAll : List MicroOp → Processor × Ram → Processor × Ram
  | [], sight => sight
  | op :: ops, sight => enactAll ops (op.enact sight)

theorem enactAll_append (front back : List MicroOp) (sight : Processor × Ram) :
    enactAll (front ++ back) sight = enactAll back (enactAll front sight) := by
  induction front generalizing sight with
  | nil => rfl
  | cons op front ih => exact ih (op.enact sight)

/-- What a program sees of a state. -/
def seen (sight : Processor × Ram) : RegisterFile × Ram := (sight.1.regs, sight.2)

/-- No straight step can tell the two apart. -/
structure Alike (sight sight' : Processor × Ram) : Prop where
  core : sight.1.core = sight'.1.core
  ram : sight.2 = sight'.2

namespace Alike

variable {sight sight' sight'' : Processor × Ram}

theorem refl (sight : Processor × Ram) : Alike sight sight := ⟨rfl, rfl⟩

theorem trans (h : Alike sight sight') (h' : Alike sight' sight'') : Alike sight sight'' :=
  ⟨h.core.trans h'.core, h.ram.trans h'.ram⟩

theorem regs (h : Alike sight sight') : sight.1.regs = sight'.1.regs := by
  have same : sight.1.core.regs = sight'.1.core.regs := congrArg Processor.regs h.core
  exact same

theorem seen (h : Alike sight sight') : Sim6809.seen sight = Sim6809.seen sight' :=
  Prod.ext h.regs h.ram

theorem latches (h : Alike sight sight') :
    sight.1.instruction = sight'.1.instruction ∧ sight.1.postbyte = sight'.1.postbyte := by
  have instruction : sight.1.core.instruction = sight'.1.core.instruction :=
    congrArg Processor.instruction h.core
  have postbyte : sight.1.core.postbyte = sight'.1.core.postbyte :=
    congrArg Processor.postbyte h.core
  exact ⟨instruction, postbyte⟩

theorem access (h : Alike sight sight') (cycle : BusCycle) :
    cycle.access sight.1 = cycle.access sight'.1 := by
  rw [← Processor.access_core, h.core, Processor.access_core]

/-- Nor can any other step that fetches no opcode. -/
theorem enact_of_ne {op : MicroOp} (h : Alike sight sight') (ne : op ≠ .cycle .fetchOpcode) :
    Alike (op.enact sight) (op.enact sight') := by
  have accesses := h.access
  obtain ⟨c, ram⟩ := sight
  obtain ⟨d, ram'⟩ := sight'
  obtain ⟨core, same⟩ := h
  cases same
  cases op with
  | cycle cycle =>
    have other : cycle ≠ .fetchOpcode := fun fetch => ne (congrArg MicroOp.cycle fetch)
    have access : cycle.access c = cycle.access d := accesses cycle
    refine ⟨?_, ?_⟩
    · change (c.absorb ((cycle.access c).perform ram).1 cycle).next.core =
        (d.absorb ((cycle.access d).perform ram).1 cycle).next.core
      rw [access, ← Processor.core_absorb c _ other, core, Processor.core_absorb d _ other]
    · change ((cycle.access c).perform ram).2 = ((cycle.access d).perform ram).2
      rw [access]
  | action action =>
    refine ⟨?_, rfl⟩
    change (c.act action).next.core = (d.act action).next.core
    rw [← Processor.core_act c, core, Processor.core_act]

theorem enactAll_of_ne {ops : List MicroOp} (h : Alike sight sight')
    (ne : .cycle .fetchOpcode ∉ ops) :
    Alike (enactAll ops sight) (Sim6809.enactAll ops sight') := by
  induction ops generalizing sight sight' with
  | nil => exact h
  | cons op ops ih =>
    obtain ⟨other, rest⟩ := not_or.1 (mt List.mem_cons.2 ne)
    exact ih (h.enact_of_ne (Ne.symm other)) rest

theorem enactAll {instruction : Instruction} {ops : List MicroOp} (h : Alike sight sight')
    (straight : Straight instruction ops) :
    Alike (enactAll ops sight) (Sim6809.enactAll ops sight') :=
  h.enactAll_of_ne fun fetch => Processor.ne_fetchOpcode_of_straight (straight _ fetch) rfl

end Alike

namespace Processor

/-- What a byte leads to is what its cycle does, whatever it queues. -/
theorem alike_carryOut (c : Processor) (ram : Ram) {cycle : BusCycle} (ne : cycle ≠ .fetchOpcode) :
    Alike (c.carryOut cycle ((cycle.access c).perform ram).1, ((cycle.access c).perform ram).2)
      ((MicroOp.cycle cycle).enact (c, ram)) := by
  refine ⟨?_, rfl⟩
  change (absorb _ _ cycle).next.core = (c.absorb _ cycle).next.core
  rw [← core_absorb _ _ ne, ← core_absorb c _ ne]
  rfl

theorem alike_act (c : Processor) (ram : Ram) (action : Action) :
    Alike (({ c with schedule := c.schedule.advance }.act action).landed, ram)
      ((MicroOp.action action).enact (c, ram)) := by
  refine ⟨?_, rfl⟩
  change (act _ action).next.core = (c.act action).next.core
  rw [← core_act, ← core_act c]
  rfl

end Processor

/-! ## Boards between two clocks -/

namespace Inputs

/-- Every line is low, and so is every stage behind it. -/
def Quiet (i : Inputs) : Prop := i.live = .low ∧ i.latched = .low ∧ i.active = .low

instance (i : Inputs) : Decidable i.Quiet := inferInstanceAs (Decidable (_ ∧ _))

/-- Quiet after so many cycles on low lines. Levels pass on from stage to stage, but an
edge of NMI is kept until it is served. -/
def QuietIn (i : Inputs) : Nat → Prop
  | 0 => i.Quiet
  | 1 => i.live = .low ∧ i.latched = .low
  | _ + 2 => i.live = .low ∧ i.latched.nmi = false

namespace QuietIn

variable {i : Inputs} {k : Nat}

theorem armNmi (h : i.QuietIn k) : i.armNmi.QuietIn k := by
  rcases k with _ | _ | k <;> exact h

theorem drive (h : i.QuietIn k) {levels : Levels} (low : levels = .low) :
    QuietIn { i with live := levels } k := by
  rcases k with _ | _ | k <;> exact ⟨low, h.2⟩

theorem cycle (h : i.QuietIn k) : i.cycle.QuietIn (k - 1) := by
  obtain ⟨live, latched, active, armed, previous⟩ := i
  rcases k with _ | _ | k
  · obtain ⟨rfl, rfl, rfl⟩ : live = .low ∧ latched = .low ∧ active = .low := h
    exact ⟨rfl, rfl, rfl⟩
  · obtain ⟨rfl, rfl⟩ : live = .low ∧ latched = .low := h
    exact ⟨rfl, rfl, rfl⟩
  · obtain ⟨rfl, kept⟩ : live = .low ∧ latched.nmi = false := h
    have sampled : (Inputs.cycle ⟨.low, latched, active, armed, previous⟩).latched = .low := by
      simp [Inputs.cycle, activate, latch, Levels.low, kept]
    rcases k with _ | k
    · exact ⟨rfl, sampled⟩
    · exact ⟨rfl, congrArg Levels.nmi sampled⟩

end QuietIn

end Inputs

namespace Board

variable {β σ : Type}

/-- The board once every move that is due has been made, and reported. -/
def settled (m : Monitor σ) (b : Board β σ) : Board β σ :=
  ⟨b.cpu.settle.state, b.bus, m.hearAll b.notes b.cpu.settle.reports⟩

theorem settled_of_move {m : Monitor σ} {c : Processor} {move : Move} {bus : β} {notes : σ}
    (h : c.schedule.Consistent) (due : c.move? = some move) :
    settled m ⟨c, bus, notes⟩ = settled m ⟨move.landed, bus, m.hearAll notes move.reports⟩ := by
  simp only [settled, Processor.settle_of_move h due, Monitor.hearAll, List.foldl_append]

theorem settled_of_rest {m : Monitor σ} {c : Processor} {bus : β} {notes : σ}
    (still : c.move? = none) : settled m ⟨c, bus, notes⟩ = ⟨c, bus, notes⟩ := by
  simp only [settled, Processor.settle_of_rest still, Monitor.hearAll, List.foldl_nil]

/-- What the monitor notes of an access. -/
def watched (m : Monitor σ) (cycle : BusCycle) (c : Processor) (byte : Byte) (notes : σ) : σ :=
  if cycle.isOperand then m.watch (cycle.access c) byte notes else notes

/-- A clock with a bus cycle pending carries it out and settles. -/
theorem clock_of_cycle [Bus β] (m : Monitor σ) {c : Processor} (bus : β) (notes : σ)
    {cycle : BusCycle} {rest : List MicroOp} (h : c.schedule.Consistent)
    (pending : c.schedule.pending = .cycle cycle :: rest) (ne : cycle ≠ .fetchOpcode) :
    clock m ⟨c, bus, notes⟩ =
      (.cycle, settled m ⟨c.carryOut cycle ((cycle.access c).perform bus).1,
        ((cycle.access c).perform bus).2,
        watched m cycle c ((cycle.access c).perform bus).1 notes⟩) := by
  have due := Processor.due?_of_cycle h pending
  have asks : c.asksFirst = false := by
    simp [Processor.asksFirst, due, ne]
  simp only [clock, Processor.prepare_of_cycle h pending, asks, Monitor.hearAll, List.foldl_nil]
  simp only [exchange, Processor.access, due, Processor.complete, Processor.operandDue, settled,
    watched, Monitor.hearAll]
  rfl

/-- What prepares a clock may be done, and reported, ahead of it. -/
theorem clock_prepared [Bus β] (m : Monitor σ) {c : Processor} (bus : β) (notes : σ)
    (h : c.schedule.Consistent) :
    clock m ⟨c.prepare.state, bus, m.hearAll notes c.prepare.reports⟩ =
      clock m ⟨c, bus, notes⟩ := by
  simp only [clock, Processor.prepare_prepare h, Monitor.hearAll, List.foldl_nil]

/-- The clock of a processor with nothing to do is an idle read. -/
theorem clock_of_dry [Bus β] (m : Monitor σ) {b : Board β σ} (h : b.cpu.schedule.Consistent)
    (dry : b.cpu.prepare.state.schedule.pending = []) :
    b.cpu.ready.access = .idle ∧ ∃ notes, clock m b =
      (.cycle, ⟨b.cpu.prepare.state.idled.state, (Access.idle.perform b.bus).2, notes⟩) := by
  have due := Processor.due?_of_dry (Processor.consistent_prepare h) dry
  have unasked : b.cpu.prepare.state.asksFirst = false := by
    simp [Processor.asksFirst, due]
  have ready : b.cpu.ready = b.cpu.prepare.state := Processor.announce_of_unasked unasked
  have access : b.cpu.ready.access = .idle := by
    rw [ready, Processor.access, due]
  refine ⟨access, ?_⟩
  rcases clock_cases m b with ⟨asks, _⟩ | ⟨notes, clocked⟩
  · rw [unasked] at asks
    cases asks
  · refine ⟨notes, ?_⟩
    rw [clocked, access, ready, Processor.complete, due]

end Board

/-! ## Waits

With nothing pending, a phase that does not go on by itself is left by an input only. -/

/-- Nothing is pending in this phase, with these registers. -/
structure Processor.Dry (phase : Phase) (r : RegisterFile) (c : Processor) : Prop where
  consistent : c.schedule.Consistent
  pending : c.schedule.pending = []
  phase : c.phase = phase
  page : c.page = 0
  regs : c.regs = r

namespace Processor.Dry

variable {phase : Phase} {r : RegisterFile} {c : Processor}

theorem withLevels (h : Dry phase r c) (levels : Levels) : Dry phase r (c.withLevels levels) :=
  ⟨h.consistent, h.pending, h.phase, h.page, h.regs⟩

theorem idled (h : Dry phase r c) : Dry c.idled.state.phase r c.idled.state := by
  rw [idled_eq]
  exact ⟨h.consistent, h.pending, rfl, h.page, h.regs⟩

/-- The waits, and the lock, are at the end of what leads on. -/
theorem move? (h : Dry phase r c) (last : phase.rank = 0) : c.move? = none := by
  rw [move?_of_dry h.consistent h.pending, phaseMove?, h.phase]
  cases phase with
  | cwaiWait | syncWait | syncHold | locked => rfl
  | _ => cases last

/-- A clock in which nothing wakes it is an idle read. -/
theorem clock {β σ : Type} [Bus β] (m : Monitor σ) {b : Board β σ} (h : Dry phase r b.cpu)
    (last : phase.rank = 0) (asleep : b.cpu.wake? = none) :
    b.cpu.ready.access = .idle ∧ ∃ notes, Board.clock m b =
      (.cycle, ⟨b.cpu.idled.state, (Access.idle.perform b.bus).2, notes⟩) := by
  have prepared := prepare_of_rest (h.move? last) asleep
  have clocked := Board.clock_of_dry m h.consistent (by rw [prepared]; exact h.pending)
  rw [prepared] at clocked
  exact clocked

/-- The last step of an instruction that leaves for a wait. -/
theorem enter (phase : Phase) (consistent : c.schedule.Consistent) (page : c.page = 0)
    (pending : c.schedule.pending = [.action (.enter phase)]) (regs : c.regs = r) :
    c.move? = some ({ c with schedule := c.schedule.advance }.enter phase) ∧
      Dry phase r ({ c with schedule := c.schedule.advance }.enter phase).landed := by
  have left : c.schedule.advance.pending = [] := by
    rw [Schedule.pending_advance consistent, pending, List.tail_cons]
  exact ⟨move?_of_action consistent pending, consistent.advance, left, rfl, page, regs⟩

end Processor.Dry

namespace Board

variable {β σ : Type}

/-- Clocks, one for each entry and with the inputs at its levels, each from a board
whose processor satisfies `Mid`. -/
inductive Runs [Bus β] (m : Monitor σ) (Mid : Processor → Prop) :
    List Levels → Board β σ → Board β σ → Prop
  | rest (b : Board β σ) : Runs m Mid [] b b
  | clock {levels : Levels} {more : List Levels} {b c d : Board β σ} (mid : Mid b.cpu)
      (cycle : Board.clock m (b.withLevels levels) = (.cycle, c)) (on : Runs m Mid more c d) :
      Runs m Mid (levels :: more) b d

namespace Runs

variable [Bus β] {m : Monitor σ} {Mid : Processor → Prop} {lines : List Levels}
  {b c d : Board β σ}

theorem trans {more : List Levels} (first : Runs m Mid lines b c) (second : Runs m Mid more c d) :
    Runs m Mid (lines ++ more) b d := by
  induction first with
  | rest => exact second
  | clock mid cycle _ ih => exact .clock mid cycle (ih second)

theorem mono {Mid' : Processor → Prop} (h : ∀ c, Mid c → Mid' c) (runs : Runs m Mid lines b c) :
    Runs m Mid' lines b c := by
  induction runs with
  | rest b => exact .rest b
  | clock mid cycle _ ih => exact .clock (h _ mid) cycle ih

theorem clocks_eq (runs : Runs m Mid lines b c) : clocks m lines b = c := by
  induction runs with
  | rest => rfl
  | clock _ cycle _ ih =>
    rw [clocks, tick, cycle]
    exact ih

end Runs

end Board

/-- The lines of a run can be cut where its parts meet. -/
theorem exists_append_of_length {α : Type} {l : List α} {n k : Nat} (length : l.length = n + k) :
    ∃ front back, l = front ++ back ∧ front.length = n ∧ back.length = k := by
  refine ⟨l.take n, l.drop n, (List.take_append_drop n l).symm, ?_, ?_⟩
  · rw [List.length_take]
    omega
  · rw [List.length_drop]
    omega

/-- In the middle of a stretch: a bus cycle comes next, and not an opcode fetch. -/
def Processor.Amid (phase : Phase) (c : Processor) : Prop :=
  c.phase = phase ∧
    ∃ cycle, c.schedule.current = some (.cycle cycle) ∧ cycle ≠ .fetchOpcode

/-- Where a processor stays while only straight steps are made. On low lines its inputs
come to rest. -/
structure Processor.Stays (lines : List Levels) (c d : Processor) : Prop where
  instruction : d.instruction = c.instruction
  phase : d.phase = c.phase
  page : d.page = c.page
  quiet : (∀ levels ∈ lines, levels = .low) → ∀ k, c.inputs.QuietIn k →
    d.inputs.QuietIn (k - lines.length)

theorem Processor.Stays.refl (c : Processor) : c.Stays [] c := ⟨rfl, rfl, rfl, fun _ _ h => h⟩

theorem Processor.Stays.trans {lines more : List Levels} {c d e : Processor}
    (h : c.Stays lines d) (h' : d.Stays more e) : c.Stays (lines ++ more) e where
  instruction := h'.instruction.trans h.instruction
  phase := h'.phase.trans h.phase
  page := h'.page.trans h.page
  quiet := by
    intro low k quiet
    have first := h.quiet (fun levels mem => low levels (List.mem_append_left more mem)) k quiet
    rw [List.length_append, ← Nat.sub_sub]
    exact h'.quiet (fun levels mem => low levels (List.mem_append_right lines mem)) _ first

/-! ## Stretches -/

/-- Of a stretch that ends in `goal` the steps `ops` are left, and `back` follows. -/
structure Headed (goal : Processor × Ram) (ops back : List MicroOp) (c : Processor) (ram : Ram) :
    Prop where
  consistent : c.schedule.Consistent
  pending : c.schedule.pending = ops ++ back
  straight : Straight c.instruction ops
  alike : Alike (enactAll ops (c, ram)) goal

namespace Headed

variable {goal : Processor × Ram} {ops back : List MicroOp} {c : Processor} {ram : Ram}

/-- A stretch ends where its steps lead. -/
theorem start (ram : Ram) (back : List MicroOp) (consistent : c.schedule.Consistent)
    (pending : c.schedule.pending = ops ++ back) (straight : Straight c.instruction ops) :
    Headed (enactAll ops (c, ram)) ops back c ram :=
  ⟨consistent, pending, straight, .refl _⟩

/-- The inputs have no part in it. -/
theorem withLevels (h : Headed goal ops back c ram) (levels : Levels) :
    Headed goal ops back (c.withLevels levels) ram := by
  refine ⟨h.consistent, h.pending, h.straight, ?_⟩
  have same : Alike (c.withLevels levels, ram) (c, ram) := ⟨rfl, rfl⟩
  exact (same.enactAll h.straight).trans h.alike

/-- A bus cycle takes the stretch one step on. -/
theorem carryOut {cycle : BusCycle} (h : Headed goal (.cycle cycle :: ops) back c ram) :
    Headed goal ops back (c.carryOut cycle ((cycle.access c).perform ram).1)
      ((cycle.access c).perform ram).2 := by
  have straight := h.straight.head
  have ne := Processor.ne_fetchOpcode_of_straight straight
  have advanced := h.consistent.advance
  have frame := Processor.absorb_eq_of_ne_fetchOpcode
    { c.clocked with schedule := c.schedule.advance } ((cycle.access c).perform ram).1 ne
  have quiet : (Processor.absorb { c.clocked with schedule := c.schedule.advance }
      ((cycle.access c).perform ram).1 cycle).queued = [] :=
    Processor.queued_absorb (c := { c.clocked with schedule := c.schedule.advance }) straight _
  have landed : c.carryOut cycle ((cycle.access c).perform ram).1 =
      (Processor.absorb { c.clocked with schedule := c.schedule.advance }
        ((cycle.access c).perform ram).1 cycle).next := by
    rw [Processor.carryOut, Move.landed, quiet]
    rfl
  rw [landed]
  refine ⟨?_, ?_, ?_, ?_⟩
  · rw [frame]
    exact advanced
  · rw [frame]
    change c.schedule.advance.pending = _
    rw [Schedule.pending_advance h.consistent, h.pending, List.cons_append, List.tail_cons]
  · rw [frame]
    exact h.straight.tail
  · have same := c.alike_carryOut ram ne
    rw [landed] at same
    exact (same.enactAll h.straight.tail).trans h.alike

/-- So does an action, between two clocks. -/
theorem act {action : Action} (h : Headed goal (.action action :: ops) back c ram) :
    Headed goal ops back ({ c with schedule := c.schedule.advance }.act action).landed ram := by
  have straight := h.straight.head
  have frame := Processor.act_eq { c with schedule := c.schedule.advance } action
  have quiet : (Processor.act { c with schedule := c.schedule.advance } action).queued = [] :=
    Processor.queued_act (c := { c with schedule := c.schedule.advance }) straight
  have landed : (Processor.act { c with schedule := c.schedule.advance } action).landed =
      (Processor.act { c with schedule := c.schedule.advance } action).next := by
    rw [Move.landed, quiet]
    rfl
  rw [landed]
  refine ⟨?_, ?_, ?_, ?_⟩
  · rw [frame]
    exact h.consistent.advance
  · rw [frame]
    change c.schedule.advance.pending = _
    rw [Schedule.pending_advance h.consistent, h.pending, List.cons_append, List.tail_cons]
  · rw [frame]
    exact h.straight.tail
  · have same := c.alike_act ram action
    rw [landed] at same
    exact (same.enactAll h.straight.tail).trans h.alike

theorem nothingLeft (h : Headed goal [] back c ram) :
    c.schedule.pending = back ∧ Alike (c, ram) goal :=
  ⟨h.pending, h.alike⟩

variable {σ : Type} {mem : Memory}

/-- One clock of a stretch. -/
theorem clock {cycle : BusCycle} (h : Headed goal (.cycle cycle :: ops) back c mem.peek)
    (m : Monitor σ) (notes : σ) (levels : Levels) :
    ∃ d mem' byte, Board.clock m (Board.withLevels levels ⟨c, mem, notes⟩) =
        (.cycle, Board.settled m ⟨d, mem', Board.watched m cycle c byte notes⟩) ∧
      Headed goal ops back d mem'.peek ∧ c.Stays [levels] d ∧
      d.inputs.active = c.inputs.latched := by
  have driven := h.withLevels levels
  have ne := Processor.ne_fetchOpcode_of_straight h.straight.head
  have access : cycle.access (c.withLevels levels) = cycle.access c := by
    rw [← Processor.access_core, ← Processor.access_core c]
    rfl
  obtain ⟨byte, contents⟩ := mem.perform_peek (cycle.access (c.withLevels levels))
  refine ⟨(c.withLevels levels).carryOut cycle
      ((cycle.access (c.withLevels levels)).perform mem).1,
    ((cycle.access (c.withLevels levels)).perform mem).2,
    ((cycle.access (c.withLevels levels)).perform mem).1, ?_, ?_, ⟨?_, ?_, ?_, ?_⟩, ?_⟩
  · have clocked := Board.clock_of_cycle m mem notes
      driven.consistent driven.pending ne
    rw [Board.watched, access, ← Board.watched] at clocked
    rw [access]
    exact clocked
  · have on := driven.carryOut
    rw [← byte, ← contents] at on
    exact on
  · change (Processor.absorb _ _ cycle).next.instruction = c.instruction
    rw [Processor.absorb_eq_of_ne_fetchOpcode _ _ ne]
    rfl
  · change (Processor.absorb _ _ cycle).next.phase = c.phase
    rw [Processor.absorb_eq_of_ne_fetchOpcode _ _ ne]
    rfl
  · change (Processor.absorb _ _ cycle).next.page = c.page
    rw [Processor.absorb_eq_of_ne_fetchOpcode _ _ ne]
    rfl
  · intro low k quiet
    have cycled := (quiet.drive (low levels List.mem_cons_self)).cycle
    change Inputs.QuietIn _ (k - 1)
    rcases Processor.inputs_carryOut (c.withLevels levels) cycle
        ((cycle.access (c.withLevels levels)).perform mem).1 with same | armed
    · rw [same]
      exact cycled
    · rw [armed]
      exact cycled.armNmi
  · rcases Processor.inputs_carryOut (c.withLevels levels) cycle
        ((cycle.access (c.withLevels levels)).perform mem).1 with same | armed
    · rw [same]
      rfl
    · rw [armed]
      rfl

/-- An action of a stretch, which is done before the board is seen. -/
theorem settled {action : Action} (h : Headed goal (.action action :: ops) back c mem.peek)
    (m : Monitor σ) (notes : σ) :
    ∃ d, Board.settled m ⟨c, mem, notes⟩ = Board.settled m ⟨d, mem, notes⟩ ∧
      Headed goal ops back d mem.peek ∧ c.Stays [] d := by
  have due := Processor.move?_of_action h.consistent h.pending
  have straight : (MicroOp.action action).straight c.instruction = true := h.straight.head
  obtain ⟨reports, phase⟩ := Processor.quiet_act
    (c := { c with schedule := c.schedule.advance }) straight
  refine ⟨_, ?_, h.act, ?_, phase, ?_, ?_⟩
  · rw [Board.settled_of_move h.consistent due, reports]
    rfl
  · change (Processor.act _ action).next.instruction = c.instruction
    rw [Processor.act_eq]
  · change (Processor.act _ action).next.page = c.page
    rw [Processor.act_eq]
  · intro _ k quiet
    rcases Processor.inputs_act { c with schedule := c.schedule.advance } action with same | armed
    · change (Processor.act _ action).next.inputs.QuietIn k
      rw [same]
      exact quiet
    · change (Processor.act _ action).next.inputs.QuietIn k
      rw [armed]
      exact quiet.armNmi

/-- A whole stretch: as many clocks as it has bus cycles lead to its end. -/
theorem runs {lines : List Levels} (h : Headed goal ops back c mem.peek) (m : Monitor σ)
    (notes : σ) (length : lines.length = ops.countP (·.usesBus)) :
    ∃ d mem' notes', Board.Runs m (Processor.Amid c.phase) lines
        (Board.settled m ⟨c, mem, notes⟩) (Board.settled m ⟨d, mem', notes'⟩) ∧
      Headed goal [] back d mem'.peek ∧ c.Stays lines d := by
  induction ops generalizing c mem notes lines with
  | nil =>
    obtain rfl := List.length_eq_zero_iff.1 length
    exact ⟨c, mem, notes, .rest _, h, .refl c⟩
  | cons op ops ih =>
    cases op with
    | action action =>
      obtain ⟨d, same, on, stays⟩ := h.settled m notes
      obtain ⟨e, mem', notes', runs, done, stays'⟩ := ih on notes length
      rw [stays.phase] at runs
      rw [same]
      exact ⟨e, mem', notes', runs, done, stays.trans stays'⟩
    | cycle cycle =>
      rw [List.countP_cons_of_pos rfl] at length
      obtain ⟨levels, more, rfl⟩ := List.exists_cons_of_length_eq_add_one length
      have still := Processor.move?_of_cycle h.consistent h.pending
      have amid : Processor.Amid c.phase c := by
        refine ⟨rfl, cycle, ?_, Processor.ne_fetchOpcode_of_straight h.straight.head⟩
        rw [Schedule.current_eq_head? h.consistent, h.pending]
        rfl
      obtain ⟨d, mem', byte, clocked, on, stays, _⟩ := h.clock m notes levels
      obtain ⟨e, mem'', notes'', runs, done, stays'⟩ :=
        ih on (Board.watched m cycle c byte notes) (Nat.succ.inj length)
      rw [stays.phase] at runs
      rw [Board.settled_of_rest still]
      exact ⟨e, mem'', notes'', .clock amid clocked runs, done, stays.trans stays'⟩

/-- The same up to any point of a stretch. -/
theorem runs_front {lines : List Levels} {front rest : List MicroOp}
    (h : Headed goal (front ++ rest) back c mem.peek) (m : Monitor σ) (notes : σ)
    (length : lines.length = front.countP (·.usesBus)) :
    ∃ d mem' notes', Board.Runs m (Processor.Amid c.phase) lines
        (Board.settled m ⟨c, mem, notes⟩) (Board.settled m ⟨d, mem', notes'⟩) ∧
      Headed goal rest back d mem'.peek ∧ c.Stays lines d := by
  have pending : c.schedule.pending = front ++ (rest ++ back) := by
    rw [h.pending, List.append_assoc]
  have straight : Straight c.instruction front := fun op mem =>
    h.straight op (List.mem_append_left rest mem)
  have onward : Straight c.instruction rest := fun op mem =>
    h.straight op (List.mem_append_right front mem)
  obtain ⟨d, mem', notes', runs, done, stays⟩ :=
    (Headed.start mem.peek _ h.consistent pending straight).runs m notes length
  obtain ⟨left, alike⟩ := done.nothingLeft
  have whole := h.alike
  rw [enactAll_append] at whole
  refine ⟨d, mem', notes', runs, ⟨done.consistent, left, ?_, ?_⟩, stays⟩
  · rw [stays.instruction]
    exact onward
  · exact (alike.enactAll onward).trans whole

end Headed

end Sim6809
