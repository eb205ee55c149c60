/-
Hook counts: the hooks are called once for every instruction, and never otherwise.

The hooks themselves do the counting (`Monitor.counting`): whatever is installed is called
as before, and a tally is kept of the calls. It always agrees with the ledger of the
processor (`Board.Tallies`), because the instruction hook is called with the announcement
and the other hook with the retirement.

Two things here are more general than the counts. A monitor may keep whatever notes it likes
besides those of another, and as long as it answers like it the run is the same
(`Monitor.Extends`). And what is kept by everything that happens, with the opcodes counted,
is kept by a clock, which makes moves, announces and makes its access, and so by a run
(`Board.Keeps`).
-/
import Sim6809.Proofs.Ledger

set_option autoImplicit false

namespace Sim6809

/-! ## More notes

What goes back from the monitor to the board is the answer of the instruction hook. So two
monitors are told apart by nothing else. -/

/-- With some of its notes forgotten, the one monitor does what the other does. -/
structure Monitor.Extends {σ τ : Type} (more : Monitor τ) (m : Monitor σ) (forget : τ → σ) :
    Prop where
  answer : ∀ regs notes, (more.ask regs notes).1 = (m.ask regs (forget notes)).1
  ask : ∀ regs notes, forget (more.ask regs notes).2 = (m.ask regs (forget notes)).2
  hear : ∀ notes report, forget (more.hear notes report) = m.hear (forget notes) report
  watch : ∀ access byte notes,
    forget (more.watch access byte notes) = m.watch access byte (forget notes)

/-- The board with those notes forgotten. -/
def Board.forgetting {β σ τ : Type} (forget : τ → σ) (b : Board β τ) : Board β σ :=
  ⟨b.cpu, b.bus, forget b.notes⟩

namespace Monitor.Extends

variable {β σ τ : Type} {more : Monitor τ} {m : Monitor σ} {forget : τ → σ}

theorem hearAll (h : more.Extends m forget) (notes : τ) (reports : List Report) :
    forget (more.hearAll notes reports) = m.hearAll (forget notes) reports := by
  induction reports generalizing notes with
  | nil => rfl
  | cons report reports ih =>
    rw [Monitor.hearAll, List.foldl_cons, Monitor.hearAll, List.foldl_cons, ← h.hear]
    exact ih _

theorem readied (h : more.Extends m forget) (b : Board β τ) :
    (Board.readied more b).forgetting forget = Board.readied m (b.forgetting forget) ∧
      Board.holds more b = Board.holds m (b.forgetting forget) := by
  have heard := h.hearAll b.notes b.cpu.prepare.reports
  refine ⟨?_, ?_⟩
  · rw [Board.forgetting, Board.readied, Board.readied, Board.forgetting]
    congr 1
    unfold Board.asked Board.prepared
    dsimp only
    rw [apply_ite forget, h.ask, heard]
  · rw [Board.holds, Board.holds, Board.prepared, Board.prepared, Board.forgetting, h.answer]
    dsimp only
    rw [heard]

theorem exchange [Bus β] (h : more.Extends m forget) (b : Board β τ) :
    (Board.exchange more b).forgetting forget = Board.exchange m (b.forgetting forget) := by
  obtain ⟨cpu, bus, notes⟩ := b
  have heard := h.hearAll
    (if cpu.operandDue then more.watch cpu.access (cpu.access.perform bus).1 notes else notes)
    (cpu.complete (cpu.access.perform bus).1).reports
  rw [apply_ite forget, h.watch] at heard
  exact congrArg (Board.mk _ _) heard

/-- The other notes make no difference to a clock. -/
theorem clock [Bus β] (h : more.Extends m forget) (b : Board β τ) :
    (Board.clock more b).2.forgetting forget = (Board.clock m (b.forgetting forget)).2 ∧
      (Board.clock more b).1 = (Board.clock m (b.forgetting forget)).1 := by
  obtain ⟨ready, same⟩ := h.readied b
  rw [Board.clock_eq, Board.clock_eq, same]
  split
  · exact ⟨ready, rfl⟩
  · refine ⟨?_, rfl⟩
    dsimp only
    rw [h.exchange, ready]

theorem clocks [Bus β] (h : more.Extends m forget) (lines : List Levels) (b : Board β τ) :
    (Board.clocks more lines b).forgetting forget =
      Board.clocks m lines (b.forgetting forget) := by
  induction lines generalizing b with
  | nil => rfl
  | cons levels lines ih =>
    refine (ih _).trans (congrArg (Board.clocks m lines) ?_)
    exact (h.clock (b.withLevels levels)).1

end Monitor.Extends

/-! ## Along a run

What is shown of everything that can happen carries over to a clock, and from there to a run.
The opcodes fetched are counted on the way. -/

namespace Board

variable {β σ : Type} [Bus β]

/-- The next clock fetches an opcode. A byte that selects a page is none. -/
def fetchesOpcode (m : Monitor σ) (b : Board β σ) : Bool :=
  (clock m b).1 == .cycle && b.cpu.ready.due? == some .fetchOpcode &&
    !Instruction.selectsPage (b.cpu.ready.access.perform b.bus).1

/-- How many opcodes are fetched in a run. -/
def opcodesFetched (m : Monitor σ) : List Levels → Board β σ → Nat
  | [], _ => 0
  | levels :: more, b =>
    (fetchesOpcode m (b.withLevels levels)).toNat +
      opcodesFetched m more (tick m (b.withLevels levels))

/-- What bus and monitor make of something that leads the processor to `d`. -/
def follow (m : Monitor σ) (event : Event) (d : Processor) (b : Board β σ) : Board β σ where
  cpu := d
  bus :=
    match event with
    | .access _ => (b.cpu.access.perform b.bus).2
    | _ => b.bus
  notes := m.follow b.notes ⟨b.cpu, event⟩

/-- An access meets the byte that the bus has for it. -/
def Answers (b : Board β σ) (event : Event) : Prop :=
  ∀ byte, event = .access byte → byte = (b.cpu.access.perform b.bus).1

/-- A statement about the opcodes fetched so far is kept by whatever happens. -/
def Keeps (m : Monitor σ) (P : Nat → Board β σ → Prop) : Prop :=
  ∀ opcodes b event d, P opcodes b → Occurs linesOnly b.cpu event d → b.Answers event →
    P (opcodes + (⟨b.cpu, event⟩ : Occurrence).opcodes) (b.follow m event d)

namespace Keeps

variable {m : Monitor σ} {P : Nat → Board β σ → Prop} {opcodes : Nat} {b : Board β σ}

theorem moves (keeps : Keeps m P) {c d : Processor} {past : List Occurrence} {bus : β} {notes : σ}
    (path : Path linesOnly c past d) (only : OnlyMoves past) (start : P opcodes ⟨c, bus, notes⟩) :
    P opcodes ⟨d, bus, m.hearAll notes (past.flatMap (·.reports))⟩ := by
  rw [← only.notes m]
  induction path with
  | here => exact start
  | @on past d e event _ occurs ih =>
    obtain ⟨move, rfl⟩ := only ⟨d, event⟩ (List.mem_append_right past List.mem_cons_self)
    have before := ih fun o mem => only o (List.mem_append_left _ mem)
    rw [List.foldl_append]
    exact keeps _ _ _ _ before occurs (by rintro _ ⟨⟩)

/-- Before the access, whether that is held or made. -/
theorem readied (keeps : Keeps m P) (start : P opcodes b) : P opcodes (readied m b) := by
  obtain ⟨past, path, only, reports⟩ := Processor.path_prepare linesOnly b.cpu
  have before : P opcodes (prepared m b) := by
    rw [prepared, ← reports]
    exact keeps.moves path only start
  rw [Board.readied, asked, Processor.ready]
  cases asks : (prepared m b).cpu.asksFirst with
  | true => exact keeps _ _ _ _ before (.announce asks) (by rintro _ ⟨⟩)
  | false =>
    have unasked : b.cpu.prepare.state.announce = b.cpu.prepare.state :=
      Processor.announce_of_unasked asks
    rw [unasked]
    exact before

/-- An access that is made, and the moves that follow. -/
theorem exchange (keeps : Keeps m P) {c : Processor} {bus : β} {notes : σ}
    (still : c.move? = none) (asleep : c.wake? = none) (announced : c.asksFirst = false)
    (start : P opcodes ⟨c, bus, notes⟩) :
    P (opcodes + (⟨c, .access (c.access.perform bus).1⟩ : Occurrence).opcodes)
      (exchange m ⟨c, bus, notes⟩) := by
  have answers : (⟨c, bus, notes⟩ : Board β σ).Answers (.access (c.access.perform bus).1) := by
    rintro _ ⟨⟩
    rfl
  cases due : c.due? with
  | some cycle =>
    obtain ⟨past, path, only, reports⟩ :=
      Processor.path_settle linesOnly (c.carryOut cycle (c.access.perform bus).1)
    have accessed := keeps.moves path only (keeps _ _ _ _ start (.cycle _ due announced) answers)
    rw [reports, Monitor.follow, Occurrence.reports_of_due due] at accessed
    simp only [Board.exchange, Processor.complete, due]
    exact accessed
  | none =>
    have accessed := keeps _ _ _ _ start (.idle _ still asleep due) answers
    rw [follow, Monitor.follow, Occurrence.reports_of_idle due] at accessed
    simp only [Board.exchange, Processor.complete, due]
    exact accessed

/-- **One clock.** -/
theorem clock (keeps : Keeps m P) (h : b.cpu.schedule.Consistent) (start : P opcodes b) :
    P (opcodes + (fetchesOpcode m b).toNat) (clock m b).2 := by
  have ready := keeps.readied start
  have clocked := clock_eq m b
  cases held : holds m b with
  | true =>
    rw [if_pos held] at clocked
    rw [fetchesOpcode, clocked]
    exact ready
  | false =>
    rw [held] at clocked
    obtain ⟨still, asleep⟩ := b.cpu.still_ready h
    have made := keeps.exchange still asleep (Processor.asksFirst_announce _) ready
    rw [fetchesOpcode, clocked]
    exact made

/-- **A run.** -/
theorem clocks (keeps : Keeps m P) (lines : List Levels) (h : b.cpu.schedule.Consistent)
    (start : P opcodes b) : P (opcodes + opcodesFetched m lines b) (clocks m lines b) := by
  induction lines generalizing b opcodes with
  | nil => exact start
  | cons levels lines ih =>
    have drives : Occurs linesOnly b.cpu (.call (.drive levels)) (b.cpu.withLevels levels) :=
      .call trivial
    have driven : P opcodes (b.withLevels levels) := keeps _ _ _ _ start drives (by rintro _ ⟨⟩)
    have consistent : (b.withLevels levels).cpu.schedule.Consistent := h
    have later := ih (consistent_clock m consistent) (keeps.clock consistent driven)
    rw [Nat.add_assoc] at later
    exact later

end Keeps

end Board

/-! ## Counting -/

/-- Notes with the number of times that two of the hooks were called. -/
structure Tally (σ : Type) where
  notes : σ
  /-- Calls of the instruction hook. -/
  asked : Nat
  /-- Calls of the hook for instructions that retire. -/
  retired : Nat

/-- The same monitor, with those calls counted. -/
def Monitor.counting {σ : Type} (m : Monitor σ) : Monitor (Tally σ) where
  hooks :=
    { instruction := some fun regs tally =>
        let answer := m.ask regs tally.notes
        (answer.1, { tally with notes := answer.2, asked := tally.asked + 1 })
      retired := some fun regs tally =>
        { tally with notes := m.hear tally.notes (.retired regs), retired := tally.retired + 1 }
      read := some fun address byte tally =>
        { tally with notes := m.watch (.read address) byte tally.notes }
      write := some fun address value tally =>
        { tally with notes := m.watch (.write address value) value tally.notes } }
  log := fun notice tally => { tally with notes := m.hear tally.notes (.notice notice) }

namespace Monitor

variable {σ : Type} (m : Monitor σ)

/-- Counted or not, the monitor does the same. -/
theorem extends_counting : m.counting.Extends m Tally.notes where
  answer _ _ := rfl
  ask _ _ := rfl
  hear _ report := by cases report <;> rfl
  watch access _ _ := by cases access <;> rfl

theorem hearAll_counting (reports : List Report) (tally : Tally σ) :
    (m.counting.hearAll tally reports).asked = tally.asked ∧
      (m.counting.hearAll tally reports).retired = tally.retired + retirements reports := by
  induction reports generalizing tally with
  | nil => exact ⟨rfl, rfl⟩
  | cons report reports ih =>
    obtain ⟨asked, retired⟩ := ih (m.counting.hear tally report)
    rw [hearAll, List.foldl_cons]
    refine ⟨?_, ?_⟩
    · cases report <;> exact asked
    · refine retired.trans ?_
      rw [retirements, retirements, List.countP_cons]
      cases report with
      | notice _ => rfl
      | retired _ => exact Nat.add_right_comm _ _ _

theorem watch_counting (access : Access) (byte : Byte) (tally : Tally σ) :
    (m.counting.watch access byte tally).asked = tally.asked ∧
      (m.counting.watch access byte tally).retired = tally.retired := by
  cases access <;> exact ⟨rfl, rfl⟩

/-- The calls are the announcements and the retirements. -/
theorem follow_counting (tally : Tally σ) (o : Occurrence) :
    (m.counting.follow tally o).asked = tally.asked + o.announcements ∧
      (m.counting.follow tally o).retired = tally.retired + retirements o.reports := by
  obtain ⟨c, event⟩ := o
  cases event with
  | announce => exact ⟨rfl, rfl⟩
  | move _ | call _ => exact m.hearAll_counting _ tally
  | access byte =>
    obtain ⟨unasked, unretired⟩ := m.watch_counting c.access byte tally
    rw [follow]
    dsimp only
    split
    · rw [← unasked, ← unretired]
      exact m.hearAll_counting _ _
    · exact m.hearAll_counting _ tally

end Monitor

namespace Board

variable {β σ : Type} (m : Monitor σ) {opcodes : Nat} {b : Board β (Tally σ)}

/-- The board with the counts left out. -/
def untallied (b : Board β (Tally σ)) : Board β σ := ⟨b.cpu, b.bus, b.notes.notes⟩

/-- Counting makes no difference to a run. -/
theorem untallied_clocks [Bus β] (lines : List Levels) (b : Board β (Tally σ)) :
    (clocks m.counting lines b).untallied = clocks m lines b.untallied :=
  m.extends_counting.clocks lines b

/-- The board stands at so many opcodes, and its monitor has counted the rest. -/
def Tallies (opcodes : Nat) (b : Board β (Tally σ)) : Prop :=
  Ledger b.cpu opcodes b.notes.asked b.notes.retired

/-- The monitor counts what the ledger does. -/
theorem keeps_tallies [Bus β] :
    Keeps m.counting fun opcodes (b : Board β (Tally σ)) => Tallies opcodes b := by
  intro opcodes b event d tallies occurs _
  obtain ⟨asked, retired⟩ := m.follow_counting b.notes ⟨b.cpu, event⟩
  have after := tallies.occurs occurs
  rw [← asked, ← retired] at after
  exact after

variable [Bus β]

/-- After a clock an instruction that is executed has something left of it. -/
theorem pending_clock {m : Monitor σ} {b : Board β σ} (h : b.cpu.schedule.Consistent)
    (phase : (clock m b).2.cpu.phase = .execution) : (clock m b).2.cpu.schedule.pending ≠ [] := by
  have consistent := Processor.consistent_ready h
  have still := (b.cpu.still_ready h).1
  rcases clock_cases m b with ⟨_, notes, outcome⟩ | ⟨notes, outcome⟩
  · rw [outcome] at phase ⊢
    exact Processor.pending_ne_nil_of_execution consistent still phase
  · rw [outcome] at phase ⊢
    exact Processor.pending_complete consistent still _ phase

theorem pending_clocks {m : Monitor σ} (lines : List Levels) {b : Board β σ}
    (h : b.cpu.schedule.Consistent)
    (busy : b.cpu.phase = .execution → b.cpu.schedule.pending ≠ []) :
    (clocks m lines b).cpu.phase = .execution →
      (clocks m lines b).cpu.schedule.pending ≠ [] := by
  induction lines generalizing b with
  | nil => exact busy
  | cons levels lines ih =>
    have driven : (b.withLevels levels).cpu.schedule.Consistent := h
    exact ih (consistent_clock m driven) (pending_clock driven)

end Board

/-- **Hooks are called once for every instruction.** A run starts at the boundary between
two instructions, which is what a jump leads to, and what every boundary of a reachable
processor is. Then after any number of clocks, with the lines driven in any way and whatever
the instruction hook answers, that hook was called once for every opcode that was fetched,
and once more if the next fetch is announced; and the hook for instructions that retire was
called once for every opcode that was fetched, but for the instruction in flight. The calls
are counted by the hooks, and that makes no difference to the run. -/
theorem hooks_once_per_instruction :
    (∀ (c : Processor) (pc : Word), (c.setPc pc).AtOpcode 0 ∧ (c.setPc pc).announced = false) ∧
    (∀ c, Reachable anyCall c → (c.atBoundary = true ↔ c.AtOpcode 0)) ∧
    ∀ {β σ : Type} [Bus β] (m : Monitor σ) (b : Board β (Tally σ)),
      b.cpu.AtOpcode 0 → b.cpu.announced = false → b.notes.asked = 0 → b.notes.retired = 0 →
      ∀ lines : List Levels,
        let fetched := Board.opcodesFetched m.counting lines b
        let after := Board.clocks m.counting lines b
        after.notes.asked = fetched + (if after.cpu.announced then 1 else 0) ∧
          (if after.cpu.inFlight then after.notes.retired + 1 = fetched
            else after.notes.retired = fetched) ∧
          after.untallied = Board.clocks m lines b.untallied := by
  refine ⟨fun c pc => ⟨c.atOpcode_setPc pc, rfl⟩, fun c reachable => ?_, ?_⟩
  · exact ⟨Processor.atOpcode_of_reachable reachable, Processor.AtOpcode.atBoundary⟩
  · intro β σ _ m b start unannounced asked retired lines
    have tallies : Board.Tallies 0 b := by
      have fresh : Ledger b.cpu 0 (0 + b.cpu.announced.toNat) 0 :=
        .fetching start fun selected => absurd rfl selected
      rw [unannounced] at fresh
      rw [Board.Tallies, asked, retired]
      exact fresh
    have after := (Board.keeps_tallies m).clocks lines start.consistent tallies
    rw [Nat.zero_add] at after
    have pending : b.cpu.schedule.pending ≠ [] := by
      rw [start.pending]
      exact List.cons_ne_nil _ _
    have busy := Board.pending_clocks (m := m.counting) lines start.consistent fun _ => pending
    obtain ⟨calls, retirements⟩ := after.closed busy
    exact ⟨calls, retirements, Board.untallied_clocks m lines b⟩

/-- A hook that holds the processor before every instruction. -/
def alwaysHolding : Monitor Unit where
  hooks := { Hooks.none with instruction := some fun _ notes => (.hold, notes) }
  log := fun _ notes => notes

/-- A program is about to be begun by a jump. -/
def jumpedBoard : Board Ram (Tally Unit) :=
  ⟨Processor.powerOn.setPc 0x1000, waitingLoop, ⟨(), 0, 0⟩⟩

/-- An interrupt is asked for after a while. -/
def interruptedLater (n : Nat) : List Levels :=
  List.replicate 8 .low ++ List.replicate n { Levels.low with irq := true }

/-- So many clocks later. -/
def interruptedBoard (n : Nat) : Board Ram (Tally Unit) :=
  Board.clocks alwaysHolding.counting (interruptedLater n) jumpedBoard

/-- The third instruction is in flight; and twenty-two clocks later the interrupt has been
entered, with the first instruction of its handler held. -/
theorem hooks_once_per_instruction_interrupted :
    ((interruptedBoard 3).cpu.inFlight = true ∧ (interruptedBoard 3).notes.asked = 3 ∧
      (interruptedBoard 3).notes.retired = 2) ∧
    ((interruptedBoard 25).cpu.regs.s = 0x8000 - 12 ∧ (interruptedBoard 25).notes.asked = 4 ∧
      (interruptedBoard 25).notes.retired = 3) ∧
    (interruptedBoard 25).untallied =
      Board.clocks alwaysHolding (interruptedLater 25) jumpedBoard.untallied := by
  have reachable : Reachable anyCall jumpedBoard.cpu := .call (.setPc 0x1000) trivial .powerOn
  have start := (hooks_once_per_instruction.2.1 _ reachable).1 (by decide +kernel)
  have counts := hooks_once_per_instruction.2.2 alwaysHolding jumpedBoard start rfl rfl rfl
  have early := counts (interruptedLater 3)
  have late := counts (interruptedLater 25)
  have fetched : Board.opcodesFetched alwaysHolding.counting (interruptedLater 3) jumpedBoard =
      3 := by decide +kernel
  have fetched' : Board.opcodesFetched alwaysHolding.counting (interruptedLater 25) jumpedBoard =
      3 := by decide +kernel
  dsimp only at early late
  rw [fetched, ← interruptedBoard] at early
  rw [fetched', ← interruptedBoard] at late
  have flying : (interruptedBoard 3).cpu.inFlight = true := by decide +kernel
  have resting : (interruptedBoard 25).cpu.inFlight = false := by decide +kernel
  have unannounced : (interruptedBoard 3).cpu.announced = false := by decide +kernel
  have announced : (interruptedBoard 25).cpu.announced = true := by decide +kernel
  rw [unannounced, if_pos flying] at early
  rw [announced, resting] at late
  exact ⟨⟨flying, early.1, by omega⟩, ⟨by decide +kernel, late.1, late.2.1⟩, late.2.2⟩

end Sim6809
