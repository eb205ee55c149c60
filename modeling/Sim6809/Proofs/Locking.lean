/-
The lock: three opcodes lead into it, and nothing that the processor does leads out.

There is one step that enters the locked phase. It is the whole program of one instruction,
and so it is pending alone, and only for as long as it takes to make the moves after the
byte of that instruction's opcode (`Occurs.locking`, `Occurs.lockStep_mem`). Between two
clocks it is never pending. A clock makes one access at most, and therefore a processor that
comes out of a clock locked, and went into it otherwise, has fetched that opcode in it.

Once locked, there is nothing pending and no move is due. Every clock is an idle read, and
leaves the inputs sampled and all else as it was.
-/
import Sim6809.Proofs.ResetRecovery

set_option autoImplicit false

namespace Sim6809

/-! ## The opcodes -/

namespace Instruction

/-- The instruction that locks the processor. -/
def lock : Instruction := ⟨.lock, .inherent⟩

/-- The byte is one of its opcodes. -/
def locks (opcode : Byte) : Bool := opcode == 0x14 || opcode == 0x15 || opcode == 0xCD

/-- They lock on every page. -/
theorem decode_eq_lock_iff (page opcode : Byte) :
    decode page opcode = lock ↔ locks opcode = true :=
  decode_induction_at (P := fun opcode i => i = lock ↔ locks opcode = true)
    (by decide +kernel) (by decide +kernel) (by decide +kernel) page opcode

end Instruction

/-- The step that enters the lock. -/
def lockStep : MicroOp := .action (.enter .locked)

/-- No other instruction has it. -/
theorem Instruction.eq_lock_of_mem {page opcode : Byte}
    (mem : lockStep ∈ (decode page opcode).program ++ (decode page opcode).body) :
    decode page opcode = lock :=
  decode_induction (P := fun i => lockStep ∈ i.program ++ i.body → i = lock)
    (by decide +kernel) (by decide +kernel) (by decide +kernel) page opcode mem

/-- Where nothing leaves the instruction stream, it is not found. -/
theorem lockStep_not_mem_of_leaves {steps : List MicroOp} (stay : ∀ op ∈ steps, op.leaves = false) :
    lockStep ∉ steps := by
  intro mem
  cases stay lockStep mem

variable {c d : Processor} {allowed : HostCall → Prop} {event : Event}
  {past : List Occurrence}

/-- It is pending alone. -/
theorem Sourced.lockStep_alone (sourced : Sourced c) (h : Orderly c)
    (mem : lockStep ∈ c.schedule.pending) : c.schedule.pending = [lockStep] := by
  obtain ⟨ops, source, rest⟩ := sourced
  obtain ⟨page, opcode, decoded⟩ := h.decoded
  have whole := rest.subset mem
  have own : lockStep ∈ c.instruction.program ++ c.instruction.body → c.instruction = .lock := by
    rw [← decoded]
    exact Instruction.eq_lock_of_mem
  cases source with
  | fetch | branch => cases List.mem_singleton.1 whole
  | program =>
    rw [own (List.mem_append_left _ whole)] at rest
    rcases List.suffix_cons_iff.1 rest with all | none
    · exact all
    · rw [List.suffix_nil.1 none] at mem
      cases mem
  | indexed postbyte mode =>
    rcases List.mem_append.1 whole with address | body
    · cases leaves_indexProgram address
    · rw [own (List.mem_append_right _ body)] at mode
      cases mode
  | pushes stack list =>
    obtain ⟨part, _, push⟩ := List.mem_map.1 whole
    cases push
  | pulls _ =>
    rcases mem_pullProgram whole with last | ⟨part, _, pull⟩
    · cases last
    · cases pull
  | unwind entire => exact absurd whole (lockStep_not_mem_of_leaves (by cases entire <;> decide))
  | vector => exact absurd whole (lockStep_not_mem_of_leaves leaves_takeVector)
  | entry interrupt => exact absurd whole (lockStep_not_mem_of_leaves (leaves_entry interrupt))

/-! ## The way in -/

/-- An opcode is fetched that locks the processor. -/
def Occurrence.FetchesLock (o : Occurrence) : Prop :=
  ∃ byte, o.event = .access byte ∧ o.before.due? = some .fetchOpcode ∧
    Instruction.locks byte = true

/-- No move schedules the step. -/
theorem Processor.MoveHappens.lockStep_not_mem {m : Move} (happens : c.MoveHappens m) :
    lockStep ∉ m.queued := by
  have vector := lockStep_not_mem_of_leaves leaves_takeVector
  cases happens with
  | @act action rest pending =>
    cases action with
    | operate =>
      intro mem
      obtain ⟨cycle, same, _⟩ := mem_growth mem
      cases same
    | vector which => exact vector
    | _ => exact nofun
  | wake _ _ _ _ => exact vector
  | phase dry goes =>
    cases goes with
    | served _ _ => exact vector
    | release _ _ => exact fun mem => vector (List.mem_cons_of_mem _ mem)
    | @asked interrupt _ _ => exact lockStep_not_mem_of_leaves (leaves_entry interrupt)
    | unasked _ _ => exact fun mem => nomatch List.mem_singleton.1 mem
    | reset _ | boundary _ _ | retire _ | unserved _ _ => exact nofun

/-- It comes with the byte of the opcode. -/
theorem Occurs.lockStep_mem (occurs : Occurs allowed c event d) (h : Orderly c)
    (mem : lockStep ∈ d.schedule.pending) :
    lockStep ∈ c.schedule.pending ∨ (⟨c, event⟩ : Occurrence).FetchesLock := by
  cases event with
  | move m =>
    have landed := occurs.pending_landed h
    obtain ⟨happens, rfl⟩ := occurs.moveHappens h.consistent
    rw [landed] at mem
    rcases List.mem_append.1 mem with tail | queued
    · exact Or.inl (List.mem_of_mem_tail tail)
    · exact absurd queued happens.lockStep_not_mem
  | announce =>
    cases occurs
    rw [Processor.schedule_announce] at mem
    exact Or.inl mem
  | call call =>
    cases occurs
    cases call with
    | drive levels | registers regs => exact Or.inl mem
    | reset => cases mem
    | setPc pc =>
      change _ ∈ (c.setPc pc).schedule.pending at mem
      rw [c.pending_setPc pc] at mem
      cases List.mem_singleton.1 mem
  | access byte =>
    cases occurs with
    | idle _ _ _ _ =>
      rw [Processor.schedule_idled] at mem
      exact Or.inl mem
    | cycle _ due _ =>
      cases Processor.carriesOut h due byte with
      | plain _ used =>
        rw [used] at mem
        exact Or.inl (List.mem_of_mem_tail mem)
      | select _ used _ =>
        rw [used] at mem
        cases List.mem_singleton.1 mem
      | decode fetch _ used =>
        rw [used] at mem
        have lock := Instruction.eq_lock_of_mem (List.mem_append_left _ mem)
        rw [fetch] at due
        exact Or.inr ⟨byte, rfl, due, (Instruction.decode_eq_lock_iff c.page byte).1 lock⟩
      | postbyte indexed _ used =>
        obtain ⟨page, opcode, decoded⟩ := h.decoded
        rw [used] at mem
        rw [← decoded] at mem indexed
        rcases List.mem_append.1 mem with address | body
        · cases leaves_indexProgram address
        · rw [Instruction.eq_lock_of_mem (List.mem_append_right _ body)] at indexed
          cases indexed

/-- An idle cycle does not lock. -/
theorem Processor.phase_idled_locked (locked : c.idled.state.phase = .locked) :
    c.phase = .locked := by
  unfold idled at locked
  dsimp only at locked
  split at locked
  · split at locked
    · cases locked
    · split at locked
      · cases locked
      · exact locked
  · split at locked
    · exact locked
    · cases locked
  · exact locked

/-- The lock is entered by that step. -/
theorem Occurs.locking (occurs : Occurs allowed c event d) (h : Orderly c)
    (locked : d.phase = .locked) : c.phase = .locked ∨ lockStep ∈ c.schedule.pending := by
  cases event with
  | move m =>
    obtain ⟨happens, rfl⟩ := occurs.moveHappens h.consistent
    cases happens with
    | @act action rest pending =>
      by_cases stays : ∀ phase, action ≠ .enter phase
      · rw [Processor.phase_act _ stays] at locked
        exact Or.inl locked
      · obtain ⟨phase, rfl⟩ := by simpa using stays
        obtain rfl : phase = .locked := locked
        right
        rw [pending]
        exact List.mem_cons_self
    | @wake interrupt _ _ _ _ => cases interrupt <;> cases locked
    | phase _ goes =>
      cases goes with
      | @served interrupt _ _ => cases interrupt <;> cases locked
      | _ => cases locked
  | announce =>
    cases occurs
    rw [Processor.announce_eq] at locked
    exact Or.inl locked
  | access byte =>
    cases occurs with
    | cycle _ _ _ =>
      rw [Processor.phase_carryOut] at locked
      exact Or.inl locked
    | idle _ _ _ _ => exact Or.inl (Processor.phase_idled_locked locked)
  | call call =>
    cases occurs
    cases call with
    | drive levels | registers regs => exact Or.inl locked
    | reset | setPc pc => cases locked

/-- The processor is not locked, and not about to be. -/
structure Unlocked (c : Processor) : Prop where
  phase : c.phase ≠ .locked
  pending : lockStep ∉ c.schedule.pending

/-- On a path that locks the processor, such an opcode is fetched. -/
theorem Path.fetchesLock (path : Path allowed c past d) (h : Orderly c) (free : Unlocked c)
    (locked : ¬Unlocked d) : ∃ o ∈ past, o.FetchesLock := by
  obtain ⟨front, o, back, e, rfl, way, still, occurs, turned⟩ :=
    path.turns (P := fun d => ¬Unlocked d) (fun not => not free) locked
  have before : Unlocked o.before := Classical.not_not.1 still
  have orderly := way.orderly h
  refine ⟨o, List.mem_append_right front List.mem_cons_self, ?_⟩
  apply Classical.byContradiction
  intro other
  refine turned ⟨?_, ?_⟩
  · intro phase
    exact (occurs.locking orderly phase).elim before.phase before.pending
  · intro mem
    exact (occurs.lockStep_mem orderly mem).elim before.pending other

/-- The step is done at once. -/
theorem Processor.phase_settle_of_lockStep (h : c.schedule.Consistent)
    (pending : c.schedule.pending = [lockStep]) : c.settle.state.phase = .locked := by
  have due := move?_of_action h pending
  have dry : ({ c with schedule := c.schedule.advance }.act
      (.enter .locked)).landed.schedule.pending = [] := by
    change c.schedule.advance.pending = []
    rw [Schedule.pending_advance h, pending, List.tail_cons]
  have still : ({ c with schedule := c.schedule.advance }.act (.enter .locked)).landed.move? =
      none := by
    rw [move?_of_dry (consistent_landed h due) dry]
    rfl
  rw [settle_of_move h due, settle_of_rest still]
  rfl

namespace Board

variable {β σ : Type} [Bus β]

/-- A clock is a path with one access at most, that of the processor once it is ready. -/
theorem path_clock_access (m : Monitor σ) (allowed : HostCall → Prop) {b : Board β σ}
    (h : b.cpu.schedule.Consistent) :
    ∃ past, Path allowed b.cpu past (clock m b).2.cpu ∧
      ∀ o ∈ past, ∀ byte, o.event = .access byte →
        (clock m b).1 = .cycle ∧ o.before = b.cpu.ready ∧
          byte = (b.cpu.ready.access.perform b.bus).1 := by
  obtain ⟨front, ready, none⟩ := b.cpu.path_ready allowed
  have quiet : ∀ o ∈ front, ∀ byte, o.event ≠ .access byte := by
    intro o mem byte access
    have unseen := List.filterMap_eq_nil_iff.1 none o mem
    rw [Occurrence.transfer?, access] at unseen
    cases unseen
  rcases clock_cases m b with ⟨_, notes, held⟩ | ⟨notes, made⟩
  · rw [held]
    exact ⟨front, ready, fun o mem byte access => absurd access (quiet o mem byte)⟩
  · obtain ⟨back, complete, only⟩ :=
      Processor.path_complete allowed h (b.cpu.ready.access.perform b.bus).1
    rw [made]
    refine ⟨_, ready.trans complete, fun o mem byte access => ⟨rfl, ?_⟩⟩
    rcases List.mem_append.1 mem with before | after
    · exact absurd access (quiet o before byte)
    · rcases List.mem_cons.1 after with rfl | moves
      · cases access
        exact ⟨rfl, rfl⟩
      · obtain ⟨move, other⟩ := only o moves
        rw [other] at access
        cases access

/-- A clock that locks the processor has fetched one of the opcodes. -/
theorem fetches_of_locked (m : Monitor σ) {b : Board β σ} (staged : Staged b.cpu)
    (resting : Resting b.cpu) (free : b.cpu.phase ≠ .locked)
    (locked : (clock m b).2.cpu.phase = .locked) :
    (clock m b).1 = .cycle ∧ b.cpu.ready.due? = some .fetchOpcode ∧
      Instruction.locks (b.cpu.ready.access.perform b.bus).1 = true := by
  have consistent := staged.orderly.consistent
  have unlocked : Unlocked b.cpu := by
    refine ⟨free, fun mem => ?_⟩
    -- The step takes no time, so it is not left over between two clocks.
    have alone := staged.sourced.lockStep_alone staged.orderly mem
    have bus := resting lockStep (by rw [Schedule.current_eq_head? consistent, alone]; rfl)
    cases bus
  obtain ⟨past, path, only⟩ := path_clock_access m anyCall consistent
  obtain ⟨o, mem, byte, access, due, locks⟩ :=
    path.fetchesLock staged.orderly unlocked fun still => still.phase locked
  obtain ⟨made, same, rfl⟩ := only o mem byte access
  rw [same] at due
  exact ⟨made, due, locks⟩

/-- And a clock that fetches one locks it. -/
theorem locked_of_fetches (m : Monitor σ) {b : Board β σ} (staged : Staged b.cpu)
    (made : (clock m b).1 = .cycle) (due : b.cpu.ready.due? = some .fetchOpcode)
    (locks : Instruction.locks (b.cpu.ready.access.perform b.bus).1 = true) :
    (clock m b).2.cpu.phase = .locked := by
  obtain ⟨notes, clocked⟩ := clock_of_made made
  have ready := staged.ready
  obtain ⟨rest, pending⟩ := (Processor.due?_eq_some_iff ready.orderly.consistent).1 due
  have start := ready.atOpcode (by rw [pending]; exact List.mem_cons_self)
  have lock := (Instruction.decode_eq_lock_iff b.cpu.ready.page _).2 locks
  have decoded := Processor.decoded_carryOut start (by rw [lock]; exact nofun)
  rw [lock] at decoded
  have program : Instruction.lock.program = [lockStep] := rfl
  have settled := Processor.phase_settle_of_lockStep decoded.consistent
    (decoded.pending.trans program)
  simp only [clocked, Processor.complete, due]
  exact settled

end Board

/-! ## In front of the opcode -/

/-- Nothing is fetched but page selections. -/
def SelectsOnly (past : List Occurrence) : Prop :=
  ∀ o ∈ past, ∀ byte, o.event = .access byte →
    o.before.due? = some .fetchOpcode ∧ Instruction.selectsPage byte = true

theorem SelectsOnly.on (h : SelectsOnly past) {o : Occurrence}
    (last : ∀ byte, o.event = .access byte →
      o.before.due? = some .fetchOpcode ∧ Instruction.selectsPage byte = true) :
    SelectsOnly (past ++ [o]) := by
  intro other mem
  rcases List.mem_append.1 mem with before | here
  · exact h other before
  · rw [List.mem_singleton.1 here]
    exact last

/-- While a page is selected, an opcode fetch was pending before, too, and what happened is
no access, or one that selects a page. -/
theorem Occurs.selecting (occurs : Occurs allowed c event d) (h : Staged c) (page : d.page ≠ 0) :
    (.cycle .fetchOpcode ∈ c.schedule.pending) ∧ ∀ byte, event = .access byte →
      c.due? = some .fetchOpcode ∧ Instruction.selectsPage byte = true := by
  -- A page that was selected before stands for a fetch.
  have already : c.page = d.page → .cycle .fetchOpcode ∈ c.schedule.pending := by
    intro same
    rw [h.selecting.resolve_left (by rw [same]; exact page)]
    exact List.mem_cons_self
  cases event with
  | move m =>
    obtain ⟨happens, rfl⟩ := occurs.moveHappens h.orderly.consistent
    exact absurd (Processor.page_of_moveHappens h happens) page
  | announce =>
    cases occurs
    exact ⟨already (by rw [Processor.announce_eq]), nofun⟩
  | call call =>
    cases occurs
    cases call with
    | drive levels | registers regs => exact ⟨already rfl, nofun⟩
    | reset | setPc pc => exact absurd rfl page
  | access byte =>
    cases occurs with
    | idle _ still _ idle =>
      have mem := already (by rw [Processor.idled_eq])
      rw [Processor.pending_of_idle h.orderly.consistent still idle] at mem
      cases mem
    | @cycle cycle _ due _ =>
      obtain ⟨rest, pending⟩ := (Processor.due?_eq_some_iff h.orderly.consistent).1 due
      by_cases fetch : cycle = .fetchOpcode
      · subst fetch
        have mem : .cycle .fetchOpcode ∈ c.schedule.pending := by
          rw [pending]
          exact List.mem_cons_self
        refine ⟨mem, fun other same => ?_⟩
        obtain rfl : byte = other := Event.access.inj same
        refine ⟨due, (Instruction.selectsPage_iff c.page).2 ?_⟩
        apply Classical.byContradiction
        intro none
        exact page (Processor.decoded_carryOut (h.atOpcode mem)
          fun selected selects => none ⟨selected, selects⟩).page
      · have kept : c.page = (c.carryOut cycle byte).page := by
          rw [Processor.carryOut, Move.landed, Processor.absorb_eq_of_ne_fetchOpcode _ _ fetch]
          rfl
        have mem := already kept
        rw [h.sourced.fetch_alone h.orderly mem] at pending
        cases pending
        exact absurd rfl fetch

/-- An opcode fetch goes back to the boundary of an instruction, over page selections. -/
theorem Path.selections (path : History allowed past c)
    (fetch : .cycle .fetchOpcode ∈ c.schedule.pending) :
    ∃ front start rest, past = front ++ rest ∧ History allowed front start ∧
      start.AtOpcode 0 ∧ Path allowed start rest c ∧ SelectsOnly rest := by
  induction path with
  | here => cases fetch
  | @on past c d event before occurs ih =>
    have staged := Staged.powerOn.path before
    by_cases page : d.page = 0
    · have start := (staged.occurs occurs).atOpcode fetch
      rw [page] at start
      exact ⟨_, d, [], (List.append_nil _).symm, .on before occurs, start, .here,
        fun _ mem => nomatch mem⟩
    · obtain ⟨earlier, selects⟩ := occurs.selecting staged page
      obtain ⟨front, start, rest, rfl, toStart, boundary, way, only⟩ := ih earlier
      exact ⟨front, start, rest ++ [⟨c, event⟩], List.append_assoc _ _ _, toStart, boundary,
        .on way occurs, only.on selects⟩

/-! ## No way out -/

namespace Processor

theorem Dry.of_locked (h : Staged c) (phase : c.phase = .locked) : Dry .locked c.regs c := by
  have admitted := h.admitted
  rw [phase] at admitted
  have page := h.selecting.resolve_right (by rw [show c.schedule.pending = [] from admitted]; nofun)
  exact ⟨h.orderly.consistent, admitted, phase, page, rfl⟩

end Processor

namespace Board

variable {β σ : Type} [Bus β] {r : RegisterFile}

/-- A locked processor makes an idle read, and is locked. -/
theorem clock_of_locked (m : Monitor σ) {b : Board β σ} (h : b.cpu.Dry .locked r) :
    ∃ notes, clock m b = (.cycle, ⟨b.cpu.clocked, (Access.idle.perform b.bus).2, notes⟩) ∧
      b.cpu.clocked.Dry .locked r := by
  have asleep : b.cpu.wake? = none := Processor.wake?_of_phase (by rw [h.phase]; exact nofun)
  have awake : b.cpu.phase ≠ .syncWait ∧ b.cpu.phase ≠ .syncHold := by
    rw [h.phase]
    exact ⟨nofun, nofun⟩
  obtain ⟨_, notes, clocked⟩ := h.clock m rfl asleep
  rw [Processor.idled_of_awake awake] at clocked
  exact ⟨notes, clocked, h.consistent, h.pending, h.phase, h.page, h.regs⟩

/-- So it stays, whatever the lines do. -/
theorem clocks_of_locked (m : Monitor σ) {b : Board (Recorded β) σ} (h : b.cpu.Dry .locked r)
    (lines : List Levels) :
    (clocks m lines b).cpu.Dry .locked r ∧ ∃ idles, IdleReads lines.length idles ∧
      (clocks m lines b).bus.transfers.toList = b.bus.transfers.toList ++ idles := by
  induction lines generalizing b with
  | nil => exact ⟨h, [], .none, (List.append_nil _).symm⟩
  | cons levels lines ih =>
    obtain ⟨notes, clocked, locked⟩ :=
      clock_of_locked m (b := b.withLevels levels) (h.withLevels levels)
    obtain ⟨stays, idles, reads, transfers⟩ :=
      ih (b := ⟨(b.withLevels levels).cpu.clocked, (Access.idle.perform b.bus).2, notes⟩) locked
    rw [clocks, tick, clocked]
    refine ⟨stays, _, reads.cons (Access.idle.perform b.bus).1, transfers.trans ?_⟩
    rw [Recorded.transfers_perform, List.append_assoc]
    rfl

end Board

/-- **The lock is terminal, and has one door.** On any bus, a clock locks a processor that is
not locked exactly if it fetches one of the three opcodes; the fetch goes back to the boundary
of an instruction with nothing but page selections in between, and no call locks anything.
Once locked, after any number of clocks with any levels in each, the processor is locked with
nothing pending and the same registers, and each clock was one idle read. -/
theorem lock_is_terminal {β σ : Type} [Bus β] (m : Monitor σ) (b : Board (Recorded β) σ)
    (reachable : Reachable anyCall b.cpu) :
    (b.cpu.phase ≠ .locked → ((Board.clock m b).2.cpu.phase = .locked ↔
      (Board.clock m b).1 = .cycle ∧ b.cpu.ready.due? = some .fetchOpcode ∧
        Instruction.locks (b.cpu.ready.access.perform b.bus).1 = true)) ∧
    (b.cpu.ready.due? = some .fetchOpcode → ∃ front start rest, History anyCall front start ∧
      start.AtOpcode 0 ∧ Path anyCall start rest b.cpu.ready ∧ SelectsOnly rest) ∧
    (∀ call : HostCall, (call.apply b.cpu).phase = .locked → b.cpu.phase = .locked) ∧
    (b.cpu.phase = .locked → ∀ lines, ∃ idles, IdleReads lines.length idles ∧
      (Board.clocks m lines b).bus.transfers.toList = b.bus.transfers.toList ++ idles ∧
      (Board.clocks m lines b).cpu.phase = .locked ∧
      (Board.clocks m lines b).cpu.schedule.isDrained = true ∧
      (Board.clocks m lines b).cpu.regs = b.cpu.regs) := by
  have staged := reachable.staged
  refine ⟨fun free => ⟨?_, ?_⟩, fun due => ?_, fun call locked => ?_, fun phase lines => ?_⟩
  · exact Board.fetches_of_locked m staged reachable.resting free
  · rintro ⟨made, due, locks⟩
    exact Board.locked_of_fetches m staged made due locks
  · obtain ⟨past, history⟩ := reachable.history
    obtain ⟨more, ready, _⟩ := b.cpu.path_ready anyCall
    obtain ⟨rest, pending⟩ :=
      (Processor.due?_eq_some_iff staged.ready.orderly.consistent).1 due
    obtain ⟨front, start, rest, _, toStart, boundary, way, only⟩ :=
      (history.trans ready).selections (by rw [pending]; exact List.mem_cons_self)
    exact ⟨front, start, rest, toStart, boundary, way, only⟩
  · cases call with
    | drive levels | registers regs => exact locked
    | reset | setPc pc => cases locked
  · obtain ⟨stays, idles, reads, transfers⟩ :=
      Board.clocks_of_locked m (.of_locked staged phase) lines
    exact ⟨idles, reads, transfers, stays.phase,
      (Schedule.isDrained_iff_pending stays.consistent).2 stays.pending, stays.regs⟩

/-- A program that locks, behind two page selections. -/
def locking : Ram :=
  (Ram.overlay (fun _ => 0x12) 0x1000 [0x10, 0x11, 0xCD]).overlay 0xFFFE [0x10, 0x00]

/-- In the sixth clock it does, and all four lines at once do not get it out again. -/
theorem lock_is_terminal_prefixed :
    ∃ b : Board (Recorded Ram) Unit, b.cpu.phase ≠ .locked ∧
      (Board.clock .silent b).2.cpu.phase = .locked ∧
      ∀ n, ∃ after idles, after = Board.clocks .silent (List.replicate n ⟨true, true, true, true⟩)
          (Board.clock .silent b).2 ∧ IdleReads n idles ∧ after.cpu.phase = .locked ∧
        after.bus.transfers.toList = (Board.clock .silent b).2.bus.transfers.toList ++ idles := by
  let b : Board (Recorded Ram) Unit :=
    Board.clocks .silent (List.replicate 5 .low) ⟨.powerOn, ⟨locking, #[]⟩, ()⟩
  have reachable : Reachable anyCall b.cpu := .clocks .silent (fun _ => trivial) _ _ .powerOn
  have free : b.cpu.phase ≠ .locked := by decide +kernel
  have locked : (Board.clock .silent b).2.cpu.phase = .locked :=
    ((lock_is_terminal .silent b reachable).1 free).2
      ⟨by decide +kernel, by decide +kernel, by decide +kernel⟩
  refine ⟨b, free, locked, fun n => ?_⟩
  obtain ⟨idles, reads, transfers, phase, _⟩ :=
    (lock_is_terminal .silent (Board.clock .silent b).2 (.clock .silent b reachable)).2.2.2 locked
      (List.replicate n ⟨true, true, true, true⟩)
  rw [List.length_replicate] at reads
  exact ⟨_, idles, rfl, reads, phase, transfers⟩

end Sim6809
