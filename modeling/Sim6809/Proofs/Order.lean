/-
No step is lost, and none runs out of order.

The schedule reclaims its slots only when it has run dry, and it drops a step that
finds no slot. That this never happens is not visible in the schedule: it follows from
what is scheduled. Every piece of work that adds steps is due only when no other step
is pending behind it, and it adds eighteen steps at most, so each addition starts from
an empty schedule and ends far from a full one.

`Orderly` is the invariant. It ties the pending steps to the instruction they belong
to, because whether an effect queues steps, and how long an indexed body is, depends
on that instruction; and it remembers that the instruction was decoded from an opcode,
because other combinations of operation and mode would be too long. It holds of every
processor that a clock passes through, not only between clocks (`Turn`), which is what
makes it say something about each single push.
-/
import Sim6809.Proofs.Programs
import Sim6809.Proofs.Reachable

set_option autoImplicit false

namespace Sim6809

/-! ## The pieces of work of a clock -/

namespace Processor

/-- `Turn c d m`: a clock of `c` comes to `d`, and there makes the move `m`. Whatever
a clock schedules, it schedules by landing one of these moves. -/
inductive Turn (c : Processor) : Processor → Move → Prop
  /-- Work that is due before the access. -/
  | before {n : Nat} {d : Processor} {m : Move} (chain : MovesTo n c d)
      (due : d.move? = some m) : Turn c d m
  /-- The end of a CWAI wait. -/
  | wake {m : Move} (due : c.settle.state.wake? = some m) : Turn c c.settle.state m
  /-- What the byte of the access does. -/
  | access {cycle : BusCycle} (byte : Byte) (due : c.ready.due? = some cycle) :
      Turn c c.ready
        ({ c.ready.clocked with schedule := c.ready.schedule.advance }.absorb byte cycle)
  /-- Work that follows the access. -/
  | after {cycle : BusCycle} {byte : Byte} {n : Nat} {d : Processor} {m : Move}
      (access : c.ready.due? = some cycle) (chain : MovesTo n (c.ready.carryOut cycle byte) d)
      (due : d.move? = some m) : Turn c d m

end Processor

/-! ## The invariant -/

/-- The pending steps fit their instruction, and leave room. -/
structure Orderly (c : Processor) : Prop where
  consistent : c.schedule.Consistent
  room : c.schedule.filled.toNat ≤ 18
  decoded : ∃ page opcode, Instruction.decode page opcode = c.instruction
  last : OnlyLastQueues c.instruction c.schedule.pending
  indexed : .cycle .fetchPostbyte ∈ c.schedule.pending → c.instruction.mode = .indexed

/-- A move that may land: what it adds comes to an empty schedule, or there is nothing
to add. -/
structure Move.Orderly (m : Move) : Prop where
  kept : Sim6809.Orderly m.next
  fits : m.queued.length ≤ 18
  dry : m.queued ≠ [] → m.next.schedule.pending = []
  last : OnlyLastQueues m.next.instruction m.queued
  indexed : .cycle .fetchPostbyte ∈ m.queued → m.next.instruction.mode = .indexed

namespace Move.Orderly

variable {m : Move}

/-- Nothing to add. -/
theorem of_quiet (h : Sim6809.Orderly m.next) (quiet : m.queued = []) : m.Orderly where
  kept := h
  fits := by rw [quiet]; exact Nat.zero_le _
  dry := fun busy => absurd quiet busy
  last := by rw [quiet]; intro op mem; cases mem
  indexed := by rw [quiet]; intro mem; cases mem

/-- Plain steps on an empty schedule. -/
theorem of_plain (h : Sim6809.Orderly m.next) (dry : m.next.schedule.pending = [])
    (plain : Plain m.next.instruction m.queued) (fits : m.queued.length ≤ 18) : m.Orderly where
  kept := h
  fits := fits
  dry := fun _ => dry
  last := plain.onlyLast
  indexed := fun mem => absurd (plain _ mem) (by simp [MicroOp.queues])

/-- A move that adds steps finds no slot in use. -/
theorem unused (h : m.Orderly) (busy : m.queued ≠ []) : m.next.schedule.used = 0 := by
  have drained := (Schedule.isDrained_iff_pending h.kept.consistent).2 (h.dry busy)
  rw [Schedule.used, if_pos drained]

/-- While a move lands, no more slots are in use than steps were added. -/
theorem used_take (h : m.Orderly) {j : Nat} (lt : j < m.queued.length) :
    (m.next.schedule.extend (m.queued.take j)).used = j := by
  have busy : m.queued ≠ [] := List.length_pos_iff.1 (by omega)
  have unused := h.unused busy
  have fits := h.fits
  have taken : (m.queued.take j).length = j := by rw [List.length_take]; omega
  rw [Schedule.used_extend h.kept.consistent _ (by omega), unused, taken, Nat.zero_add]

/-- Every step of a move finds a slot, at the end of what is pending. -/
theorem pending_landed (h : m.Orderly) :
    m.landed.schedule.pending = m.next.schedule.pending ++ m.queued := by
  have fits := h.fits
  refine Schedule.pending_extend h.kept.consistent _ ?_
  by_cases quiet : m.queued = []
  · have room := h.kept.room
    rw [quiet, List.length_nil, Schedule.used]
    split <;> omega
  · have unused := h.unused quiet
    omega

/-- A move that lands in order leaves an orderly processor. -/
theorem landed (h : m.Orderly) : Sim6809.Orderly m.landed := by
  by_cases quiet : m.queued = []
  · have same : m.landed = m.next := by rw [Move.landed, quiet]; rfl
    rw [same]
    exact h.kept
  · have pending : m.landed.schedule.pending = m.queued := by
      rw [h.pending_landed, h.dry quiet, List.nil_append]
    have drained := (Schedule.isDrained_iff_pending h.kept.consistent).2 (h.dry quiet)
    have fits := h.fits
    refine ⟨h.kept.consistent.extend _, ?_, h.kept.decoded, ?_, ?_⟩
    · have filled := Schedule.toNat_filled_extend_of_isDrained h.kept.consistent drained quiet
        (by omega)
      rw [Move.landed, filled]
      exact fits
    · rw [pending]
      exact h.last
    · rw [pending]
      exact h.indexed

end Move.Orderly

/-! ## Every piece of work lands in order -/

namespace Orderly

variable {c d : Processor}

/-- Only the schedule and the instruction matter. -/
theorem of_same (h : Orderly c) (schedule : d.schedule = c.schedule)
    (instruction : d.instruction = c.instruction) : Orderly d where
  consistent := by rw [schedule]; exact h.consistent
  room := by rw [schedule]; exact h.room
  decoded := by rw [instruction]; exact h.decoded
  last := by rw [schedule, instruction]; exact h.last
  indexed := by rw [schedule, instruction]; exact h.indexed

theorem advance (h : Orderly c) : Orderly { c with schedule := c.schedule.advance } where
  consistent := h.consistent.advance
  room := by
    have room := h.room
    rw [← Schedule.filled_advance] at room
    exact room
  decoded := h.decoded
  last := by
    have last := h.last.tail
    rw [← Schedule.pending_advance h.consistent] at last
    exact last
  indexed := fun mem => by
    rw [Schedule.pending_advance h.consistent] at mem
    exact h.indexed (List.mem_of_mem_tail mem)

/-- An empty schedule is in order. -/
theorem of_dry (h : Orderly c) (schedule : d.schedule = c.schedule.clear)
    (instruction : d.instruction = c.instruction) : Orderly d where
  consistent := by rw [schedule]; exact Schedule.consistent_clear _
  room := by rw [schedule]; exact Nat.zero_le _
  decoded := by rw [instruction]; exact h.decoded
  last := by rw [schedule]; intro op mem; cases mem
  indexed := by rw [schedule]; intro mem; cases mem

end Orderly

namespace Processor

@[simp] theorem instruction_act (c : Processor) (action : Action) :
    (c.act action).next.instruction = c.instruction := by
  rw [act_eq]

/-- An effect adds plain steps, and only if the instruction is one that does. -/
theorem growth_fits (c : Processor) :
    Plain c.instruction c.growth ∧ c.growth.length ≤ 18 ∧
      (c.growth ≠ [] → (MicroOp.action .operate).queues c.instruction = true) := by
  unfold growth
  split
  · next op =>
    split
    · exact ⟨by simp [Plain, MicroOp.queues], by decide, fun _ => by simp [MicroOp.queues, op]⟩
    · exact ⟨by simp [Plain], by decide, fun busy => absurd rfl busy⟩
  · next stack op =>
    have length := length_pushProgram_le stack (Word.low c.data)
    exact ⟨plain_pushes _ _, by omega, fun _ => by simp [MicroOp.queues, op]⟩
  · next stack op =>
    have length := length_pullProgram_le stack (Word.low c.data)
    exact ⟨plain_pullProgram _ _, by omega, fun _ => by simp [MicroOp.queues, op]⟩
  · next op =>
    refine ⟨plain_unwind _, ?_, fun _ => by simp [MicroOp.queues, op]⟩
    cases c.regs.cc.entire <;> decide
  · exact ⟨by simp [Plain], by decide, fun busy => absurd rfl busy⟩

/-- Only the actions that queue steps add any. -/
theorem queues_of_act {c : Processor} {action : Action} (busy : (c.act action).queued ≠ []) :
    (MicroOp.action action).queues c.instruction = true := by
  cases action with
  | operate => exact (growth_fits c).2.2 busy
  | vector which => rfl
  | _ => exact absurd rfl busy

/-- An action lands in order: if it adds steps, it was the last one pending. -/
theorem orderly_act {c : Processor} {action : Action} {rest : List MicroOp} (h : Orderly c)
    (pending : c.schedule.pending = .action action :: rest) :
    ({ c with schedule := c.schedule.advance }.act action).Orderly := by
  have kept : Orderly ({ c with schedule := c.schedule.advance }.act action).next :=
    h.advance.of_same (schedule_act _ _) (instruction_act _ _)
  by_cases quiet : ({ c with schedule := c.schedule.advance }.act action).queued = []
  · exact .of_quiet kept quiet
  · have queues := queues_of_act quiet
    have last := h.last
    rw [pending] at last
    have dry : c.schedule.advance.pending = [] := by
      rw [Schedule.pending_advance h.consistent, pending, List.tail_cons]
      exact last.rest_eq_nil queues
    refine .of_plain kept (by rw [schedule_act]; exact dry) ?_ ?_
    · rw [instruction_act]
      cases action with
      | operate => exact (growth_fits _).1
      | vector which => exact plain_takeVector
      | _ => exact absurd rfl quiet
    · cases action with
      | operate => exact (growth_fits _).2.1
      | vector which => exact (by decide : (MicroOp.cycle .dummy :: vectorFetch).length ≤ 18)
      | _ => exact absurd rfl quiet

/-- Serving an interrupt on an empty schedule lands in order. -/
theorem orderly_serve {c : Processor} {m : Move} (h : Orderly c)
    (dry : c.schedule.pending = []) (served : c.serve? = some m) : m.Orderly := by
  obtain ⟨schedule, instruction, queued⟩ := serve?_eq_some served
  refine .of_plain (h.of_same schedule instruction) (by rw [schedule]; exact dry) ?_ ?_
  · rw [queued]
    exact plain_takeVector
  · rw [queued]
    decide

/-- So does each phase that goes on by itself. -/
theorem orderly_phaseMove {c : Processor} {m : Move} (h : Orderly c)
    (dry : c.schedule.pending = []) (due : c.phaseMove? = some m) : m.Orderly := by
  unfold phaseMove? at due
  split at due
  -- reset
  · cases due
    exact .of_quiet (h.of_dry rfl rfl) rfl
  -- resetHold
  · split at due
    · cases due
    · cases due
      exact .of_plain (h.of_same rfl rfl) dry plain_vectorFetch
        (by decide : vectorFetch.length ≤ 18)
  -- boundary
  · split at due
    · cases due
    · cases due
      exact .of_quiet (h.of_same rfl rfl) rfl
  -- arbitration
  · split at due
    · next interrupt _ =>
      cases due
      refine .of_plain (h.of_same rfl rfl) dry ?_ ?_
      · exact Plain.append (by simp [Plain, MicroOp.queues]) (plain_frame _)
      · have length := length_frame_le interrupt.stacksEntire
        exact Nat.le_trans (Nat.add_le_add_right length 2) (by decide)
    · cases due
      -- The opcode fetch queues more, and is alone.
      exact ⟨h.of_same rfl rfl, (by decide : 1 ≤ 18), fun _ => dry,
        (by intro op mem; cases mem), fun mem => absurd mem fetchPostbyte_not_mem_fetchOpcode⟩
  -- execution
  · cases due
    exact .of_quiet (h.of_same rfl rfl) rfl
  -- dispatch
  · cases served : c.serve? with
    | some m' =>
      rw [served] at due
      cases due
      exact orderly_serve h dry served
    | none =>
      rw [served] at due
      cases due
      exact .of_quiet (h.of_same rfl rfl) rfl
  -- the waits and the lock make no move
  all_goals cases due

/-- Every move lands in order. -/
theorem orderly_move {c : Processor} {m : Move} (h : Orderly c) (due : c.move? = some m) :
    m.Orderly := by
  rcases move?_cases h.consistent due with ⟨action, rest, pending, rfl⟩ | ⟨dry, phase⟩
  · exact orderly_act h pending
  · exact orderly_phaseMove h dry phase

/-- What the byte of an access does lands in order. -/
theorem orderly_absorb {c : Processor} {cycle : BusCycle} (h : Orderly c) (byte : Byte)
    (due : c.due? = some cycle) :
    ({ c.clocked with schedule := c.schedule.advance }.absorb byte cycle).Orderly := by
  obtain ⟨rest, pending⟩ := (due?_eq_some_iff h.consistent).1 due
  have last := h.last
  rw [pending] at last
  have advanced : c.schedule.advance.pending = rest := by
    rw [Schedule.pending_advance h.consistent, pending, List.tail_cons]
  have start : Orderly { c.clocked with schedule := c.schedule.advance } :=
    h.advance.of_same rfl rfl
  cases cycle with
  | fetchOpcode =>
    have dry : c.schedule.advance.pending = [] := by
      rw [advanced]
      exact last.rest_eq_nil rfl
    rw [absorb, absorbOpcode]
    split
    · exact ⟨start.of_same rfl rfl, (by decide : 1 ≤ 18), fun _ => dry,
        (by intro op mem; cases mem), fun mem => absurd mem fetchPostbyte_not_mem_fetchOpcode⟩
    · -- The instruction changes here, and nothing of the old one is pending.
      have laid := Instruction.laidOut_decode c.page byte
      have room := start.room
      refine ⟨⟨start.consistent, room, ⟨c.page, byte, rfl⟩, ?_, ?_⟩, laid.length, fun _ => dry,
        laid.program, laid.indexed⟩
      · intro op mem
        have empty : op ∈ c.schedule.advance.pending.dropLast := mem
        rw [dry] at empty
        cases empty
      · intro mem
        have empty : .cycle .fetchPostbyte ∈ c.schedule.advance.pending := mem
        rw [dry] at empty
        cases empty
  | fetchPostbyte =>
    have dry : c.schedule.advance.pending = [] := by
      rw [advanced]
      exact last.rest_eq_nil rfl
    have indexed : c.instruction.mode = .indexed := h.indexed (by
      rw [pending]
      exact List.mem_cons_self)
    obtain ⟨page, opcode, decoded⟩ := h.decoded
    have laid := Instruction.laidOut_decode page opcode
    rw [decoded] at laid
    refine ⟨start.of_same rfl rfl, ?_, fun _ => dry, ?_, fun _ => indexed⟩
    · have address := length_indexProgram_le byte
      have body := laid.lengthBody indexed
      change (IndexForm.program byte ++ c.instruction.body).length ≤ 18
      rw [List.length_append]
      omega
    · exact OnlyLastQueues.behind (plain_indexProgram byte) (laid.body indexed)
  | _ => exact .of_quiet (start.of_same rfl rfl) rfl

/-! ## Every processor on the way is orderly -/

theorem orderly_movesTo {n : Nat} {c d : Processor} (h : Orderly c) (chain : MovesTo n c d) :
    Orderly d :=
  chain.preserves (fun orderly due => (orderly_move orderly due).landed) h

theorem orderly_settle {c : Processor} (h : Orderly c) : Orderly c.settle.state :=
  settle_preserves (fun orderly due => (orderly_move orderly due).landed) h

theorem orderly_wake {c : Processor} {m : Move} (h : Orderly c) (due : c.wake? = some m) :
    m.Orderly := by
  obtain ⟨current, _, _, served⟩ := wake?_eq_some due
  exact orderly_serve h (pending_eq_nil_of_current h.consistent current) served

theorem orderly_ready {c : Processor} (h : Orderly c) : Orderly c.ready := by
  have prepared : Orderly c.prepare.state := by
    rcases prepare_cases c with ⟨_, same⟩ | ⟨m, wake, woken⟩
    · rw [same]
      exact orderly_settle h
    · rw [woken]
      exact (orderly_wake (orderly_settle h) wake).landed
  exact prepared.of_same (schedule_announce _) (by rw [ready, announce_eq])

theorem orderly_carryOut {c : Processor} {cycle : BusCycle} (h : Orderly c) (byte : Byte)
    (due : c.due? = some cycle) : Orderly (c.carryOut cycle byte) :=
  (orderly_absorb h byte due).landed

theorem orderly_complete {c : Processor} (h : Orderly c) (byte : Byte) :
    Orderly (c.complete byte).state := by
  unfold complete
  cases due : c.due? with
  | some cycle => exact orderly_settle (orderly_carryOut h byte due)
  | none => exact h.of_same (schedule_idled c) (by rw [idled_eq])

/-- Jumping elsewhere schedules one step, on a schedule that was just cleared. -/
theorem orderly_setPc {c : Processor} (h : Orderly c) (pc : Word) : Orderly (c.setPc pc) := by
  have jump : Move.Orderly
      { next := { c.setPc pc with schedule := c.schedule.clear }
        queued := [.cycle .fetchOpcode] } :=
    ⟨h.of_dry rfl rfl, (by decide : 1 ≤ 18), fun _ => rfl, (by intro op mem; cases mem),
      fun mem => absurd mem fetchPostbyte_not_mem_fetchOpcode⟩
  exact jump.landed

theorem orderly_call {c : Processor} (h : Orderly c) (call : HostCall) :
    Orderly (call.apply c) := by
  cases call with
  | drive levels => exact h.of_same rfl rfl
  | reset => exact h.of_dry rfl rfl
  | setPc pc => exact orderly_setPc h pc
  | registers regs => exact h.of_same rfl rfl

theorem orderly_powerOn : Orderly .powerOn where
  consistent := by decide
  room := by decide
  decoded := ⟨0, 0x12, by decide⟩
  last := by decide
  indexed := by decide

end Processor

/-- Every reachable processor is orderly. -/
theorem Reachable.orderly {allowed : HostCall → Prop} {c : Processor}
    (reachable : Reachable allowed c) : Orderly c :=
  reachable.preserves Processor.orderly_powerOn Processor.orderly_ready
    (fun byte h => Processor.orderly_complete (Processor.orderly_ready h) byte)
    (fun call _ h => Processor.orderly_call h call)

theorem Reachable.consistent {allowed : HostCall → Prop} {c : Processor}
    (reachable : Reachable allowed c) : c.schedule.Consistent :=
  reachable.orderly.consistent

/-! ## Between two clocks, no action is left waiting -/

/-- The step to run next, if there is one, is a bus cycle. -/
def Resting (c : Processor) : Prop := ∀ op, c.schedule.current = some op → op.usesBus = true

theorem resting_of_move? {c : Processor} (still : c.move? = none) : Resting c := by
  intro op current
  cases op with
  | cycle cycle => rfl
  | action action =>
    rw [Processor.move?, current] at still
    cases still

theorem resting_ready {c : Processor} (h : c.schedule.Consistent) : Resting c.ready := by
  have prepared := resting_of_move? (Processor.move?_prepare h)
  intro op current
  rw [Processor.ready, Processor.schedule_announce] at current
  exact prepared op current

theorem resting_complete {c : Processor} (h : c.schedule.Consistent) (resting : Resting c)
    (byte : Byte) : Resting (c.complete byte).state := by
  unfold Processor.complete
  cases due : c.due? with
  | some cycle =>
    exact resting_of_move? (Processor.move?_settle (Processor.consistent_carryOut h _ _))
  | none =>
    intro op current
    rw [Processor.schedule_idled] at current
    exact resting op current

theorem resting_call {c : Processor} (resting : Resting c) (call : HostCall) :
    Resting (call.apply c) := by
  cases call with
  | drive levels => exact resting
  | registers regs => exact resting
  | reset => exact fun op current => by cases current
  | setPc pc =>
    intro op current
    have consistent : (c.setPc pc).schedule.Consistent :=
      (Schedule.consistent_clear c.schedule).push _
    change (c.setPc pc).schedule.current = some op at current
    rw [Schedule.current_eq_head? consistent, Processor.pending_setPc] at current
    cases current
    rfl

theorem Reachable.resting {allowed : HostCall → Prop} {c : Processor}
    (reachable : Reachable allowed c) : Resting c := by
  have both : Orderly c ∧ Resting c := by
    refine reachable.preserves (P := fun c => Orderly c ∧ Resting c) ?_ ?_ ?_ ?_
    · exact ⟨Processor.orderly_powerOn, fun op current => by cases current⟩
    · intro c h
      exact ⟨Processor.orderly_ready h.1, resting_ready h.1.consistent⟩
    · intro c byte h
      have ready := Processor.orderly_ready h.1
      exact ⟨Processor.orderly_complete ready byte,
        resting_complete ready.consistent (resting_ready h.1.consistent) byte⟩
    · intro c call _ h
      exact ⟨Processor.orderly_call h.1 call, resting_call h.2 call⟩
  exact both.2

/-! ## The pushes of a clock -/

/-- A piece of work in order: the step at the head of the schedule is used up, what
the work queues comes next, and each push finds a slot. -/
structure InOrder (d : Processor) (m : Move) : Prop where
  /-- A step that may queue others is the only one pending. -/
  alone : ∀ op rest, d.schedule.pending = op :: rest → op.queues d.instruction = true → rest = []
  /-- Only such a step does, so what is queued meets an empty schedule. -/
  empty : m.queued ≠ [] → d.schedule.pending.tail = []
  /-- The head is used up, the others stay, and what is queued follows. -/
  pending : m.landed.schedule.pending = d.schedule.pending.tail ++ m.queued
  /-- The slots in use when each step is pushed. -/
  room : ∀ j < m.queued.length, (m.next.schedule.extend (m.queued.take j)).used < 18
  /-- The slots filled, before and after. -/
  bound : d.schedule.filled.toNat ≤ 18 ∧ m.landed.schedule.filled.toNat ≤ 18

theorem inOrder_of_orderly {d : Processor} {m : Move} (h : Orderly d) (move : m.Orderly)
    (used : m.next.schedule.pending = d.schedule.pending.tail) : InOrder d m where
  alone := by
    intro op rest pending queues
    have last := h.last
    rw [pending] at last
    exact last.rest_eq_nil queues
  empty := by
    intro busy
    rw [← used]
    exact move.dry busy
  pending := by rw [move.pending_landed, used]
  room := by
    intro j lt
    have fits := move.fits
    rw [move.used_take lt]
    omega
  bound := ⟨h.room, move.landed.room⟩

namespace Processor

/-- A move uses up the action it stands for; a phase goes on when there is none. -/
theorem pending_of_move {d : Processor} {m : Move} (h : Orderly d) (due : d.move? = some m) :
    m.next.schedule.pending = d.schedule.pending.tail := by
  rcases move?_cases h.consistent due with ⟨action, rest, pending, rfl⟩ | ⟨dry, phase⟩
  · rw [schedule_act]
    exact Schedule.pending_advance h.consistent
  · rw [dry, List.tail_nil]
    rcases (phaseMove_progress phase).1 with same | cleared
    · rw [same, dry]
    · rw [cleared, Schedule.pending_clear]

/-- Every turn of a clock is in order. -/
theorem inOrder_turn {c d : Processor} {m : Move} (h : Orderly c) (turn : Turn c d m) :
    InOrder d m := by
  cases turn with
  | before chain due =>
    have orderly := orderly_movesTo h chain
    exact inOrder_of_orderly orderly (orderly_move orderly due) (pending_of_move orderly due)
  | wake due =>
    have orderly := orderly_settle h
    obtain ⟨current, _, _, served⟩ := wake?_eq_some due
    refine inOrder_of_orderly orderly (orderly_wake orderly due) ?_
    rw [(serve?_eq_some served).1, pending_eq_nil_of_current orderly.consistent current,
      List.tail_nil]
  | access byte due =>
    have orderly := orderly_ready h
    refine inOrder_of_orderly orderly (orderly_absorb orderly byte due) ?_
    rw [schedule_absorb]
    exact Schedule.pending_advance orderly.consistent
  | after access chain due =>
    have orderly := orderly_movesTo (orderly_carryOut (orderly_ready h) _ access) chain
    exact inOrder_of_orderly orderly (orderly_move orderly due) (pending_of_move orderly due)

end Processor

/-- **No step is lost or runs out of order.** Between two clocks of a reachable
processor the next step is a bus cycle. During a clock, every piece of work uses up
the head of the schedule and adds its steps behind nothing, each into a free slot; so
does a jump from outside. -/
theorem steps_run_in_order {c : Processor} (reachable : Reachable anyCall c) :
    Resting c ∧ (∀ d m, Processor.Turn c d m → InOrder d m) ∧
      ∀ pc, c.schedule.clear.used = 0 ∧ (c.setPc pc).schedule.pending = [.cycle .fetchOpcode] :=
  ⟨reachable.resting, fun _ _ turn => Processor.inOrder_turn reachable.orderly turn,
    fun pc => ⟨rfl, c.pending_setPc pc⟩⟩

/-- The longest program there is: the opcode of CWAI, read after a jump, queues
eighteen steps. -/
theorem steps_run_in_order_cwai :
    ∃ m, Processor.Turn (Processor.powerOn.setPc 0x1000) (Processor.powerOn.setPc 0x1000).ready m ∧
      m.queued.length = 18 ∧ InOrder (Processor.powerOn.setPc 0x1000).ready m :=
  have reachable : Reachable anyCall (Processor.powerOn.setPc 0x1000) :=
    .call (.setPc 0x1000) trivial .powerOn
  have turn := @Processor.Turn.access (Processor.powerOn.setPc 0x1000) .fetchOpcode 0x3C (by decide)
  ⟨_, turn, by decide, (steps_run_in_order reachable).2.1 _ _ turn⟩

end Sim6809
