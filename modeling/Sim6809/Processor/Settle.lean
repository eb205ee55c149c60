/-
Moves run out: `settle` leaves a processor with an access due.

The processor may make moves as long as it likes before the next access, so it has
to be shown that it comes to one. What decreases is not the number of pending steps
alone, because moves also add steps. But what a move adds starts with a bus cycle,
at which the moves stop, so only the actions that are already pending count. Once
they are used up the phase goes on by itself, at most three times, since each phase
that does leads to a later one. The main statement is `move?_settle`.
-/
import Sim6809.Processor.Cycle
import Sim6809.Schedule.Pending

set_option autoImplicit false

namespace Sim6809

/-- How many phases can follow one another before a bus cycle is scheduled. -/
def Phase.rank : Phase → Nat
  | execution => 3
  | boundary | reset => 2
  | arbitration | resetHold | dispatch => 1
  | cwaiWait | syncWait | syncHold | locked => 0

namespace Processor

/-- How many moves can be made before a bus cycle, with these steps pending and any
phase at their end. -/
def movesBefore : List MicroOp → Nat
  | [] => 3
  | .cycle _ :: _ => 0
  | .action _ :: rest => movesBefore rest + 1

/-- How many moves can be made before a bus cycle. -/
def work (c : Processor) : Nat :=
  if c.schedule.pending = [] then c.phase.rank else movesBefore c.schedule.pending

/-- Steps that can be added without adding a move: none, or a bus cycle first. -/
def StartsWithCycle (ops : List MicroOp) : Prop :=
  ops = [] ∨ ∃ cycle rest, ops = .cycle cycle :: rest

theorem rank_le_three (phase : Phase) : phase.rank ≤ 3 := by
  cases phase <;> decide

theorem work_le_movesBefore (c : Processor) : c.work ≤ movesBefore c.schedule.pending := by
  unfold work
  split
  · next dry => rw [dry]; exact rank_le_three c.phase
  · exact Nat.le_refl _

theorem movesBefore_le_length (ops : List MicroOp) : movesBefore ops ≤ ops.length + 3 := by
  induction ops with
  | nil => exact Nat.le_refl _
  | cons op ops ih =>
    cases op with
    | cycle cycle => exact Nat.zero_le _
    | action action =>
      rw [movesBefore, List.length_cons]
      omega

theorem StartsWithCycle.take {ops : List MicroOp} (h : StartsWithCycle ops) (k : Nat) :
    StartsWithCycle (ops.take k) := by
  rcases h with rfl | ⟨cycle, rest, rfl⟩
  · exact Or.inl List.take_nil
  · cases k with
    | zero => exact Or.inl rfl
    | succ k => exact Or.inr ⟨cycle, rest.take k, rfl⟩

/-- Adding steps that start with a bus cycle adds no move. -/
theorem movesBefore_append_le (ops : List MicroOp) {more : List MicroOp}
    (h : StartsWithCycle more) : movesBefore (ops ++ more) ≤ movesBefore ops := by
  induction ops with
  | nil =>
    rcases h with rfl | ⟨cycle, rest, rfl⟩
    · exact Nat.le_refl _
    · exact Nat.zero_le _
  | cons op ops ih =>
    cases op with
    | cycle cycle => exact Nat.le_refl _
    | action action => exact Nat.succ_le_succ ih

/-! ## What a move adds -/

theorem startsWithCycle_growth (c : Processor) : StartsWithCycle c.growth := by
  have map_cycle : ∀ (make : Part → BusCycle) (parts : List Part),
      StartsWithCycle (parts.map fun part => .cycle (make part)) := by
    intro make parts
    cases parts with
    | nil => exact Or.inl rfl
    | cons part parts => exact Or.inr ⟨_, _, rfl⟩
  unfold growth
  split
  · split
    · exact Or.inr ⟨_, _, rfl⟩
    · exact Or.inl rfl
  · exact map_cycle _ _
  · -- PUL ends in a read, so its steps start with a cycle even if the list is empty.
    next stack _ =>
    rcases map_cycle (BusCycle.pull stack)
      (RegisterList.selected (RegisterList.pullOrder stack) (Word.low c.data)) with
        none | ⟨cycle, rest, some⟩
    · rw [RegisterList.pullProgram, none]
      exact Or.inr ⟨_, _, rfl⟩
    · rw [RegisterList.pullProgram, some]
      exact Or.inr ⟨_, _, rfl⟩
  · cases c.regs.cc.entire
    · exact Or.inr ⟨_, _, rfl⟩
    · exact Or.inr ⟨_, _, rfl⟩
  · exact Or.inl rfl

theorem startsWithCycle_act (c : Processor) (action : Action) :
    StartsWithCycle (c.act action).queued := by
  cases action with
  | operate => exact startsWithCycle_growth c
  | vector which => exact Or.inr ⟨_, _, rfl⟩
  | _ => exact Or.inl rfl

@[simp] theorem schedule_setFlags (c : Processor) (cc : ConditionCodes) :
    (c.setFlags cc).schedule = c.schedule := rfl

@[simp] theorem schedule_loadRegister (c : Processor) (register : WordRegister) (value : Word) :
    (c.loadRegister register value).schedule = c.schedule := rfl

@[simp] theorem schedule_transfer (c : Processor) (code : Byte) (value : Word) :
    (c.transfer code value).schedule = c.schedule := rfl

@[simp] theorem schedule_goTo (c : Processor) (pc : Word) :
    (c.goTo pc).schedule = c.schedule := rfl

/-- The effect of an instruction leaves the schedule alone; `growth` is apart. -/
@[simp] theorem schedule_effect (c : Processor) : c.effect.schedule = c.schedule := by
  unfold effect
  dsimp only
  split <;> (try split) <;> simp

@[simp] theorem schedule_act (c : Processor) (action : Action) :
    (c.act action).next.schedule = c.schedule := by
  cases action <;> simp [act, takeVector, enter]

/-- A phase that goes on by itself leaves a dry schedule dry, before steps are
added, and comes to a later phase or adds a bus cycle first. -/
theorem phaseMove_progress {c : Processor} {m : Move} (h : c.phaseMove? = some m) :
    (m.next.schedule = c.schedule ∨ m.next.schedule = c.schedule.clear) ∧
      (m.queued = [] ∧ m.next.phase.rank < c.phase.rank ∨
        0 < c.phase.rank ∧ ∃ cycle rest, m.queued = .cycle cycle :: rest) := by
  unfold phaseMove? at h
  split at h <;> rename_i phase <;> rw [phase]
  -- reset
  · cases h
    exact ⟨Or.inr rfl, Or.inl ⟨rfl, (by decide : Phase.rank .resetHold < Phase.rank .reset)⟩⟩
  -- resetHold
  · split at h
    · cases h
    · cases h
      exact ⟨Or.inl rfl, Or.inr ⟨by decide, _, _, rfl⟩⟩
  -- boundary
  · split at h
    · cases h
    · cases h
      exact ⟨Or.inl rfl,
        Or.inl ⟨rfl, (by decide : Phase.rank .arbitration < Phase.rank .boundary)⟩⟩
  -- arbitration
  · split at h
    · cases h
      exact ⟨Or.inl rfl, Or.inr ⟨by decide, _, _, rfl⟩⟩
    · cases h
      exact ⟨Or.inl rfl, Or.inr ⟨by decide, _, _, rfl⟩⟩
  -- execution
  · cases h
    exact ⟨Or.inl rfl,
      Or.inl ⟨rfl, (by decide : Phase.rank .boundary < Phase.rank .execution)⟩⟩
  -- dispatch
  · unfold serve? at h
    cases recognised : HardwareInterrupt.recognised c.inputs.active c.regs.cc with
    | none =>
      rw [recognised] at h
      cases h
      exact ⟨Or.inl rfl,
        Or.inl ⟨rfl, (by decide : Phase.rank .cwaiWait < Phase.rank .dispatch)⟩⟩
    | some interrupt =>
      rw [recognised] at h
      cases h
      refine ⟨Or.inl ?_, Or.inr ⟨by decide, _, _, rfl⟩⟩
      cases interrupt <;> rfl
  -- the waits and the lock make no move
  all_goals cases h

/-! ## Every move leads on -/

/-- The two ways a move comes about: the next step is an action, or none is pending
and the phase goes on. -/
theorem move?_cases {c : Processor} {m : Move} (h : c.schedule.Consistent)
    (move : c.move? = some m) :
    (∃ action rest, c.schedule.pending = .action action :: rest ∧
        m = ({ c with schedule := c.schedule.advance }).act action) ∨
      c.schedule.pending = [] ∧ c.phaseMove? = some m := by
  unfold move? at move
  have head := Schedule.current_eq_head? h
  cases list : c.schedule.pending with
  | nil =>
    rw [head, list] at move
    exact Or.inr ⟨rfl, move⟩
  | cons op rest =>
    rw [head, list] at move
    cases op with
    | cycle cycle => cases move
    | action action =>
      cases move
      exact Or.inl ⟨action, rest, rfl, rfl⟩

theorem consistent_landed {c : Processor} {m : Move} (h : c.schedule.Consistent)
    (move : c.move? = some m) : m.landed.schedule.Consistent := by
  apply Schedule.Consistent.extend
  rcases move?_cases h move with ⟨action, rest, _, rfl⟩ | ⟨_, phase⟩
  · rw [schedule_act]
    exact h.advance
  · rcases (phaseMove_progress phase).1 with same | cleared
    · rw [same]
      exact h
    · rw [cleared]
      exact Schedule.consistent_clear c.schedule

/-- A move leaves fewer moves to make. -/
theorem work_landed_lt {c : Processor} {m : Move} (h : c.schedule.Consistent)
    (move : c.move? = some m) : m.landed.work < c.work := by
  rcases move?_cases h move with ⟨action, rest, list, rfl⟩ | ⟨dry, phase⟩
  · -- An action is one pending step less, and what it adds costs no move.
    have before : c.work = movesBefore rest + 1 := by
      rw [work, if_neg (by rw [list]; exact List.cons_ne_nil _ _), list, movesBefore]
    obtain ⟨k, taken, _⟩ := Schedule.pending_extend_take h.advance
      (({ c with schedule := c.schedule.advance }).act action).queued
    have after :
        (({ c with schedule := c.schedule.advance }).act action).landed.schedule.pending =
          rest ++ (({ c with schedule := c.schedule.advance }).act action).queued.take k := by
      rw [Move.landed, schedule_act]
      dsimp only
      rw [taken, Schedule.pending_advance h, list, List.tail_cons]
    refine Nat.lt_of_le_of_lt (work_le_movesBefore _) ?_
    rw [after, before]
    exact Nat.lt_succ_of_le
      (movesBefore_append_le rest ((startsWithCycle_act _ action).take k))
  · -- A phase either comes to a later one, or schedules a bus cycle, after which
    -- there is no move at all.
    have before : c.work = c.phase.rank := by rw [work, if_pos dry]
    obtain ⟨schedule, progress⟩ := phaseMove_progress phase
    have next_dry : m.next.schedule.pending = [] ∧ m.next.schedule.Consistent := by
      rcases schedule with same | cleared
      · rw [same]
        exact ⟨dry, h⟩
      · rw [cleared]
        exact ⟨rfl, Schedule.consistent_clear c.schedule⟩
    rw [before]
    rcases progress with ⟨quiet, later⟩ | ⟨positive, cycle, rest, busy⟩
    · have after : m.landed.schedule.pending = [] := by
        rw [Move.landed, quiet]
        exact next_dry.1
      rw [work, if_pos after]
      exact later
    · obtain ⟨k, taken, some⟩ := Schedule.pending_extend_take next_dry.2 m.queued
      have k_pos : 0 < k := some
        ((Schedule.isDrained_iff_pending next_dry.2).2 next_dry.1)
        (by rw [busy]; exact List.cons_ne_nil _ _)
      obtain ⟨j, rfl⟩ : ∃ j, k = j + 1 := ⟨k - 1, by omega⟩
      have after : m.landed.schedule.pending = .cycle cycle :: rest.take j := by
        rw [Move.landed]
        dsimp only
        rw [taken, next_dry.1, busy, List.take_succ_cons, List.nil_append]
      rw [work, if_neg (by rw [after]; exact List.cons_ne_nil _ _), after, movesBefore]
      exact positive

theorem work_le_remaining (c : Processor) (h : c.schedule.Consistent) :
    c.work ≤ c.schedule.remaining + 3 := by
  rw [← Schedule.length_pending h]
  exact Nat.le_trans (work_le_movesBefore c) (movesBefore_le_length _)

/-- Enough fuel makes every move. -/
theorem move?_settleWithin {fuel : Nat} {c : Processor} (h : c.schedule.Consistent)
    (enough : c.work ≤ fuel) : (settleWithin fuel c).state.move? = none := by
  induction fuel generalizing c with
  | zero =>
    cases move : c.move? with
    | none => exact move
    | some m => exact absurd (work_landed_lt h move) (by omega)
  | succ fuel ih =>
    rw [settleWithin]
    cases move : c.move? with
    | none => exact move
    | some m => exact ih (consistent_landed h move) (by have := work_landed_lt h move; omega)

/-- Moves run out: a settled processor has no move left to make. -/
theorem move?_settle {c : Processor} (h : c.schedule.Consistent) :
    c.settle.state.move? = none :=
  move?_settleWithin h (work_le_remaining c h)

theorem consistent_settleWithin {fuel : Nat} {c : Processor} (h : c.schedule.Consistent) :
    (settleWithin fuel c).state.schedule.Consistent := by
  induction fuel generalizing c with
  | zero => exact h
  | succ fuel ih =>
    rw [settleWithin]
    cases move : c.move? with
    | none => exact h
    | some m => exact ih (consistent_landed h move)

/-- Settling keeps a schedule consistent. -/
theorem consistent_settle {c : Processor} (h : c.schedule.Consistent) :
    c.settle.state.schedule.Consistent :=
  consistent_settleWithin h

end Processor

end Sim6809
