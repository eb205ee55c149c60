/-
What a piece of work leaves alone.

A processor has twelve fields and every piece of work writes a few of them. Each
equation below names the fields that may change, by giving the result as an update of
the processor it started from; all that is not named is the same, and a statement
about such a field follows by rewriting. That is why there is one equation for each
piece of work here and not one for each piece and field.
-/
import Sim6809.Processor.Cycle

set_option autoImplicit false

namespace Sim6809.Processor

/-- An effect writes registers, the arming of NMI and the result latch. -/
theorem effect_eq (c : Processor) :
    c.effect = { c with
      regs := c.effect.regs, inputs := c.effect.inputs, result := c.effect.result } := by
  unfold effect
  dsimp only
  split <;> try rfl
  -- Some effects depend on a condition or a register.
  all_goals split <;> rfl

/-- So does an action, which may also form an address or leave the instruction. -/
theorem act_eq (c : Processor) (action : Action) :
    (c.act action).next = { c with
      regs := (c.act action).next.regs, inputs := (c.act action).next.inputs
      phase := (c.act action).next.phase, ea := (c.act action).next.ea
      result := (c.act action).next.result } := by
  cases action with
  | operate =>
    have next : (c.act .operate).next = c.effect := rfl
    rw [next, effect_eq c]
  | _ => rfl

/-- A byte read goes to the registers and the latches. -/
theorem absorb_eq (c : Processor) (byte : Byte) (cycle : BusCycle) :
    (c.absorb byte cycle).next = { c with
      regs := (c.absorb byte cycle).next.regs, inputs := (c.absorb byte cycle).next.inputs
      instruction := (c.absorb byte cycle).next.instruction
      page := (c.absorb byte cycle).next.page, postbyte := (c.absorb byte cycle).next.postbyte
      ea := (c.absorb byte cycle).next.ea, data := (c.absorb byte cycle).next.data
      announced := (c.absorb byte cycle).next.announced } := by
  cases cycle with
  | fetchOpcode =>
    rw [absorb, absorbOpcode]
    split <;> rfl
  | _ => rfl

/-- Only an opcode fetch changes the instruction, the page and the announcement. -/
theorem absorb_eq_of_ne_fetchOpcode (c : Processor) (byte : Byte) {cycle : BusCycle}
    (h : cycle ≠ .fetchOpcode) :
    (c.absorb byte cycle).next = { c with
      regs := (c.absorb byte cycle).next.regs, inputs := (c.absorb byte cycle).next.inputs
      postbyte := (c.absorb byte cycle).next.postbyte
      ea := (c.absorb byte cycle).next.ea, data := (c.absorb byte cycle).next.data } := by
  cases cycle with
  | fetchOpcode => exact absurd rfl h
  | _ => rfl

/-- Serving an interrupt sets masks, acknowledges NMI and points at the vector. -/
theorem serve?_eq {c : Processor} {m : Move} (served : c.serve? = some m) :
    m.next = { c with
      regs := m.next.regs, inputs := m.next.inputs, phase := m.next.phase
      ea := m.next.ea } := by
  unfold serve? at served
  cases recognised : HardwareInterrupt.recognised c.inputs.active c.regs.cc with
  | none =>
    rw [recognised] at served
    cases served
  | some interrupt =>
    rw [recognised] at served
    cases served
    cases interrupt <;> rfl

/-- A phase that goes on by itself leaves the instruction, its latches and the count
of cycles alone. -/
theorem phaseMove?_eq {c : Processor} {m : Move} (due : c.phaseMove? = some m) :
    m.next = { c with
      regs := m.next.regs, inputs := m.next.inputs, phase := m.next.phase
      schedule := m.next.schedule, page := m.next.page, ea := m.next.ea
      announced := m.next.announced } := by
  unfold phaseMove? at due
  split at due
  -- reset
  · cases due
    rfl
  -- resetHold
  · split at due <;> cases due
    rfl
  -- boundary
  · split at due <;> cases due
    rfl
  -- arbitration
  · split at due <;> cases due <;> rfl
  -- execution
  · cases due
    rfl
  -- dispatch
  · cases served : c.serve? with
    | some m' =>
      rw [served] at due
      cases due
      rw [Option.getD_some, serve?_eq served]
    | none =>
      rw [served] at due
      cases due
      rfl
  all_goals cases due

/-- An idle cycle moves the inputs on, and may leave SYNC. -/
theorem idled_eq (c : Processor) :
    c.idled.state = { c with
      inputs := c.inputs.cycle, cycles := c.cycles.next, phase := c.idled.state.phase } := by
  unfold idled
  dsimp only
  split
  · split
    · rfl
    · split <;> rfl
  · split <;> rfl
  · rfl

/-- Outside of SYNC it does no more than that. -/
theorem idled_of_awake {c : Processor} (awake : c.phase ≠ .syncWait ∧ c.phase ≠ .syncHold) :
    c.idled.state = c.clocked := by
  unfold idled
  dsimp only
  split
  · next phase => exact absurd phase awake.1
  · next phase => exact absurd phase awake.2
  · rfl

/-- An announcement is remembered, and nothing else. -/
theorem announce_eq (c : Processor) :
    c.announce = { c with announced := c.announce.announced } := by
  unfold announce
  split <;> rfl

theorem announce_of_asked {c : Processor} (asks : c.asksFirst = true) :
    c.announce = { c with announced := true } := by
  rw [announce, if_pos asks]

theorem announce_of_unasked {c : Processor} (unasked : c.asksFirst = false) : c.announce = c := by
  rw [announce, unasked]
  rfl

end Sim6809.Processor
