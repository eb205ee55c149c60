/-
Saving a state, and resuming from one that comes from outside.

`snapshot` saves a state field by field, and nothing of the processor is left out of it
(`snapshot_eq`).

Two things in a state from outside can be out of order: the schedule's cursor may lie outside the
schedule, and the opcode page may not exist. Every other field may hold any value
of its type, since the processor can run from all of them.

`restore` is the check, and `takeUp` what a processor with a state of its own does with
it: it takes up the saved one field by field, or keeps what it has (`takeUp_eq`).
-/
import Sim6809.Processor

set_option autoImplicit false

namespace Sim6809

/-- Why a state cannot be resumed from. -/
inductive RestoreError
  /-- The schedule's cursor or fill is out of range. -/
  | corruptSchedule
  /-- There is no such opcode page. -/
  | invalidPage (page : Byte)
deriving DecidableEq

/-- The error in words. -/
def RestoreError.message : RestoreError → String
  | corruptSchedule => "snapshot micro-op queue is corrupt"
  | invalidPage page => "snapshot opcode page " ++ page.toNat.repr ++ " is not 0, 2 or 3"

namespace Processor

/-! ## Saving -/

/-- The state to be saved. -/
def snapshot (c : Processor) : Processor where
  regs := c.regs
  inputs := c.inputs
  phase := c.phase
  schedule := c.schedule
  instruction := c.instruction
  page := c.page
  postbyte := c.postbyte
  ea := c.ea
  data := c.data
  result := c.result
  announced := c.announced
  cycles := c.cycles

/-- A saved state is the whole of it. -/
theorem snapshot_eq (c : Processor) : c.snapshot = c := rfl

/-! ## Resuming -/

/-- There is an opcode page of that number. -/
def ValidPage (page : Byte) : Prop := page = 0 ∨ page = 2 ∨ page = 3

instance (page : Byte) : Decidable (ValidPage page) := inferInstanceAs (Decidable (_ ∨ _))

/-- A state that can be resumed from. -/
def Resumable (c : Processor) : Prop := c.schedule.Consistent ∧ ValidPage c.page

/-- Checks a saved state. The schedule is looked at before the page. -/
def restore (saved : Processor) : Except RestoreError Processor :=
  if saved.schedule.Consistent then
    if ValidPage saved.page then .ok saved else .error (.invalidPage saved.page)
  else .error .corruptSchedule

/-- Takes up a saved state in place of the present one. Nothing is written before both
checks are passed. -/
def takeUp (saved : Processor) : ExceptT RestoreError (StateM Processor) Unit := do
  unless saved.schedule.Consistent do throw .corruptSchedule
  unless ValidPage saved.page do throw (.invalidPage saved.page)
  modify fun c => { c with regs := saved.regs }
  modify fun c => { c with inputs := saved.inputs }
  modify fun c => { c with phase := saved.phase }
  modify fun c => { c with schedule := saved.schedule }
  modify fun c => { c with instruction := saved.instruction }
  modify fun c => { c with page := saved.page }
  modify fun c => { c with postbyte := saved.postbyte }
  modify fun c => { c with ea := saved.ea }
  modify fun c => { c with data := saved.data }
  modify fun c => { c with result := saved.result }
  modify fun c => { c with announced := saved.announced }
  modify fun c => { c with cycles := saved.cycles }

theorem restore_eq_ok_iff {saved c : Processor} :
    saved.restore = .ok c ↔ saved.Resumable ∧ c = saved := by
  unfold restore Resumable
  by_cases consistent : saved.schedule.Consistent
  · by_cases page : ValidPage saved.page
    · simp [consistent, page, eq_comm]
    · simp [consistent, page]
  · simp [consistent]

/-- What passes the checks replaces everything, and what does not replaces nothing. -/
theorem takeUp_eq (saved c : Processor) :
    saved.takeUp c =
      match saved.restore with
      | .ok taken => (.ok (), taken)
      | .error e => (.error e, c) := by
  unfold takeUp restore
  by_cases consistent : saved.schedule.Consistent
  · by_cases page : ValidPage saved.page
    · rw [if_pos consistent, if_pos consistent, if_pos page, if_pos page]
      rfl
    · rw [if_pos consistent, if_pos consistent, if_neg page, if_neg page]
      rfl
  · rw [if_neg consistent, if_neg consistent]
    rfl

end Processor

end Sim6809
