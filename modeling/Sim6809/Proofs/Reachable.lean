/-
Reachable processors: all that can come out of power-on.

Two things change a processor: a clock, on whatever bus and under whatever monitor,
and a call from outside between two clocks. Statements differ in the calls they
allow, so `Reachable` takes them as a parameter. Saved states are covered too: taking
up one that was reachable when it was saved is a way of being reachable.

What a clock does to the processor is said once, in `clock_cases`: it holds, and the
bus is not touched, or the access of the prepared processor is made. The bus and the
monitor then disappear from the argument, because the processor only meets one byte
(`Reachable.preserves`).
-/
import Sim6809.Board
import Sim6809.Proofs.Settling

set_option autoImplicit false

namespace Sim6809

/-- What can be done to a processor from outside, between two clocks. -/
inductive HostCall
  /-- All four inputs are driven. To change one is to drive the others as they are. -/
  | drive (levels : Levels)
  | reset
  | setPc (pc : Word)
  /-- The registers are public, and writing them has no other effect. -/
  | registers (regs : RegisterFile)

namespace Processor

/-- The processor with its inputs driven to these levels. -/
def withLevels (c : Processor) (levels : Levels) : Processor :=
  c.drive fun inputs => { inputs with live := levels }

/-- The processor as it stands right before its next access. -/
def ready (c : Processor) : Processor := c.prepare.state.announce

theorem consistent_ready {c : Processor} (h : c.schedule.Consistent) :
    c.ready.schedule.Consistent := by
  rw [ready, schedule_announce]
  exact consistent_prepare h

/-- After a jump the opcode fetch is all that is pending. -/
theorem pending_setPc (c : Processor) (pc : Word) :
    (c.setPc pc).schedule.pending = [.cycle .fetchOpcode] :=
  Schedule.pending_extend_of_isDrained (Schedule.consistent_clear c.schedule) rfl
    [.cycle .fetchOpcode] (by decide)

end Processor

namespace HostCall

/-- Does the call. -/
def apply (call : HostCall) (c : Processor) : Processor :=
  match call with
  | drive levels => c.withLevels levels
  | reset => c.reset
  | setPc pc => c.setPc pc
  | registers regs => { c with regs := regs }

end HostCall

/-! ## One clock -/

namespace Board

variable {β σ : Type}

/-- A clock holds before its access, or makes it. Notes aside, this is all there is
to know about it. -/
theorem clock_cases [Bus β] (m : Monitor σ) (b : Board β σ) :
    (b.cpu.prepare.state.asksFirst = true ∧
        ∃ notes, clock m b = (.held, ⟨b.cpu.ready, b.bus, notes⟩)) ∨
      ∃ notes, clock m b =
        (.cycle, ⟨(b.cpu.ready.complete (b.cpu.ready.access.perform b.bus).1).state,
          (b.cpu.ready.access.perform b.bus).2, notes⟩) := by
  obtain ⟨cpu, bus, notes⟩ := b
  cases asks : cpu.prepare.state.asksFirst with
  | true =>
    cases answer : m.ask cpu.prepare.state.regs (m.hearAll notes cpu.prepare.reports) with
    | mk verdict heard =>
      cases verdict with
      | hold =>
        refine Or.inl ⟨rfl, heard, ?_⟩
        simp only [clock, asks, answer, if_true, Processor.ready]
      | proceed =>
        refine Or.inr ⟨(exchange m ⟨cpu.ready, bus, heard⟩).notes, ?_⟩
        simp only [clock, asks, answer, if_true, exchange, Processor.ready]
        rfl
  | false =>
    have quiet : cpu.ready = cpu.prepare.state := Processor.announce_of_unasked asks
    refine Or.inr ⟨(exchange m ⟨cpu.ready, bus, m.hearAll notes cpu.prepare.reports⟩).notes, ?_⟩
    simp only [clock, asks, exchange, quiet]
    rfl

/-- A clock that is not held makes its access. -/
theorem clock_of_made [Bus β] {m : Monitor σ} {b : Board β σ} (made : (clock m b).1 = .cycle) :
    ∃ notes, clock m b =
      (.cycle, ⟨(b.cpu.ready.complete (b.cpu.ready.access.perform b.bus).1).state,
        (b.cpu.ready.access.perform b.bus).2, notes⟩) := by
  rcases clock_cases m b with ⟨_, notes, held⟩ | outcome
  · rw [held] at made
    cases made
  · exact outcome

end Board

namespace Board

variable {β σ : Type}

/-- The board with its inputs driven to these levels. -/
def withLevels (levels : Levels) (b : Board β σ) : Board β σ :=
  { b with cpu := b.cpu.withLevels levels }

theorem withLevels_live (b : Board β σ) : b.withLevels b.cpu.inputs.live = b := rfl

/-- A run during which the inputs may change before every clock: one clock for each
entry, with the inputs at those levels. -/
def clocks [Bus β] (m : Monitor σ) : List Levels → Board β σ → Board β σ
  | [], b => b
  | levels :: more, b => clocks m more (tick m (b.withLevels levels))

theorem clocks_append [Bus β] (m : Monitor σ) (lines more : List Levels) (b : Board β σ) :
    clocks m (lines ++ more) b = clocks m more (clocks m lines b) := by
  induction lines generalizing b with
  | nil => rfl
  | cons levels lines ih => exact ih (tick m (b.withLevels levels))

end Board

/-! ## Runs from power-on -/

/-- The processors that clocks and the allowed calls lead to. -/
inductive Reachable (allowed : HostCall → Prop) : Processor → Prop
  | powerOn : Reachable allowed .powerOn
  | clock {β σ : Type} [Bus β] (m : Monitor σ) (b : Board β σ) (before : Reachable allowed b.cpu) :
      Reachable allowed (Board.clock m b).2.cpu
  | call {c : Processor} (call : HostCall) (allow : allowed call) (before : Reachable allowed c) :
      Reachable allowed (call.apply c)
  | restore {c saved d : Processor} (before : Reachable allowed c)
      (earlier : Reachable allowed saved) (accepted : saved.restore = .ok d) : Reachable allowed d

/-- Every call. -/
def anyCall : HostCall → Prop := fun _ => True

namespace Reachable

variable {allowed : HostCall → Prop}

/-- An invariant of every reachable processor has to survive a clock that holds, one
that makes an access, whatever byte it meets, and the allowed calls. -/
theorem preserves {P : Processor → Prop} (powerOn : P .powerOn)
    (held : ∀ {c : Processor}, P c → P c.ready)
    (cycle : ∀ {c : Processor} (byte : Byte), P c → P (c.ready.complete byte).state)
    (call : ∀ {c : Processor} (call : HostCall), allowed call → P c → P (call.apply c))
    {c : Processor} (reachable : Reachable allowed c) : P c := by
  induction reachable with
  | powerOn => exact powerOn
  | clock m b _ ih =>
    rcases Board.clock_cases m b with ⟨_, notes, outcome⟩ | ⟨notes, outcome⟩
    · rw [outcome]
      exact held ih
    · rw [outcome]
      exact cycle _ ih
  | call host allow _ ih => exact call host allow ih
  | restore _ _ accepted _ ih =>
    obtain ⟨_, rfl⟩ := Processor.restore_eq_ok_iff.1 accepted
    exact ih

end Reachable

end Sim6809
