/-
Runs: what a call with a budget does, in terms of the clocks it makes.

`run` counts and stops, and both are bookkeeping. What a call has done is a number of
clocks that were made (`Board.Makes`), all that it had a budget for, or less and then one
that was held (`Board.run_cases`). A call with a larger budget goes on from there
(`Board.Makes.run`), which is why a run may be cut into pieces.

Two runs are compared by what a clock depends on. It is the bus, and the processor once it
is ready; notes have no part in it as long as nothing is held (`Board.alike_clock`).
-/
import Sim6809.Proofs.Scratch

set_option autoImplicit false

namespace Sim6809

/-- No call at all. -/
def noCall : HostCall → Prop := fun _ => False

namespace Board

variable {β σ σ' : Type} [Bus β] {m : Monitor σ} {m' : Monitor σ'} {b c : Board β σ}
  {b' : Board β σ'} {n : Nat}

/-! ## The first clock of a run -/

theorem clock_of_holds (held : holds m b = true) : clock m b = (.held, readied m b) := by
  rw [clock_eq, if_pos held]

theorem made_of_not_holds (free : holds m b = false) : (clock m b).1 = .cycle := by
  rw [clock_eq, free]
  rfl

/-- Cycles done before are counted in, and that is all they do. -/
theorem runOn_add_done (m : Monitor σ) (done more budget : Nat) (b : Board β σ) :
    runOn m (done + more) budget b =
      (⟨done + (runOn m more budget b).1.cycles, (runOn m more budget b).1.stop⟩,
        (runOn m more budget b).2) := by
  induction budget generalizing more b with
  | zero => rw [runOn_zero, runOn_zero]
  | succ budget ih =>
    rw [runOn_succ, runOn_succ]
    cases clock m b with
    | mk ended after =>
      cases ended with
      | held => rfl
      | cycle => exact ih (more + 1) after

theorem run_of_held (held : holds m b = true) (budget : Nat) :
    run m (budget + 1) b = (⟨0, .breakpoint⟩, readied m b) := by
  rw [run, runOn_succ, clock_of_holds held]

theorem run_of_made (made : (clock m b).1 = .cycle) (budget : Nat) :
    run m (budget + 1) b =
      (⟨(run m budget (clock m b).2).1.cycles + 1, (run m budget (clock m b).2).1.stop⟩,
        (run m budget (clock m b).2).2) := by
  rw [run, runOn_succ]
  cases outcome : clock m b with
  | mk ended after =>
    rw [outcome] at made
    cases made
    have counted := runOn_add_done m 1 0 budget after
    rw [Nat.add_comm 1 (runOn m 0 budget after).1.cycles] at counted
    exact counted

/-! ## Two boards -/

/-- Two boards that differ in their notes at most. -/
def Alike (b : Board β σ) (b' : Board β σ') : Prop := b.cpu = b'.cpu ∧ b.bus = b'.bus

/-- What matters of a processor to a clock that is made is what it is once it is ready. -/
theorem alike_clock (made : (clock m b).1 = .cycle) (made' : (clock m' b').1 = .cycle)
    (ready : b.cpu.ready = b'.cpu.ready) (bus : b.bus = b'.bus) :
    Alike (clock m b).2 (clock m' b').2 := by
  obtain ⟨notes, clocked⟩ := clock_of_made made
  obtain ⟨notes', clocked'⟩ := clock_of_made made'
  rw [clocked, clocked', ready, bus]
  exact ⟨rfl, rfl⟩

/-- So a hook that never holds makes no difference, whatever is driven. -/
theorem alike_clocks (alike : Alike b b') (proceeds : m.Proceeds) (proceeds' : m'.Proceeds)
    (lines : List Levels) : Alike (clocks m lines b) (clocks m' lines b') := by
  induction lines generalizing b b' with
  | nil => exact alike
  | cons levels lines ih =>
    refine ih (alike_clock (clock_proceeds proceeds _) (clock_proceeds proceeds' _) ?_ alike.2)
    exact congrArg (fun c => (c.withLevels levels).ready) alike.1

/-! ## Clocks that are made -/

/-- So many clocks lead from one board to another, and none of them is held. -/
inductive Makes (m : Monitor σ) : Nat → Board β σ → Board β σ → Prop
  | rest (b : Board β σ) : Makes m 0 b b
  | clock {n : Nat} {b c : Board β σ} (made : (clock m b).1 = .cycle)
      (on : Makes m n (clock m b).2 c) : Makes m (n + 1) b c

namespace Makes

theorem consistent (makes : Makes m n b c) (h : b.cpu.schedule.Consistent) :
    c.cpu.schedule.Consistent := by
  induction makes with
  | rest => exact h
  | clock _ _ ih => exact ih (consistent_clock m h)

/-- A run goes on after them with what is left. -/
theorem run (makes : Makes m n b c) (budget : Nat) :
    Board.run m (n + budget) b =
      (⟨(Board.run m budget c).1.cycles + n, (Board.run m budget c).1.stop⟩,
        (Board.run m budget c).2) := by
  induction makes with
  | rest => rw [Nat.zero_add]; rfl
  | clock made _ ih => rw [Nat.add_right_comm, run_of_made made, ih]; rfl

/-- With nothing left, it is over. -/
theorem run_eq (makes : Makes m n b c) : Board.run m n b = (⟨n, .budget⟩, c) := by
  have whole := makes.run 0
  rw [Nat.add_zero] at whole
  rw [whole, Board.run, runOn_zero, Nat.zero_add]

/-- A hook that never holds lets the same clocks be made. -/
theorem alike (makes : Makes m n b c) (alike : Alike b b') (proceeds : m'.Proceeds) :
    ∃ c', Makes m' n b' c' ∧ Alike c c' := by
  induction makes generalizing b' with
  | rest => exact ⟨b', .rest b', alike⟩
  | clock made _ ih =>
    have made' := clock_proceeds proceeds b'
    have next := alike_clock made made' (congrArg Processor.ready alike.1) alike.2
    obtain ⟨c', makes, alike⟩ := ih next
    exact ⟨c', .clock made' makes, alike⟩

/-- Every one of them is an access. -/
theorem past {b c : Board (Recorded β) σ} (makes : Makes m n b c)
    (h : b.cpu.schedule.Consistent) :
    ∃ past, Past m noCall b past c ∧ (transfers past).length = n := by
  induction makes with
  | rest b => exact ⟨[], ⟨.here, (List.append_nil _).symm, rfl⟩, rfl⟩
  | clock made _ ih =>
    obtain ⟨first, clocked, one, _⟩ := past_clock m noCall _ h
    obtain ⟨later, runs, count⟩ := ih (consistent_clock m h)
    refine ⟨first ++ later, clocked.trans runs, ?_⟩
    rw [transfers_append, List.length_append, one, made, count, Nat.add_comm]
    rfl

end Makes

/-- How a call ends: its whole budget is made, or less, and then a clock is held. -/
theorem run_cases (m : Monitor σ) (budget : Nat) (b : Board β σ) :
    (∃ c, Makes m budget b c) ∨
      ∃ n c, Makes m n b c ∧ n < budget ∧ holds m c = true ∧
        run m budget b = (⟨n, .breakpoint⟩, readied m c) := by
  induction budget generalizing b with
  | zero => exact Or.inl ⟨b, .rest b⟩
  | succ budget ih =>
    cases held : holds m b with
    | true => exact Or.inr ⟨0, b, .rest b, Nat.succ_pos budget, held, run_of_held held budget⟩
    | false =>
      have made := made_of_not_holds held
      rw [run_of_made made]
      rcases ih (clock m b).2 with ⟨c, makes⟩ | ⟨n, c, makes, fewer, holds, some⟩
      · exact Or.inl ⟨c, .clock made makes⟩
      · exact Or.inr ⟨n + 1, c, .clock made makes, Nat.succ_lt_succ fewer, holds, by rw [some]⟩

/-- If nothing is held, it is the whole budget. -/
theorem makes_of_proceeds (proceeds : m.Proceeds) (n : Nat) (b : Board β σ) :
    ∃ c, Makes m n b c := by
  rcases run_cases m n b with all | ⟨_, c, _, _, held, _⟩
  · exact all
  · have answered := proceeds (prepared m c).cpu.regs (prepared m c).notes
    rw [(holds_iff.1 held).2] at answered
    cases answered

/-- Then two runs come out alike, if they are about to make the same access. -/
theorem alike_run (proceeds : m.Proceeds) (proceeds' : m'.Proceeds)
    (ready : b.cpu.ready = b'.cpu.ready) (bus : b.bus = b'.bus) (budget : Nat) :
    Alike (run m (budget + 1) b).2 (run m' (budget + 1) b').2 := by
  have made := clock_proceeds proceeds b
  have made' := clock_proceeds proceeds' b'
  obtain ⟨c, makes⟩ := makes_of_proceeds proceeds budget (clock m b).2
  obtain ⟨c', makes', alike⟩ := makes.alike (alike_clock made made' ready bus) proceeds'
  rw [(Makes.clock made makes).run_eq, (Makes.clock made' makes').run_eq]
  exact alike

end Board

end Sim6809
