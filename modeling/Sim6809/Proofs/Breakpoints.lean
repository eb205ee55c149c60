/-
Breakpoints: a run that is held and resumed does what it would have done anyway.

Being held changes the processor in one respect, which is that the fetch is announced. So
a held clock leaves the board from which it would have made its access (`Board.readied`),
and to get that board ready again changes nothing (`Processor.ready_ready`). The access is
made from there without the hook being asked (`Board.holds_readied`), and it leads where
it would have led at once (`Board.alike_clock`).

`Resumed` is a run that is called again with what is left of its budget for as long as it
is held. Every call but the first makes a cycle, so there are only so many.
-/
import Mathlib.Algebra.GroupWithZero.Nat
import Sim6809.Proofs.Runs

set_option autoImplicit false

namespace Sim6809

/-! ## Ready again -/

namespace Processor

variable {c : Processor}

theorem prepare_ready (h : c.schedule.Consistent) : c.ready.prepare = { state := c.ready } := by
  obtain ⟨still, asleep⟩ := c.still_ready h
  simp only [prepare, settle_of_rest still, asleep]

theorem due?_announce (c : Processor) : c.announce.due? = c.due? := by
  rw [due?, schedule_announce, due?]

/-- A processor that is ready stays as it is. -/
theorem ready_ready (h : c.schedule.Consistent) : c.ready.ready = c.ready := by
  rw [ready, prepare_ready h]
  exact announce_of_unasked (asksFirst_announce _)

end Processor

namespace Board

variable {β σ σ' : Type}

/-- Nothing is left to be done before the access, and the hook is not asked. -/
theorem readied_readied (m : Monitor σ) {b : Board β σ} (h : b.cpu.schedule.Consistent) :
    readied m (readied m b) = readied m b ∧ holds m (readied m b) = false := by
  have announced : (readied m b).cpu.asksFirst = false := Processor.asksFirst_announce _
  have again : prepared m (readied m b) = readied m b := by
    rw [prepared, readied, Processor.prepare_ready h]
    rfl
  refine ⟨?_, ?_⟩
  · have cpu : (readied m b).cpu.ready = (readied m b).cpu := Processor.ready_ready h
    rw [readied, again, asked, announced, cpu]
    rfl
  · rw [holds, again, announced, Bool.false_and]

variable [Bus β] {m : Monitor σ} {b c : Board β σ} {n : Nat}

/-! ## One call -/

theorem Makes.reachable {allowed : HostCall → Prop} (makes : Makes m n b c)
    (reachable : Reachable allowed b.cpu) : Reachable allowed c.cpu := by
  induction makes with
  | rest => exact reachable
  | clock _ _ ih => exact ih (.clock m _ reachable)

theorem reachable_run {allowed : HostCall → Prop} (m : Monitor σ) (budget : Nat)
    (reachable : Reachable allowed b.cpu) : Reachable allowed (run m budget b).2.cpu := by
  rcases run_cases m budget b with ⟨c, makes⟩ | ⟨n, c, makes, _, held, some⟩
  · rw [makes.run_eq]
    exact makes.reachable reachable
  · have clocked : Reachable allowed (clock m c).2.cpu := .clock m c (makes.reachable reachable)
    rw [clock_of_holds held] at clocked
    rw [some]
    exact clocked

/-- A call of so many accesses was held: the last thing that happened in it is that the
hook was asked before an opcode fetch, and would not have it made. -/
def HeldBefore (m : Monitor σ) (n : Nat) (b after : Board (Recorded β) σ) : Prop :=
  ∃ past c, Past m noCall b (past ++ [⟨c, .announce⟩]) after ∧ (transfers past).length = n ∧
    c.due? = some .fetchOpcode ∧ (m.ask c.regs (past.foldl m.follow b.notes)).1 = .hold ∧
    after.cpu = c.announce

/-- A call begins with the opcode fetch that is due, and the hook is not asked before. -/
def FetchesFirst (m : Monitor σ) (budget : Nat) (b : Board (Recorded β) σ) : Prop :=
  b.cpu.due? = some .fetchOpcode ∧ 1 ≤ (run m budget b).1.cycles ∧
    ∃ byte past, Past m noCall b (⟨b.cpu, .access byte⟩ :: past) (run m budget b).2

theorem heldBefore_of_makes {b c : Board (Recorded β) σ} (makes : Makes m n b c)
    (held : holds m c = true) (h : b.cpu.schedule.Consistent) : HeldBefore m n b (readied m c) := by
  obtain ⟨asks, hold⟩ := holds_iff.1 held
  obtain ⟨past, runs, count⟩ := makes.past h
  obtain ⟨front, moves, prepares⟩ := past_prepared m noCall c
  have announced := past_readied m noCall c
  rw [Processor.announcement, if_pos asks] at announced
  have before := runs.trans prepares
  refine ⟨past ++ front, (prepared m c).cpu, before.trans announced, ?_,
    Processor.due?_of_asksFirst asks, ?_, rfl⟩
  · rw [transfers_append, moves.transfers, List.append_nil, count]
  · rw [← before.notes]
    exact hold

/-- A run is a path. -/
theorem past_run (m : Monitor σ) (budget : Nat) {b : Board (Recorded β) σ}
    (h : b.cpu.schedule.Consistent) : ∃ past, Past m noCall b past (run m budget b).2 := by
  rcases run_cases m budget b with ⟨c, makes⟩ | ⟨n, c, makes, _, held, some⟩
  · obtain ⟨past, runs, _⟩ := makes.past h
    rw [makes.run_eq]
    exact ⟨past, runs⟩
  · obtain ⟨past, before, runs, _⟩ := heldBefore_of_makes makes held h
    rw [some]
    exact ⟨_, runs⟩

/-- After a hold the call makes the fetch. -/
theorem fetchesFirst_of_holds {c : Board (Recorded β) σ} (held : holds m c = true)
    (h : c.cpu.schedule.Consistent) (budget : Nat) :
    FetchesFirst m (budget + 1) (readied m c) := by
  obtain ⟨same, free⟩ := readied_readied m h
  have consistent : (readied m c).cpu.schedule.Consistent := Processor.consistent_ready h
  have made := made_of_not_holds free
  obtain ⟨back, _, accesses⟩ := past_access m noCall (readied m c) consistent
  obtain ⟨later, runs⟩ := past_run m budget (consistent_clock m consistent)
  have cpu : (readied m c).cpu.ready = (readied m c).cpu := Processor.ready_ready h
  rw [same, free, cpu] at accesses
  rw [FetchesFirst, run_of_made made]
  refine ⟨?_, Nat.le_add_left 1 _, _, back ++ later, accesses.trans runs⟩
  change c.cpu.prepare.state.announce.due? = _
  rw [Processor.due?_announce]
  exact Processor.due?_of_asksFirst (holds_iff.1 held).1

/-! ## One call after another -/

/-- A run that is called again with what is left of its budget for as long as it is held:
how each call ended, and where the last one led. -/
inductive Resumed (m : Monitor σ) : Nat → Board β σ → List RunOutcome → Board β σ → Prop
  | done {budget : Nat} {b : Board β σ} (stop : (run m budget b).1.stop = .budget) :
      Resumed m budget b [(run m budget b).1] (run m budget b).2
  | again {budget : Nat} {b e : Board β σ} {outcomes : List RunOutcome}
      (stop : (run m budget b).1.stop = .breakpoint)
      (on : Resumed m (budget - (run m budget b).1.cycles) (run m budget b).2 outcomes e) :
      Resumed m budget b ((run m budget b).1 :: outcomes) e

/-- A run that is not held at once needs no more calls than it has cycles. -/
theorem exists_resumed_of_free (budget : Nat) (positive : 0 < budget) (b : Board β σ)
    (h : b.cpu.schedule.Consistent) (free : holds m b = false) :
    ∃ outcomes e, Resumed m budget b outcomes e ∧ outcomes.length ≤ budget := by
  induction budget using Nat.strongRecOn generalizing b with
  | ind budget ih =>
    rcases run_cases m budget b with ⟨c, makes⟩ | ⟨n, c, makes, fewer, held, some⟩
    · exact ⟨_, _, .done (by rw [makes.run_eq]), positive⟩
    · -- The first clock is made, so there is less left.
      have made : 0 < n := by
        cases makes with
        | rest =>
          rw [free] at held
          cases held
        | clock _ _ => exact Nat.succ_pos _
      have consistent := makes.consistent h
      obtain ⟨outcomes, e, resumed, few⟩ := ih (budget - n) (by omega) (by omega) (readied m c)
        (Processor.consistent_ready consistent) (readied_readied m consistent).2
      refine ⟨_, e, .again (by rw [some]) (by rw [some]; exact resumed), ?_⟩
      rw [List.length_cons]
      omega

theorem exists_resumed (m : Monitor σ) (budget : Nat) (h : b.cpu.schedule.Consistent) :
    ∃ outcomes e, Resumed m budget b outcomes e ∧ outcomes.length ≤ budget + 1 := by
  cases budget with
  | zero => exact ⟨_, _, .done rfl, Nat.le_refl 1⟩
  | succ budget =>
    cases held : holds m b with
    | false =>
      obtain ⟨outcomes, e, resumed, few⟩ :=
        exists_resumed_of_free (budget + 1) (Nat.succ_pos budget) b h held
      exact ⟨outcomes, e, resumed, Nat.le_succ_of_le few⟩
    | true =>
      have some := run_of_held held budget
      obtain ⟨outcomes, e, resumed, few⟩ := exists_resumed_of_free (budget + 1)
        (Nat.succ_pos budget) (readied m b) (Processor.consistent_ready h) (readied_readied m h).2
      refine ⟨_, e, .again (by rw [some]) (by rw [some]; exact resumed), ?_⟩
      rw [List.length_cons]
      omega

/-- Together the calls make all the cycles. -/
theorem Resumed.sum_cycles {budget : Nat} {e : Board β σ} {outcomes : List RunOutcome}
    (resumed : Resumed m budget b outcomes e) : (outcomes.map (·.cycles)).sum = budget := by
  induction resumed with
  | @done budget b stop =>
    rcases run_cases m budget b with ⟨c, makes⟩ | ⟨n, c, _, _, _, some⟩
    · rw [makes.run_eq]
      rfl
    · rw [some] at stop
      cases stop
  | @again budget b e outcomes stop _ ih =>
    rcases run_cases m budget b with ⟨c, makes⟩ | ⟨n, c, _, fewer, _, some⟩
    · rw [makes.run_eq] at stop
      cases stop
    · rw [List.map_cons, List.sum_cons, ih, some]
      exact Nat.add_sub_cancel' (Nat.le_of_lt fewer)

variable {quiet : Monitor σ'} {b' : Board β σ'}

/-- However often it is held, it comes to where it would have come at once. -/
theorem Resumed.alike {budget : Nat} {e : Board β σ} {outcomes : List RunOutcome}
    (resumed : Resumed m budget b outcomes e) (h : b.cpu.schedule.Consistent)
    (proceeds : quiet.Proceeds) (alike : Alike b b') : Alike e (run quiet budget b').2 := by
  induction resumed generalizing b' with
  | @done budget b stop =>
    rcases run_cases m budget b with ⟨c, makes⟩ | ⟨n, c, _, _, _, some⟩
    · obtain ⟨c', makes', alike⟩ := makes.alike alike proceeds
      rw [makes.run_eq, makes'.run_eq]
      exact alike
    · rw [some] at stop
      cases stop
  | @again budget b e outcomes stop _ ih =>
    rcases run_cases m budget b with ⟨c, makes⟩ | ⟨n, c, makes, fewer, held, some⟩
    · rw [makes.run_eq] at stop
      cases stop
    · have consistent := makes.consistent h
      obtain ⟨c', makes', alike⟩ := makes.alike alike proceeds
      obtain ⟨rest, rfl⟩ := Nat.exists_eq_add_of_lt fewer
      -- What is left runs from the held fetch here, and from before it there.
      let held' : Board β σ' := ⟨(readied m c).cpu, c.bus, b'.notes⟩
      have left : n + rest + 1 - n = rest + 1 := by omega
      rw [some, left] at ih
      have start : Alike (readied m c) held' := ⟨rfl, rfl⟩
      have on := ih (Processor.consistent_ready consistent) start
      have same : Alike (run quiet (rest + 1) held').2 (run quiet (rest + 1) c').2 := by
        refine alike_run proceeds proceeds ?_ alike.2 rest
        rw [← alike.1]
        exact Processor.ready_ready consistent
      have whole := makes'.run (rest + 1)
      rw [Nat.add_assoc, whole]
      exact ⟨on.1.trans same.1, on.2.trans same.2⟩

end Board

/-- **Breakpoints are transparent.** Whatever a hook answers, a call ends because its budget
is used up if and only if it is; otherwise it has made less, nothing happened after the
hook was asked, and the next call begins with the fetch that was held back. Called again
and again with what is left, a run comes to its end after at most one call more than it has
cycles, with the same accesses made and the same processor left as by a run without
hooks. -/
theorem breakpoints_transparent :
    ∀ {β σ : Type} [Bus β] (m : Monitor σ) (b : Board (Recorded β) σ),
      Reachable anyCall b.cpu →
      (∀ budget,
        let call := Board.run m budget b
        Reachable anyCall call.2.cpu ∧
        (call.1.stop = .budget ↔ call.1.cycles = budget) ∧
        (call.1.stop = .breakpoint → call.1.cycles < budget ∧
          Board.HeldBefore m call.1.cycles b call.2 ∧
            ∀ more, 0 < more → Board.FetchesFirst m more call.2)) ∧
      ∀ budget,
        (∃ outcomes e, Board.Resumed m budget b outcomes e ∧ outcomes.length ≤ budget + 1) ∧
        ∀ outcomes e, Board.Resumed m budget b outcomes e →
          (outcomes.map (·.cycles)).sum = budget ∧
            ∀ {σ' : Type} (quiet : Monitor σ'), quiet.hooks = .none → ∀ notes,
              let once := (Board.run quiet budget ⟨b.cpu, b.bus, notes⟩).2
              e.cpu = once.cpu ∧ e.bus = once.bus := by
  intro β σ _ m b reachable
  have consistent := reachable.consistent
  refine ⟨fun budget => ⟨Board.reachable_run m budget reachable, ?_, ?_⟩, fun budget => ?_⟩
  · rcases Board.run_cases m budget b with ⟨c, makes⟩ | ⟨n, c, _, fewer, _, some⟩
    · rw [makes.run_eq]
      exact iff_of_true rfl rfl
    · rw [some]
      exact iff_of_false nofun (Nat.ne_of_lt fewer)
  · intro stop
    rcases Board.run_cases m budget b with ⟨c, makes⟩ | ⟨n, c, makes, fewer, held, some⟩
    · rw [makes.run_eq] at stop
      cases stop
    · rw [some]
      refine ⟨fewer, Board.heldBefore_of_makes makes held consistent, fun more positive => ?_⟩
      obtain ⟨rest, rfl⟩ := Nat.exists_eq_add_one.2 positive
      exact Board.fetchesFirst_of_holds held (makes.consistent consistent) rest
  · refine ⟨Board.exists_resumed m budget consistent, ?_⟩
    intro outcomes e resumed
    refine ⟨resumed.sum_cycles, fun {σ'} quiet hooks notes => ?_⟩
    have start : Board.Alike b ⟨b.cpu, b.bus, notes⟩ := ⟨rfl, rfl⟩
    exact resumed.alike consistent (Monitor.proceeds_of_hooks_none hooks) start

/-- A hook that holds every other time it is asked. -/
def everyOther : Monitor Bool where
  hooks := { Hooks.none with
    instruction := some fun _ hold => (if hold then .hold else .proceed, !hold) }
  log := fun _ notes => notes

/-- From power-on it holds before the first instruction, after three cycles; and then again,
but in the end the run is the same. -/
theorem breakpoints_transparent_everyOther :
    let b : Board (Recorded Ram) Bool := ⟨.powerOn, ⟨waitingLoop, #[]⟩, true⟩
    let call := Board.run everyOther 20 b
    (call.1 = ⟨3, .breakpoint⟩ ∧ Board.HeldBefore everyOther 3 b call.2 ∧
      Board.FetchesFirst everyOther 17 call.2) ∧
    ∃ outcomes e, Board.Resumed everyOther 20 b outcomes e ∧ outcomes.length ≤ 21 ∧
      e.bus = (Board.run .silent 20 ⟨b.cpu, b.bus, ()⟩).2.bus := by
  intro b call
  have held : call.1 = ⟨3, .breakpoint⟩ := by decide +kernel
  have stop : call.1.stop = .breakpoint := by rw [held]
  have cycles : call.1.cycles = 3 := by rw [held]
  obtain ⟨calls, runs⟩ := breakpoints_transparent everyOther b .powerOn
  obtain ⟨_, before, first⟩ := (calls 20).2.2 stop
  obtain ⟨⟨outcomes, e, resumed, few⟩, same⟩ := runs 20
  have once := (same outcomes e resumed).2 .silent rfl ()
  rw [cycles] at before
  exact ⟨⟨held, before, first 17 (by decide)⟩, outcomes, e, resumed, few, once.2⟩

end Sim6809
