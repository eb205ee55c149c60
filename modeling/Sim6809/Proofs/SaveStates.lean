/-
Save-states: a run goes on from a saved state exactly as it would have gone on.

A saved state is accepted if its schedule is consistent and its opcode page exists
(`Processor.Resumable`), and both are kept by whatever can happen to a processor
(`Occurs.resumable`). So every state of a run can be saved and taken up again, by any
other processor, and a state from outside that was accepted once stays acceptable.

That nothing is left out of a saved state shows in what follows: saving copies every field and
taking up writes every one (`Processor.takeUp_snapshot`), the processor is all that a clock
remembers besides the bus (`Board.alike_clocks`), and so a run may be
interrupted between any two clocks (`Board.Makes.run`).
-/
import Sim6809.Proofs.Runs

set_option autoImplicit false

namespace Sim6809

/-! ## Acceptable states -/

namespace Processor

theorem validPage_zero : ValidPage 0 := Or.inl rfl

/-- An opcode selects a page, or none is selected any more. No other byte matters to the
page. -/
theorem validPage_carryOut {c : Processor} (h : ValidPage c.page) (cycle : BusCycle)
    (byte : Byte) : ValidPage (c.carryOut cycle byte).page := by
  by_cases fetch : cycle = .fetchOpcode
  · subst fetch
    by_cases final : ∀ selected, (Instruction.decode c.page byte).op ≠ .selectPage selected
    · rw [carryOut, absorb, absorbOpcode_of_final { c.clocked with schedule := _ } final]
      exact validPage_zero
    · obtain ⟨selected, selects⟩ := by simpa using final
      rw [carryOut, absorb, absorbOpcode_of_select { c.clocked with schedule := _ } selects]
      change ValidPage (if c.page = 0 then selected else c.page)
      split
      · exact Or.inr (Instruction.eq_of_selectPage selects)
      · exact h
  · change ValidPage (absorb _ byte cycle).next.page
    rw [absorb_eq_of_ne_fetchOpcode _ byte fetch]
    exact h

theorem validPage_of_moveHappens {c : Processor} {m : Move} (h : ValidPage c.page)
    (happens : c.MoveHappens m) : ValidPage m.landed.page := by
  cases happens with
  | act _ =>
    change ValidPage (act _ _).next.page
    rw [act_eq]
    exact h
  | phase _ goes =>
    cases goes with
    | reset _ => exact validPage_zero
    | served _ _ =>
      rw [page_serving]
      exact h
    | _ => exact h
  | wake _ _ _ _ =>
    rw [page_serving]
    exact h

end Processor

/-- Whatever happens, the state stays one that can be resumed from. -/
theorem Occurs.resumable {allowed : HostCall → Prop} {c d : Processor} {event : Event}
    (occurs : Occurs allowed c event d) (h : c.Resumable) : d.Resumable := by
  refine ⟨occurs.consistent h.1, ?_⟩
  cases event with
  | move m =>
    obtain ⟨happens, rfl⟩ := occurs.moveHappens h.1
    exact Processor.validPage_of_moveHappens h.2 happens
  | announce =>
    cases occurs
    rw [Processor.announce_eq]
    exact h.2
  | access byte =>
    cases occurs with
    | cycle _ _ _ => exact Processor.validPage_carryOut h.2 _ byte
    | idle _ _ _ _ =>
      rw [Processor.idled_eq]
      exact h.2
  | call call =>
    cases occurs
    cases call with
    | drive _ | registers _ => exact h.2
    | reset | setPc _ => exact Processor.validPage_zero

theorem Path.resumable {allowed : HostCall → Prop} {c d : Processor} {past : List Occurrence}
    (path : Path allowed c past d) (h : c.Resumable) : d.Resumable :=
  path.preserves (fun kept occurs => occurs.resumable kept) h

theorem Reachable.resumable {allowed : HostCall → Prop} {c : Processor}
    (reachable : Reachable allowed c) : c.Resumable := by
  obtain ⟨_, history⟩ := reachable.history
  exact history.resumable ⟨Schedule.consistent_empty, Processor.validPage_zero⟩

theorem Board.resumable_clock {β σ : Type} [Bus β] (m : Monitor σ) {b : Board β σ}
    (h : b.cpu.Resumable) : (clock m b).2.cpu.Resumable := by
  obtain ⟨_, path⟩ := path_clock m anyCall h.1
  exact path.resumable h

/-! ## Taking up a saved state -/

namespace Processor

variable {saved : Processor}

theorem takeUp_of_resumable (h : saved.Resumable) (c : Processor) :
    saved.takeUp c = (.ok (), saved) := by
  rw [takeUp_eq, restore_eq_ok_iff.2 ⟨h, rfl⟩]

theorem takeUp_of_not_consistent (h : ¬saved.schedule.Consistent) (c : Processor) :
    saved.takeUp c = (.error .corruptSchedule, c) := by
  rw [takeUp_eq, restore, if_neg h]

theorem takeUp_of_not_validPage (h : saved.schedule.Consistent) (h' : ¬ValidPage saved.page)
    (c : Processor) : saved.takeUp c = (.error (.invalidPage saved.page), c) := by
  rw [takeUp_eq, restore, if_pos h, if_neg h']

/-- What one processor saves makes another one equal to it. -/
theorem takeUp_snapshot {c : Processor} (h : c.Resumable) (d : Processor) :
    c.snapshot.takeUp d = (.ok (), c) := by
  rw [snapshot_eq, takeUp_of_resumable h]

/-- The three outcomes. The schedule is looked at first. -/
theorem takeUp_cases (saved c : Processor) :
    saved.Resumable ∧ saved.takeUp c = (.ok (), saved) ∨
      ¬saved.schedule.Consistent ∧ saved.takeUp c = (.error .corruptSchedule, c) ∨
      saved.schedule.Consistent ∧ ¬ValidPage saved.page ∧
        saved.takeUp c = (.error (.invalidPage saved.page), c) := by
  by_cases consistent : saved.schedule.Consistent
  · by_cases page : ValidPage saved.page
    · exact Or.inl ⟨⟨consistent, page⟩, takeUp_of_resumable ⟨consistent, page⟩ c⟩
    · exact Or.inr (Or.inr ⟨consistent, page, takeUp_of_not_validPage consistent page c⟩)
  · exact Or.inr (Or.inl ⟨consistent, takeUp_of_not_consistent consistent c⟩)

end Processor

/-- **Save-states resume exactly.** What any reachable processor saves can be taken up by any
other one, and on the same bus, with the lines driven alike, both then make the same accesses
and are equal after every clock. A run is the sum of its parts. A state from outside is taken
up, and saved again, as it is if its cursor lies in its schedule and its page exists; otherwise
the first of the two that is wrong is reported, and nothing is changed. What was acceptable
once stays so, whatever is clocked or called. -/
theorem save_states_resume :
    (∀ {β σ σ' : Type} [Bus β] (m : Monitor σ) (m' : Monitor σ'),
      m.hooks = .none → m'.hooks = .none →
      ∀ (b : Board (Recorded β) σ) (b' : Board (Recorded β) σ'),
        Reachable anyCall b.cpu → b'.bus = b.bus →
        (b.cpu.snapshot.takeUp b'.cpu).1 = .ok () ∧
          ∀ lines : List Levels,
            let other := Board.clocks m' lines { b' with cpu := (b.cpu.snapshot.takeUp b'.cpu).2 }
            other.cpu = (Board.clocks m lines b).cpu ∧
              other.bus = (Board.clocks m lines b).bus) ∧
    (∀ {β σ : Type} [Bus β] (m : Monitor σ), m.hooks = .none →
      ∀ (b : Board β σ) (j k : Nat),
        (Board.run m (j + k) b).2 = (Board.run m k (Board.run m j b).2).2 ∧
        (Board.run m (j + k) b).1 = ⟨j + k, .budget⟩ ∧
        (Board.run m j b).1 = ⟨j, .budget⟩ ∧
        (Board.run m k (Board.run m j b).2).1 = ⟨k, .budget⟩) ∧
    (∀ saved c : Processor,
      ((saved.takeUp c).1 = .ok () ↔
        (saved.schedule.cursor ≤ saved.schedule.filled ∧ saved.schedule.filled ≤ 32) ∧
          (saved.page = 0 ∨ saved.page = 2 ∨ saved.page = 3)) ∧
      ((saved.takeUp c).1 = .error .corruptSchedule ↔ ¬saved.schedule.Consistent) ∧
      (∀ page, (saved.takeUp c).1 = .error (.invalidPage page) ↔
        saved.schedule.Consistent ∧ ¬Processor.ValidPage saved.page ∧ saved.page = page) ∧
      (∀ e, (saved.takeUp c).1 = .error e → (saved.takeUp c).2 = c) ∧
      ((saved.takeUp c).1 = .ok () →
        (saved.takeUp c).2 = saved ∧ (saved.takeUp c).2.snapshot = saved)) ∧
    (∀ c d : Processor, (c.snapshot.takeUp d).1 = .ok () →
      (∀ {β σ : Type} [Bus β] (m : Monitor σ) (bus : β) (notes : σ),
        ((Board.clock m ⟨c, bus, notes⟩).2.cpu.snapshot.takeUp d).1 = .ok ()) ∧
      ∀ call : HostCall, ((call.apply c).snapshot.takeUp d).1 = .ok ()) := by
  refine ⟨?_, ?_, ?_, ?_⟩
  · intro β σ σ' _ m m' hooks hooks' b b' reachable same
    rw [Processor.takeUp_snapshot reachable.resumable]
    have alike : Board.Alike { b' with cpu := b.cpu } b := ⟨rfl, same⟩
    have proceeds := Monitor.proceeds_of_hooks_none hooks
    have proceeds' := Monitor.proceeds_of_hooks_none hooks'
    exact ⟨rfl, Board.alike_clocks alike proceeds' proceeds⟩
  · intro β σ _ m hooks b j k
    have proceeds := Monitor.proceeds_of_hooks_none hooks
    obtain ⟨c, first⟩ := Board.makes_of_proceeds proceeds j b
    obtain ⟨d, second⟩ := Board.makes_of_proceeds proceeds k c
    have sum := first.run k
    rw [second.run_eq, Nat.add_comm k j] at sum
    rw [sum, first.run_eq, second.run_eq]
    exact ⟨rfl, rfl, rfl, rfl⟩
  · intro saved c
    rcases saved.takeUp_cases c with
      ⟨resumable, outcome⟩ | ⟨corrupt, outcome⟩ | ⟨consistent, invalid, outcome⟩
    · rw [outcome]
      refine ⟨iff_of_true rfl resumable, iff_of_false nofun (not_not_intro resumable.1), ?_,
        nofun, fun _ => ⟨rfl, saved.snapshot_eq⟩⟩
      exact fun page => iff_of_false nofun fun rejected => rejected.2.1 resumable.2
    · rw [outcome]
      refine ⟨iff_of_false nofun fun resumable => corrupt resumable.1, iff_of_true rfl corrupt, ?_,
        fun _ _ => rfl, nofun⟩
      exact fun page => iff_of_false nofun fun rejected => corrupt rejected.1
    · rw [outcome]
      refine ⟨iff_of_false nofun fun resumable => invalid resumable.2,
        iff_of_false nofun (not_not_intro consistent), ?_, fun _ _ => rfl, nofun⟩
      intro page
      rw [Except.error.injEq, RestoreError.invalidPage.injEq]
      exact ⟨fun same => ⟨consistent, invalid, same⟩, fun rejected => rejected.2.2⟩
  · intro c d accepted
    have resumable : c.Resumable := by
      rw [Processor.snapshot_eq] at accepted
      rcases c.takeUp_cases d with ⟨resumable, _⟩ | ⟨_, outcome⟩ | ⟨_, _, outcome⟩
      · exact resumable
      all_goals
        rw [outcome] at accepted
        cases accepted
    refine ⟨fun m bus notes => ?_, fun call => ?_⟩
    · have clocked := Board.resumable_clock m (b := ⟨c, bus, notes⟩) resumable
      rw [Processor.takeUp_snapshot clocked]
    · have called : Occurs anyCall c (.call call) (call.apply c) := .call trivial
      rw [Processor.takeUp_snapshot (called.resumable resumable)]

/-- A board on which the first byte of a two-byte opcode has been fetched. -/
def prefixedBoard : Board (Recorded Ram) Unit :=
  Board.clocks .silent (List.replicate 4 .low) ⟨.powerOn, ⟨waitingLoop, #[]⟩, ()⟩

/-- The same bus, and a processor that was busy with something else. -/
def otherBoard : Board (Recorded Ram) Unit := ⟨clutteredBoard.cpu, prefixedBoard.bus, ()⟩

/-- That one takes up the state, and loads S in place of the first. -/
theorem save_states_resume_prefixed :
    prefixedBoard.cpu.page = 2 ∧
    (prefixedBoard.cpu.snapshot.takeUp otherBoard.cpu).1 = .ok () ∧
    (let taken := { otherBoard with cpu := (prefixedBoard.cpu.snapshot.takeUp otherBoard.cpu).2 }
      let other := Board.clocks .silent (List.replicate 3 .low) taken
      let after := Board.clocks .silent (List.replicate 3 .low) prefixedBoard
      (other.cpu = after.cpu ∧ other.bus = after.bus) ∧ after.cpu.regs.s = 0x8000) ∧
    (Board.run .silent 7 prefixedBoard).2 =
      (Board.run .silent 3 (Board.run .silent 4 prefixedBoard).2).2 ∧
    ∀ call : HostCall,
      ((call.apply prefixedBoard.cpu).snapshot.takeUp otherBoard.cpu).1 = .ok () := by
  have reachable : Reachable anyCall prefixedBoard.cpu :=
    .clocks .silent (fun _ => trivial) _ _ .powerOn
  have shared : otherBoard.bus = prefixedBoard.bus := by rw [otherBoard]
  have resumed := save_states_resume.1 .silent .silent rfl rfl prefixedBoard otherBoard
    reachable shared
  have parts := save_states_resume.2.1 .silent rfl prefixedBoard 4 3
  have calls := save_states_resume.2.2.2 prefixedBoard.cpu otherBoard.cpu resumed.1
  exact ⟨by decide +kernel, resumed.1, ⟨resumed.2 _, by decide +kernel⟩, parts.1, calls.2⟩

end Sim6809
