/-
What each phase leaves to be done.

The phase says how to go on once nothing is pending. It also says what can be pending
until then. In front of the choice of an interrupt that is the rest of a frame, after it
the rest of a vector fetch, and while the processor waits or decides it is nothing; only
the execution of an instruction has steps of all kinds (`Phase.Admits`). The page that was
selected tells something, too: until the opcode is read, its fetch is all that is pending.

`Staged` is this together with what `Order.lean` and `Provenance.lean` keep. Every
occurrence keeps it, so it holds of every reachable processor (`Reachable.staged`), and a
statement about phases has one case for each of them where it would otherwise have one for
each list of steps there is.
-/
import Sim6809.Proofs.Provenance

set_option autoImplicit false

namespace Sim6809

/-- What going into a handler does to the masks. -/
theorem ConditionCodes.masks_raise (cc : ConditionCodes) (which : InterruptVector) :
    (cc.raise which.mask).irqMask = (cc.irqMask || which != .swi2 && which != .swi3) ∧
      (cc.raise which.mask).firqMask =
        (cc.firqMask || which != .irq && which != .swi2 && which != .swi3) := by
  obtain ⟨e, f, h, i, n, z, v, c⟩ := cc
  revert e f h i n z v c
  cases which <;> decide

/-- The steps between two instructions that decide nothing: they stack a frame or fetch a
vector. -/
def HardwareInterrupt.entrySteps (interrupt : HardwareInterrupt) : List MicroOp :=
  [.cycle .peekPc, .cycle .peekPc] ++ Frame.program interrupt.stacksEntire

/-- What can be pending in a phase. -/
def Phase.Admits : Phase → List MicroOp → Prop
  | execution, _ => True
  | boundary, ops => ops <:+ .cycle .dummy :: vectorFetch
  | dispatch, ops => ∃ interrupt : HardwareInterrupt, ops <:+ interrupt.entrySteps
  | _, ops => ops = []

namespace Phase.Admits

variable {phase : Phase} {ops rest : List MicroOp}

/-- Every phase can have run dry. -/
theorem nil (phase : Phase) : phase.Admits [] := by
  cases phase with
  | execution => trivial
  | boundary => exact List.nil_suffix
  | dispatch => exact ⟨.nmi, List.nil_suffix⟩
  | _ => rfl

/-- Steps may be used up. -/
theorem of_suffix (h : phase.Admits ops) (suffix : rest <:+ ops) : phase.Admits rest := by
  cases phase with
  | execution => trivial
  | boundary => exact suffix.trans h
  | dispatch =>
    obtain ⟨interrupt, entry⟩ := h
    exact ⟨interrupt, suffix.trans entry⟩
  | _ =>
    obtain rfl : ops = [] := h
    exact List.suffix_nil.1 suffix

/-- The steps that decide nothing are the only ones outside of the execution. -/
theorem execution_of_mem (h : phase.Admits ops) {op : MicroOp} (mem : op ∈ ops)
    (frame : ∀ interrupt : HardwareInterrupt, op ∉ interrupt.entrySteps)
    (vector : op ∉ MicroOp.cycle .dummy :: vectorFetch) : phase = .execution := by
  cases phase with
  | execution => rfl
  | boundary => exact absurd (h.subset mem) vector
  | dispatch =>
    obtain ⟨interrupt, entry⟩ := h
    exact absurd (entry.subset mem) (frame interrupt)
  | _ =>
    obtain rfl : ops = [] := h
    cases mem

/-- Such a step queues nothing. -/
theorem execution_of_queues (h : phase.Admits ops) (instruction : Instruction) {op : MicroOp}
    (mem : op ∈ ops) (queues : op.queues instruction = true) : phase = .execution := by
  have plain : ∀ {steps : List MicroOp}, Plain instruction steps → op ∉ steps := by
    intro steps quiet inside
    rw [quiet op inside] at queues
    cases queues
  refine h.execution_of_mem mem (fun interrupt => plain ?_) (plain plain_takeVector)
  exact Plain.append (by simp [Plain, MicroOp.queues]) (plain_frame _)

end Phase.Admits

/-- The pending steps fit the phase, besides being in order. -/
structure Staged (c : Processor) : Prop where
  orderly : Orderly c
  sourced : Sourced c
  admitted : c.phase.Admits c.schedule.pending
  /-- A page is selected for the opcode that is fetched next, and for nothing else. -/
  selecting : c.page = 0 ∨ c.schedule.pending = [.cycle .fetchOpcode]

variable {c d : Processor}

/-- An opcode fetch that is pending is all that is, in the course of an instruction. -/
theorem Staged.atOpcode (h : Staged c) (fetch : .cycle .fetchOpcode ∈ c.schedule.pending) :
    c.AtOpcode c.page :=
  ⟨h.orderly.consistent, h.sourced.fetch_alone h.orderly fetch,
    h.admitted.execution_of_queues c.instruction fetch rfl, rfl⟩

namespace Processor

/-- A move leads to a phase that admits what it leaves pending. -/
theorem admits_of_moveHappens {m : Move} (h : Staged c) (happens : MoveHappens c m)
    (landed : m.landed.schedule.pending = c.schedule.pending.tail ++ m.queued) :
    m.landed.phase.Admits m.landed.schedule.pending := by
  rw [landed]
  cases happens with
  | @act action rest pending =>
    have mem : .action action ∈ c.schedule.pending := by
      rw [pending]
      exact List.mem_cons_self
    by_cases leaves : ∃ phase, action = .enter phase
    · -- Nothing is pending behind a step that leaves the instruction stream.
      obtain ⟨phase, rfl⟩ := leaves
      rw [pending, h.sourced.rest_eq_nil h.orderly pending rfl]
      exact Phase.Admits.nil phase
    · have phase : ({ c with schedule := c.schedule.advance }.act action).landed.phase = c.phase :=
        phase_act _ fun phase enters => leaves ⟨phase, enters⟩
      rw [phase]
      by_cases quiet : ({ c with schedule := c.schedule.advance }.act action).queued = []
      · rw [quiet, List.append_nil]
        exact h.admitted.of_suffix (List.tail_suffix _)
      · rw [h.admitted.execution_of_queues _ mem (queues_of_act quiet)]
        trivial
  | phase dry goes =>
    rw [dry, List.tail_nil, List.nil_append]
    cases goes with
    | release _ _ => exact List.suffix_cons _ _
    | asked _ _ => exact ⟨_, List.suffix_refl _⟩
    | unasked _ _ => trivial
    | served _ _ => exact List.suffix_refl _
    | reset _ | boundary _ _ | retire _ | unserved _ _ => exact Phase.Admits.nil _
  | wake dry _ _ _ =>
    rw [dry, List.tail_nil, List.nil_append]
    exact List.suffix_refl _

/-- No move selects a page. -/
theorem MoveHappens.page {m : Move} (happens : MoveHappens c m) (unselected : c.page = 0) :
    m.landed.page = 0 := by
  cases happens with
  | act pending =>
    change (Processor.act _ _).next.page = 0
    rw [act_eq]
    exact unselected
  | phase dry goes =>
    cases goes with
    | reset _ => rfl
    | served _ _ => exact (c.page_serving _).trans unselected
    | _ => exact unselected
  | wake dry _ _ _ => exact (c.page_serving _).trans unselected

/-- And none is made while one is selected. -/
theorem page_of_moveHappens {m : Move} (h : Staged c) (happens : MoveHappens c m) :
    m.landed.page = 0 := by
  refine happens.page (h.selecting.resolve_right ?_)
  cases happens with
  | act pending =>
    rw [pending]
    exact nofun
  | phase dry _ | wake dry _ _ _ =>
    rw [dry]
    exact nofun

/-- A byte goes into the flags if it is pulled for them, and not otherwise. -/
theorem cc_carryOut (c : Processor) {cycle : BusCycle} (byte : Byte)
    (other : ∀ stack, cycle ≠ .pull stack .cc) : (c.carryOut cycle byte).regs.cc = c.regs.cc := by
  cases cycle with
  | fetchOpcode =>
    change (absorbOpcode _ byte).next.regs.cc = _
    unfold absorbOpcode
    dsimp only
    split <;> rfl
  | fetchPostbyte =>
    change (RegisterFile.setIndex _ (.ofPostbyte byte) _).cc = _
    cases IndexRegister.ofPostbyte byte <;> rfl
  | push stack part => cases stack <;> rfl
  | pull stack part =>
    change ((RegisterFile.shrink _ stack).setPart part byte).cc = _
    cases part with
    | cc => exact absurd rfl (other stack)
    | high pointer | low pointer => cases stack <;> cases pointer <;> rfl
    | _ => cases stack <;> rfl
  | _ => rfl

/-- A byte used up a step of the phase, or it was fetched in an instruction. -/
theorem admits_carryOut {cycle : BusCycle} (h : Staged c) (due : c.due? = some cycle)
    (byte : Byte) : c.phase.Admits (c.carryOut cycle byte).schedule.pending := by
  obtain ⟨rest, pending⟩ := (due?_eq_some_iff h.orderly.consistent).1 due
  have mem : .cycle cycle ∈ c.schedule.pending := by
    rw [pending]
    exact List.mem_cons_self
  have landed := pending_carryOut h.orderly due byte
  cases cycle with
  | fetchOpcode | fetchPostbyte =>
    rw [h.admitted.execution_of_queues c.instruction mem rfl]
    trivial
  | _ =>
    rw [landed, absorb, List.append_nil]
    exact h.admitted.of_suffix (List.tail_suffix _)

/-- And a page is selected only by the byte of an opcode fetch, which queues another. -/
theorem selecting_carryOut {cycle : BusCycle} (h : Staged c) (due : c.due? = some cycle)
    (byte : Byte) : (c.carryOut cycle byte).page = 0 ∨
      (c.carryOut cycle byte).schedule.pending = [.cycle .fetchOpcode] := by
  obtain ⟨rest, pending⟩ := (due?_eq_some_iff h.orderly.consistent).1 due
  have mem : .cycle cycle ∈ c.schedule.pending := by
    rw [pending]
    exact List.mem_cons_self
  by_cases fetch : cycle = .fetchOpcode
  · subst fetch
    have start := h.atOpcode mem
    by_cases final : ∀ selected, (Instruction.decode c.page byte).op ≠ .selectPage selected
    · exact Or.inl (decoded_carryOut start final).page
    · obtain ⟨selected, selects⟩ := by simpa using final
      exact Or.inr (atOpcode_carryOut start selects).1.pending
  · left
    rw [carryOut, Move.landed, absorb_eq_of_ne_fetchOpcode _ _ fetch]
    refine h.selecting.resolve_right ?_
    rw [pending]
    rintro same
    cases same
    exact fetch rfl

end Processor

namespace Staged

/-- Everything that happens keeps it. -/
theorem occurs {allowed : HostCall → Prop} {event : Event} (h : Staged c)
    (occurs : Occurs allowed c event d) : Staged d := by
  have orderly := occurs.orderly h.orderly
  have sourced := h.sourced.occurs h.orderly occurs
  have consistent := h.orderly.consistent
  cases event with
  | move m =>
    have landed := occurs.pending_landed h.orderly
    obtain ⟨happens, rfl⟩ := occurs.moveHappens consistent
    exact ⟨orderly, sourced, Processor.admits_of_moveHappens h happens landed,
      Or.inl (Processor.page_of_moveHappens h happens)⟩
  | announce =>
    cases occurs
    refine ⟨orderly, sourced, ?_, ?_⟩
    · rw [Processor.schedule_announce, Processor.announce_eq]
      exact h.admitted
    · rw [Processor.schedule_announce, Processor.announce_eq]
      exact h.selecting
  | access byte =>
    cases occurs with
    | @cycle cycle _ due _ =>
      refine ⟨orderly, sourced, ?_, Processor.selecting_carryOut h due byte⟩
      rw [Processor.phase_carryOut]
      exact Processor.admits_carryOut h due byte
    | idle _ still _ idle =>
      have dry := Processor.pending_of_idle consistent still idle
      refine ⟨orderly, sourced, ?_, ?_⟩
      · rw [Processor.schedule_idled, dry]
        exact Phase.Admits.nil _
      · rw [Processor.schedule_idled, Processor.idled_eq]
        exact h.selecting
  | call call =>
    cases occurs
    cases call with
    | drive levels | registers regs => exact ⟨orderly, sourced, h.admitted, h.selecting⟩
    | reset => exact ⟨orderly, sourced, rfl, Or.inl rfl⟩
    | setPc pc => exact ⟨orderly, sourced, trivial, Or.inl rfl⟩

theorem powerOn : Staged .powerOn :=
  ⟨Processor.orderly_powerOn, sourced_powerOn, rfl, Or.inl rfl⟩

theorem path {allowed : HostCall → Prop} {past : List Occurrence} (h : Staged c)
    (path : Path allowed c past d) : Staged d :=
  path.preserves (fun staged occurs => staged.occurs occurs) h

theorem prepare (h : Staged c) : Staged c.prepare.state := by
  obtain ⟨_, path, _, _⟩ := Processor.path_prepare anyCall c
  exact h.path path

theorem ready (h : Staged c) : Staged c.ready := by
  obtain ⟨_, path, _⟩ := Processor.path_ready anyCall c
  exact h.path path

theorem move {m : Move} (h : Staged c) (due : c.move? = some m) : Staged m.landed := by
  have moves : Occurs anyCall c (.move m) m.landed := .move due
  exact h.occurs moves

/-- What a move that is due leaves pending. -/
theorem pending_landed {m : Move} (h : Staged c) (due : c.move? = some m) :
    m.landed.schedule.pending = c.schedule.pending.tail ++ m.queued := by
  have moves : Occurs anyCall c (.move m) m.landed := .move due
  exact moves.pending_landed h.orderly

theorem pending_landed_of_dry {m : Move} (h : Staged c) (dry : c.schedule.pending = [])
    (due : c.move? = some m) : m.landed.schedule.pending = m.queued := by
  rw [h.pending_landed due, dry]
  rfl

theorem carryOut {cycle : BusCycle} (h : Staged c) (due : c.due? = some cycle)
    (announced : c.asksFirst = false) (byte : Byte) : Staged (c.carryOut cycle byte) := by
  have carries : Occurs anyCall c (.access byte) (c.carryOut cycle byte) :=
    .cycle byte due announced
  exact h.occurs carries

theorem clock {β σ : Type} [Bus β] (m : Monitor σ) {b : Board β σ} (h : Staged b.cpu) :
    Staged (Board.clock m b).2.cpu := by
  obtain ⟨_, path⟩ := Board.path_clock m anyCall h.orderly.consistent
  exact h.path path

theorem clocks {β σ : Type} [Bus β] (m : Monitor σ) (lines : List Levels) {b : Board β σ}
    (h : Staged b.cpu) : Staged (Board.clocks m lines b).cpu := by
  induction lines generalizing b with
  | nil => exact h
  | cons levels lines ih =>
    have drives : Occurs anyCall b.cpu (.call (.drive levels)) (b.withLevels levels).cpu :=
      .call trivial
    exact ih ((h.occurs drives).clock m)

end Staged

/-- Every reachable processor is staged. -/
theorem Reachable.staged {allowed : HostCall → Prop} (reachable : Reachable allowed c) :
    Staged c := by
  obtain ⟨_, history⟩ := reachable.history
  exact Staged.powerOn.path history

end Sim6809
