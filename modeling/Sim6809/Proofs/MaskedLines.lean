/-
Masked lines cannot be seen.

FIRQ and IRQ pass two stages on their way in, like HALT and NMI, but they are looked at in
two places only: where an interrupt is chosen, each behind its mask, and in SYNC, which
looks at them without one. So as long as both masks are set, and the processor does not
come to SYNC, two runs in which these two lines do different things are the same run.

`blind` removes the two lines from every stage. The pieces of work of a cycle commute with
it, all but the choice of an interrupt, which does so if both masks are set. That the masks
are set between any two cycles does not say yet that they are when the choice is made, for
flags change in the middle of a cycle. What has to be excluded is that they are cleared and
set again before the cycle is over. Flags are cleared by an instruction only, and after the
last step of an instruction the only choice is the one in front of the next opcode, which
sets none (`Heedless`).
-/
import Sim6809.Proofs.InterruptReturn
import Sim6809.Proofs.Scratch
import Sim6809.Proofs.Stages

set_option autoImplicit false

namespace Sim6809

/-! ## Without the two lines -/

/-- The levels without FIRQ and IRQ. -/
def Levels.blind (levels : Levels) : Levels := { levels with firq := false, irq := false }

/-- Every stage without FIRQ and IRQ. -/
def Inputs.blind (i : Inputs) : Inputs :=
  { i with live := i.live.blind, latched := i.latched.blind, active := i.active.blind }

/-- A processor that FIRQ and IRQ do not reach. -/
def Processor.blind (c : Processor) : Processor := { c with inputs := c.inputs.blind }

/-- The same work on such a processor. -/
def Move.blind (m : Move) : Move := { m with next := m.next.blind }

theorem Move.blind_landed (m : Move) : m.landed.blind = m.blind.landed := rfl

namespace Processor

variable {c d : Processor}

theorem blind_clocked (c : Processor) : c.clocked.blind = c.blind.clocked := rfl

theorem blind_access (c : Processor) : c.blind.access = c.access := by
  have due : c.blind.due? = c.due? := rfl
  rw [access, access, due]
  cases c.due? with
  | none => rfl
  | some cycle => cases cycle <;> rfl

theorem blind_absorb (c : Processor) (byte : Byte) (cycle : BusCycle) :
    (c.absorb byte cycle).blind = c.blind.absorb byte cycle := by
  cases cycle with
  | fetchOpcode =>
    change (c.absorbOpcode byte).blind = c.blind.absorbOpcode byte
    unfold absorbOpcode
    dsimp only [blind]
    split <;> rfl
  | pull stack part =>
    by_cases half : part = .high .s ∨ part = .low .s
    · simp only [absorb, Move.blind, blind, if_pos half]
      rfl
    · simp only [absorb, Move.blind, blind, if_neg half]
  | _ => rfl

theorem blind_carryOut (c : Processor) (cycle : BusCycle) (byte : Byte) :
    (c.carryOut cycle byte).blind = c.blind.carryOut cycle byte := by
  rw [carryOut, Move.blind_landed, blind_absorb]
  rfl

theorem blind_loadRegister (c : Processor) (register : WordRegister) (value : Word) :
    (c.loadRegister register value).blind = c.blind.loadRegister register value := by
  by_cases s : register = .s
  · simp only [loadRegister, blind, if_pos s]
    rfl
  · simp only [loadRegister, blind, if_neg s]

theorem blind_transfer (c : Processor) (code : Byte) (value : Word) :
    (c.transfer code value).blind = c.blind.transfer code value := by
  by_cases s : Transferable.ofCode code = some (.word .s)
  · simp only [transfer, blind, if_pos s]
    rfl
  · simp only [transfer, blind, if_neg s]

/-- Effects arm NMI and leave the levels alone. -/
theorem blind_effect (c : Processor) : c.effect.blind = c.blind.effect := by
  have instruction : c.blind.instruction = c.instruction := rfl
  have regs : c.blind.regs = c.regs := rfl
  unfold effect
  rw [instruction, regs]
  dsimp only
  split
  all_goals try rfl
  -- word operations
  · split
    · exact blind_loadRegister _ _ _
    · rfl
  -- word loads
  · exact blind_loadRegister _ _ _
  -- branches
  · split <;> rfl
  · split <;> rfl
  -- address loads
  · split
    · rfl
    · rfl
    · exact blind_loadRegister _ _ _
  -- an exchange is two transfers
  · rw [blind_transfer, blind_transfer]
    rfl
  · exact blind_transfer _ _ _

theorem blind_act (c : Processor) (action : Action) :
    (c.act action).blind = c.blind.act action := by
  cases action with
  | operate =>
    change ({ next := c.effect.blind, queued := c.growth } : Move) = _
    rw [blind_effect]
    rfl
  | _ => rfl

/-! ## The choice of an interrupt -/

/-- FIRQ and IRQ are masked. -/
structure Masked (c : Processor) : Prop where
  irq : c.regs.cc.irqMask = true
  firq : c.regs.cc.firqMask = true

theorem Masked.of_regs (h : c.Masked) (regs : d.regs = c.regs) : d.Masked :=
  ⟨by rw [regs]; exact h.irq, by rw [regs]; exact h.firq⟩

/-- With both masked, neither is recognised. -/
theorem Masked.recognised (h : c.Masked) (active : Levels) :
    HardwareInterrupt.recognised active.blind c.regs.cc =
      HardwareInterrupt.recognised active c.regs.cc := by
  have same : HardwareInterrupt.eligible active.blind c.regs.cc =
      HardwareInterrupt.eligible active c.regs.cc := by
    funext interrupt
    cases interrupt with
    | nmi => rfl
    | firq => simp [HardwareInterrupt.eligible, h.firq]
    | irq => simp [HardwareInterrupt.eligible, h.irq]
  rw [HardwareInterrupt.recognised, same, ← HardwareInterrupt.recognised]

theorem blind_serving (c : Processor) (interrupt : HardwareInterrupt) :
    (c.serving interrupt).blind = c.blind.serving interrupt := by
  cases interrupt <;> rfl

theorem blind_serve? (h : c.Masked) : c.serve?.map Move.blind = c.blind.serve? := by
  have recognised : HardwareInterrupt.recognised c.blind.inputs.active c.blind.regs.cc =
      HardwareInterrupt.recognised c.inputs.active c.regs.cc := h.recognised c.inputs.active
  rw [serve?_eq_map, serve?_eq_map, recognised, Option.map_map]
  congr 1
  funext interrupt
  exact blind_serving c interrupt

theorem blind_phaseMove? (h : c.phase = .arbitration ∨ c.phase = .dispatch → c.Masked) :
    c.phaseMove?.map Move.blind = c.blind.phaseMove? := by
  have phase : c.blind.phase = c.phase := rfl
  have halt : c.blind.inputs.active.halt = c.inputs.active.halt := rfl
  unfold phaseMove?
  rw [phase]
  cases at_ : c.phase with
  | arbitration =>
    have recognised : HardwareInterrupt.recognised c.blind.inputs.active c.blind.regs.cc =
        HardwareInterrupt.recognised c.inputs.active c.regs.cc :=
      (h (Or.inl at_)).recognised c.inputs.active
    dsimp only
    rw [recognised]
    cases HardwareInterrupt.recognised c.inputs.active c.regs.cc <;> rfl
  | dispatch =>
    dsimp only
    rw [← blind_serve? (h (Or.inr at_))]
    cases c.serve? <;> rfl
  | resetHold | boundary =>
    dsimp only
    rw [halt]
    split <;> rfl
  | _ => rfl

theorem asked_of_blind (same : c.blind = d.blind)
    (h : c.phase = .arbitration ∨ c.phase = .dispatch → c.Masked) :
    d.phase = .arbitration ∨ d.phase = .dispatch → d.Masked := by
  have phase : c.blind.phase = d.blind.phase := congrArg Processor.phase same
  have regs : d.blind.regs = c.blind.regs := congrArg Processor.regs same.symm
  intro asks
  refine (h ?_).of_regs regs
  rw [show c.phase = d.phase from phase]
  exact asks

theorem blind_move? (h : c.phase = .arbitration ∨ c.phase = .dispatch → c.Masked) :
    c.move?.map Move.blind = c.blind.move? := by
  have current : c.blind.schedule.current = c.schedule.current := rfl
  unfold move?
  rw [current]
  cases c.schedule.current with
  | none => exact blind_phaseMove? h
  | some op =>
    cases op with
    | cycle cycle => rfl
    | action action =>
      exact congrArg some (blind_act { c with schedule := c.schedule.advance } action)

/-! ## Flags in the middle of a cycle -/

theorem Masked.raise (h : c.Masked) (which : InterruptVector) :
    (c.regs.cc.raise which.mask).irqMask = true ∧ (c.regs.cc.raise which.mask).firqMask = true := by
  have masks := c.regs.cc.masks_raise which
  rw [masks.1, masks.2, h.irq, h.firq]
  exact ⟨rfl, rfl⟩

theorem Masked.serving (h : c.Masked) (interrupt : HardwareInterrupt) :
    (c.serving interrupt).landed.Masked := by
  obtain ⟨irq, firq⟩ := h.raise interrupt.vector
  cases interrupt <;> exact ⟨irq, firq⟩

/-- An action other than the effect of the instruction clears no mask. -/
theorem Masked.act (h : c.Masked) {action : Action} (other : action ≠ .operate) :
    (c.act action).landed.Masked := by
  cases action with
  | operate => exact absurd rfl other
  | vector which =>
    obtain ⟨irq, firq⟩ := h.raise which
    exact ⟨irq, firq⟩
  | _ => exact ⟨h.irq, h.firq⟩

/-- Whenever an interrupt is chosen before the next cycle, both masks are set, or it is the
choice in front of an opcode. -/
def Heedless (c : Processor) : Prop :=
  c.Masked ∨ c.phase ≠ .dispatch ∧ c.phase ≠ .cwaiWait ∧
    (.action (.enter .dispatch) ∈ c.schedule.pending →
      ∃ cycle rest, c.schedule.pending = .cycle cycle :: rest)

/-- Behind the effect of CWAI there is a cycle before its frame, and no cycle of it pulls the
flags. -/
theorem enter_of_cwai {op : MicroOp} {rest : List MicroOp} (staged : Staged c)
    (pending : c.schedule.pending = op :: rest) (enter : .action (.enter .dispatch) ∈ rest) :
    (op = .action .operate → ∃ cycle more, rest = .cycle cycle :: more) ∧
      ∀ stack, op ≠ .cycle (.pull stack .cc) := by
  have mem : .action (.enter .dispatch) ∈ c.schedule.pending := by
    rw [pending]
    exact List.mem_cons_of_mem op enter
  cases staged.sourced.remarkable staged.orderly mem rfl with
  | fetch fetch _ => cases fetch
  | pull pull _ _ _ => cases pull
  | enter _ _ suffix =>
    rw [pending] at suffix
    obtain ⟨front, whole⟩ := suffix
    refine ⟨?_, ?_⟩
    · rintro rfl
      -- The effect is the second step.
      have once : .action .operate ∉ Instruction.cwai.program.drop 2 := by decide
      match front, whole with
      | [_], whole =>
        cases whole
        exact ⟨_, _, rfl⟩
      | _ :: _ :: more, whole =>
        refine absurd ?_ once
        rw [← whole]
        exact List.mem_append_right more List.mem_cons_self
    · rintro stack rfl
      have none : ∀ stack, .cycle (.pull stack .cc) ∉ Instruction.cwai.program := by
        intro stack
        cases stack <;> decide
      refine none stack ?_
      rw [← whole]
      exact List.mem_append_right front List.mem_cons_self

/-- No step queues a leave for a frame. -/
theorem enter_of_act {action : Action} {rest : List MicroOp}
    (enter : .action (.enter .dispatch) ∈ rest ++ (c.act action).queued) :
    .action (.enter .dispatch) ∈ rest := by
  rcases List.mem_append.1 enter with used | added
  · exact used
  · cases action with
    | operate =>
      obtain ⟨_, cycle, _⟩ := mem_growth added
      cases cycle
    | vector which =>
      exact absurd added (by decide : .action (.enter .dispatch) ∉ .cycle .dummy :: vectorFetch)
    | _ => cases added

namespace Heedless

/-- A byte can clear masks if it is pulled for the flags, in an instruction that has no frame
to stack. -/
theorem carryOut (staged : Staged c) (masked : c.Masked) {cycle : BusCycle}
    (due : c.due? = some cycle) (byte : Byte) : Heedless (c.carryOut cycle byte) := by
  obtain ⟨rest, pending⟩ := (due?_eq_some_iff staged.orderly.consistent).1 due
  by_cases other : ∀ stack, cycle ≠ .pull stack .cc
  · have cc := cc_carryOut c byte other
    exact Or.inl ⟨by rw [cc]; exact masked.irq, by rw [cc]; exact masked.firq⟩
  · obtain ⟨stack, rfl⟩ : ∃ stack, cycle = .pull stack .cc := by simpa using other
    have execution : c.phase = .execution := by
      have mem : .cycle (.pull stack .cc) ∈ c.schedule.pending := by
        rw [pending]
        exact List.mem_cons_self
      refine staged.admitted.execution_of_mem mem (fun interrupt => ?_) ?_
      · cases interrupt <;> cases stack <;> decide
      · cases stack <;> decide
    have landed := pending_carryOut staged.orderly due byte
    refine Or.inr ⟨?_, ?_, fun enter => ?_⟩
    · rw [phase_carryOut, execution]
      decide
    · rw [phase_carryOut, execution]
      decide
    · rw [landed, pending] at enter
      have enter : .action (.enter .dispatch) ∈ rest := by simpa [absorb] using enter
      exact absurd rfl ((enter_of_cwai staged pending enter).2 stack)

/-- So can the effect of an instruction, in front of a cycle. -/
theorem act (h : Heedless c) (staged : Staged c) {action : Action} {rest : List MicroOp}
    (pending : c.schedule.pending = .action action :: rest)
    (landed : ({ c with schedule := c.schedule.advance }.act action).landed.schedule.pending =
      rest ++ ({ c with schedule := c.schedule.advance }.act action).queued) :
    Heedless ({ c with schedule := c.schedule.advance }.act action).landed := by
  have mem : .action action ∈ c.schedule.pending := by
    rw [pending]
    exact List.mem_cons_self
  have behind : .action (.enter .dispatch) ∈
      ({ c with schedule := c.schedule.advance }.act action).landed.schedule.pending →
        .action (.enter .dispatch) ∈ rest := by
    intro enter
    rw [landed] at enter
    exact enter_of_act enter
  by_cases operates : action = .operate
  · subst operates
    have execution : c.phase = .execution :=
      staged.admitted.execution_of_mem mem (fun interrupt => by cases interrupt <;> decide)
        (by decide)
    have phase : ({ c with schedule := c.schedule.advance }.act .operate).landed.phase =
        .execution := (phase_act _ (by rintro _ ⟨⟩)).trans execution
    refine Or.inr ⟨by rw [phase]; decide, by rw [phase]; decide, fun enter => ?_⟩
    obtain ⟨cycle, more, next⟩ := (enter_of_cwai staged pending (behind enter)).1 rfl
    rw [landed, next]
    exact ⟨cycle, _, rfl⟩
  · rcases h with masked | ⟨dispatch, wait, cycle⟩
    · have masked : ({ c with schedule := c.schedule.advance } : Processor).Masked :=
        masked.of_regs rfl
      exact Or.inl (masked.act operates)
    · -- An action comes next, so no frame is in view.
      have clear : .action (.enter .dispatch) ∉ c.schedule.pending := by
        intro enter
        obtain ⟨other, more, next⟩ := cycle enter
        rw [pending] at next
        cases next
      have none := fun enter => clear (by
        rw [pending]
        exact List.mem_cons_of_mem _ (behind enter))
      by_cases leaves : ∃ phase, action = .enter phase
      · obtain ⟨phase, rfl⟩ := leaves
        rcases staged.sourced.enters staged.orderly mem with rfl | rfl | rfl
        · exact Or.inr ⟨nofun, nofun, fun enter => absurd enter none⟩
        · exact Or.inr ⟨nofun, nofun, fun enter => absurd enter none⟩
        · exact absurd mem clear
      · have phase : ({ c with schedule := c.schedule.advance }.act action).landed.phase =
            c.phase := phase_act _ fun phase enters => leaves ⟨phase, enters⟩
        exact Or.inr ⟨by rw [phase]; exact dispatch, by rw [phase]; exact wait,
          fun enter => absurd enter none⟩

/-- A phase goes on with its masks, and before it chooses it has to have them. -/
theorem phaseGoes (h : Heedless c) {m : Move} (goes : PhaseGoes c m)
    (landed : m.landed.schedule.pending = m.queued) (asked : c.phase = .arbitration → c.Masked) :
    Heedless m.landed := by
  cases goes with
  | reset _ => exact Or.inl ⟨rfl, rfl⟩
  | release _ _ =>
    refine Or.inr ⟨nofun, nofun, fun _ => ?_⟩
    rw [landed]
    exact ⟨_, _, rfl⟩
  | boundary _ _ | retire _ =>
    refine Or.inr ⟨nofun, nofun, fun enter => ?_⟩
    rw [landed] at enter
    cases enter
  | asked phase _ => exact Or.inl ((asked phase).of_regs rfl)
  | unasked phase _ => exact Or.inl ((asked phase).of_regs rfl)
  | served phase _ => exact Or.inl ((h.resolve_right fun ⟨other, _⟩ => other phase).serving _)
  | unserved phase _ => exact Or.inl ((h.resolve_right fun ⟨other, _⟩ => other phase).of_regs rfl)

theorem move (h : Heedless c) (staged : Staged c) {m : Move} (due : c.move? = some m)
    (asked : c.phase = .arbitration → c.Masked) : Heedless m.landed := by
  have landed := staged.pending_landed due
  rcases move?_cases staged.orderly.consistent due with ⟨action, rest, pending, rfl⟩ | ⟨dry, goes⟩
  · rw [pending, List.tail_cons] at landed
    exact h.act staged pending landed
  · rw [dry, List.tail_nil, List.nil_append] at landed
    exact h.phaseGoes (Processor.phaseGoes goes) landed asked

/-- Up to the next cycle two processors stay alike, if the masks are set in the end. -/
theorem settle_blind (h : Heedless c) (staged : Staged c) (same : c.blind = d.blind)
    (masked : c.settle.state.Masked) : c.settle.state.blind = d.settle.state.blind := by
  refine settle_induction (P := fun c e => ∀ d : Processor, Staged c → Heedless c →
    c.blind = d.blind → e.Masked → e.blind = d.settle.state.blind) ?_ ?_
    staged.orderly.consistent d staged h same masked
  · intro c still d staged h same masked
    have unasked : c.phase = .arbitration ∨ c.phase = .dispatch → c.Masked := fun _ => masked
    have still' : d.move? = none := by
      have none := congrArg move? same
      rw [← blind_move? unasked, still, ← blind_move? (asked_of_blind same unasked)] at none
      exact Option.map_eq_none_iff.1 none.symm
    rw [settle_of_rest still']
    exact same
  · intro c m consistent due ih d staged h same masked
    have settled := congrArg Reported.state (settle_of_move consistent due)
    -- The choice in front of an opcode leaves the registers to the end.
    have before : c.phase = .arbitration → c.Masked := by
      intro phase
      have dry : c.schedule.pending = [] := by
        have admitted := staged.admitted
        rw [phase] at admitted
        exact admitted
      refine masked.of_regs ?_
      rw [← regs_settle_of_arbitration consistent dry phase, settled]
    have asked : c.phase = .arbitration ∨ c.phase = .dispatch → c.Masked := by
      rintro (phase | phase)
      · exact before phase
      · exact h.resolve_right fun ⟨other, _⟩ => other phase
    have moves := congrArg move? same
    rw [← blind_move? asked, due, ← blind_move? (asked_of_blind same asked)] at moves
    obtain ⟨m', due', alike⟩ := Option.map_eq_some_iff.1 moves.symm
    have consistent' : d.schedule.Consistent := by
      have schedule : d.blind.schedule = c.blind.schedule := congrArg Processor.schedule same.symm
      rw [show d.schedule = c.schedule from schedule]
      exact consistent
    rw [settle_of_move consistent' due']
    refine ih m'.landed (staged.move due) (h.move staged due before) ?_ masked
    rw [Move.blind_landed, Move.blind_landed, alike]

end Heedless

/-! ## Between two cycles -/

/-- A processor between two cycles whose masks are set, outside of SYNC. -/
structure Shielded (c : Processor) : Prop where
  staged : Staged c
  resting : Resting c
  masked : c.Masked
  awake : c.phase ≠ .syncWait ∧ c.phase ≠ .syncHold

namespace Shielded

/-- With a cycle or nothing next, no instruction does anything before the cycle. -/
theorem move (h : Shielded c) {m : Move} (due : c.move? = some m) : Shielded m.landed := by
  have consistent := h.staged.orderly.consistent
  have orderly := h.staged.orderly
  rcases move?_cases consistent due with ⟨action, rest, pending, rfl⟩ | ⟨dry, goes⟩
  · have bus := h.resting (.action action) (by
      rw [Schedule.current_eq_head? consistent, pending]
      rfl)
    cases bus
  · have staged := h.staged.move due
    have resting : Resting m.landed := resting_phaseMove orderly dry goes
    have masked := h.masked
    cases phaseGoes goes with
    | reset _ => exact ⟨staged, resting, ⟨rfl, rfl⟩, nofun, nofun⟩
    | served _ _ => exact ⟨staged, resting, masked.serving _, nofun, nofun⟩
    | _ => exact ⟨staged, resting, masked.of_regs rfl, nofun, nofun⟩

theorem settle (h : Shielded c) : Shielded c.settle.state :=
  settle_preserves (fun shielded due => shielded.move due) h

theorem settle_blind (h : Shielded c) (same : c.blind = d.blind) :
    c.settle.state.blind = d.settle.state.blind :=
  Heedless.settle_blind (Or.inl h.masked) h.staged same h.settle.masked

/-- Both leave a CWAI wait, or neither does. -/
theorem wake_blind (h : c.Masked) : c.wake?.map Move.blind = c.blind.wake? := by
  have current : c.blind.schedule.current = c.schedule.current := rfl
  have phase : c.blind.phase = c.phase := rfl
  have halt : c.blind.inputs.active.halt = c.inputs.active.halt := rfl
  unfold wake?
  rw [current, phase, halt, ← blind_serve? h]
  split
  · split <;> rfl
  · rfl

theorem prepare (h : Shielded c) (same : c.blind = d.blind) :
    Shielded c.prepare.state ∧ c.prepare.state.blind = d.prepare.state.blind := by
  have settled := h.settle
  have alike := h.settle_blind same
  have masked : d.settle.state.Masked := by
    have regs : c.settle.state.blind.regs = d.settle.state.blind.regs :=
      congrArg Processor.regs alike
    exact settled.masked.of_regs regs.symm
  have wakes := congrArg wake? alike
  rw [← wake_blind settled.masked, ← wake_blind masked] at wakes
  rcases prepare_cases c with ⟨asleep, stays⟩ | ⟨m, wake, woken⟩
  · rcases prepare_cases d with ⟨_, stays'⟩ | ⟨m', wake', _⟩
    · rw [stays, stays']
      exact ⟨settled, alike⟩
    · rw [asleep, wake'] at wakes
      cases wakes
  · rcases prepare_cases d with ⟨asleep', _⟩ | ⟨m', wake', woken'⟩
    · rw [wake, asleep'] at wakes
      cases wakes
    · rw [wake, wake'] at wakes
      have landed : m.blind = m'.blind := Option.some.inj wakes
      rw [woken, woken']
      refine ⟨?_, by rw [Move.blind_landed, Move.blind_landed, landed]⟩
      obtain ⟨current, _, _, served⟩ := wake?_eq_some wake
      obtain ⟨interrupt, _, rfl⟩ := eq_serving_of_serve? served
      have staged : Staged c.settle.state := settled.staged
      have wakes : Occurs anyCall c.settle.state (.move (c.settle.state.serving interrupt))
          (c.settle.state.serving interrupt).landed := .wake wake
      have on := staged.occurs wakes
      refine ⟨on, ?_, settled.masked.serving interrupt, ?_⟩
      · intro op next
        have dry := pending_eq_nil_of_current staged.orderly.consistent current
        rw [Schedule.current_eq_head? on.orderly.consistent,
          pending_of_served staged.orderly.consistent dry served] at next
        cases next
        rfl
      · cases interrupt <;> exact ⟨nofun, nofun⟩

theorem ready (h : Shielded c) (same : c.blind = d.blind) :
    Shielded c.ready ∧ c.ready.blind = d.ready.blind := by
  obtain ⟨prepared, alike⟩ := h.prepare same
  have announce : ∀ e : Processor, e.announce.blind = e.blind.announce := by
    intro e
    change (if e.asksFirst then _ else _ : Processor).blind = if e.asksFirst then _ else _
    split <;> rfl
  refine ⟨?_, ?_⟩
  · have quiet := announce_eq c.prepare.state
    refine ⟨h.staged.ready, resting_ready h.staged.orderly.consistent, ?_, ?_⟩
    · exact prepared.masked.of_regs (by rw [Processor.ready, quiet])
    · rw [Processor.ready, quiet]
      exact prepared.awake
  · rw [Processor.ready, Processor.ready, announce, announce, alike]

theorem complete (h : Shielded c) (announced : c.asksFirst = false) (same : c.blind = d.blind)
    (byte : Byte) (masked : (c.complete byte).state.Masked) :
    (c.complete byte).state.blind = (d.complete byte).state.blind := by
  have schedule : c.blind.schedule = d.blind.schedule := congrArg Processor.schedule same
  have phase : c.blind.phase = d.blind.phase := congrArg Processor.phase same
  have due_eq : d.due? = c.due? := by
    rw [due?, due?, show c.schedule = d.schedule from schedule]
  unfold Processor.complete at masked ⊢
  rw [due_eq]
  cases due : c.due? with
  | some cycle =>
    rw [due] at masked
    refine (Heedless.carryOut h.staged h.masked due byte).settle_blind
      (h.staged.carryOut due announced byte) ?_ masked
    rw [blind_carryOut, blind_carryOut, same]
  | none =>
    have awake : d.phase ≠ .syncWait ∧ d.phase ≠ .syncHold := by
      rw [← show c.phase = d.phase from phase]
      exact h.awake
    dsimp only
    rw [idled_of_awake h.awake, idled_of_awake awake, blind_clocked, blind_clocked, same]

end Shielded

end Processor

/-! ## Two boards -/

namespace Board

variable {β β' σ σ' : Type} [Bus β] [Bus β']

/-- Two recorded boards that differ in what FIRQ and IRQ have done, if at all. -/
structure Indistinct (b : Board (Recorded β) σ) (b' : Board (Recorded β') σ') : Prop where
  cpu : b.cpu.blind = b'.cpu.blind
  bus : AnswersAlike b.bus.bus b'.bus.bus
  transfers : b.bus.transfers = b'.bus.transfers

variable {m : Monitor σ} {m' : Monitor σ'} {b : Board (Recorded β) σ} {b' : Board (Recorded β') σ'}

theorem Indistinct.withLevels (h : Indistinct b b') {levels levels' : Levels}
    (same : levels.blind = levels'.blind) :
    Indistinct (b.withLevels levels) (b'.withLevels levels') := by
  refine { h with cpu := ?_ }
  have driven : ∀ (c : Processor) (levels : Levels), (c.withLevels levels).blind =
      { c.blind with inputs := { c.blind.inputs with live := levels.blind } } := fun _ _ => rfl
  change (b.cpu.withLevels levels).blind = (b'.cpu.withLevels levels').blind
  rw [driven, driven, h.cpu, same]

/-- A cycle leaves them so, if the masks are still set after it. -/
theorem Indistinct.tick (h : Indistinct b b') (proceeds : m.Proceeds) (proceeds' : m'.Proceeds)
    (shielded : b.cpu.Shielded) (masked : (tick m b).cpu.Masked) :
    Indistinct (tick m b) (tick m' b') := by
  obtain ⟨notes, clocked⟩ := clock_of_made (clock_proceeds proceeds b)
  obtain ⟨notes', clocked'⟩ := clock_of_made (clock_proceeds proceeds' b')
  obtain ⟨ready, alike⟩ := shielded.ready h.cpu
  have access : b.cpu.ready.access = b'.cpu.ready.access := by
    rw [← Processor.blind_access, alike, Processor.blind_access]
  obtain ⟨byte, bus⟩ := h.bus.perform b.cpu.ready.access
  rw [Board.tick, clocked, Recorded.perform] at masked
  rw [Board.tick, Board.tick, clocked, clocked', ← access, Recorded.perform,
    Recorded.perform, ← byte, h.transfers]
  exact ⟨ready.complete (Processor.asksFirst_announce _) alike _ masked, bus, rfl⟩

/-- So does a run, if they are set after each of its cycles and SYNC is not among them. -/
theorem Indistinct.clocks (h : Indistinct b b') (proceeds : m.Proceeds) (proceeds' : m'.Proceeds)
    (reachable : Reachable anyCall b.cpu) {lines lines' : List Levels}
    (schedules : lines.map Levels.blind = lines'.map Levels.blind)
    (masked : ∀ k ≤ lines.length, (Board.clocks m (lines.take k) b).cpu.Masked)
    (awake : ∀ k ≤ lines.length, (Board.clocks m (lines.take k) b).cpu.phase ≠ .syncWait ∧
      (Board.clocks m (lines.take k) b).cpu.phase ≠ .syncHold) :
    Indistinct (Board.clocks m lines b) (Board.clocks m' lines' b') := by
  induction lines generalizing b b' lines' with
  | nil =>
    obtain rfl : lines' = [] := List.map_eq_nil_iff.1 schedules.symm
    exact h
  | cons levels lines ih =>
    obtain ⟨levels', more, rfl, same, rest⟩ := List.map_eq_cons_iff.1 schedules.symm
    have driven : Reachable anyCall (b.withLevels levels).cpu :=
      .call (.drive levels) trivial reachable
    have shielded : (b.withLevels levels).cpu.Shielded :=
      ⟨driven.staged, driven.resting, (masked 0 (Nat.zero_le _)).of_regs rfl,
        awake 0 (Nat.zero_le _)⟩
    have later : ∀ k ≤ lines.length, k + 1 ≤ (levels :: lines).length :=
      fun k le => Nat.succ_le_succ le
    have first := (h.withLevels same.symm).tick proceeds proceeds' shielded
      (masked 1 (later 0 (Nat.zero_le _)))
    exact ih first (.clock m _ driven) rest.symm (fun k le => masked (k + 1) (later k le))
      fun k le => awake (k + 1) (later k le)

end Board

/-- **Masked lines are invisible.** Two runs without hooks start alike but for FIRQ and IRQ,
and then HALT and NMI are driven the same in both and the other two lines in any way. If in
the first run both masks are set at the start and after every cycle, and it is never in SYNC,
then both make the same accesses, one in each cycle, and their processors stay alike but for
the two lines. -/
theorem masked_lines_invisible {β β' σ σ' : Type} [Bus β] [Bus β'] (m : Monitor σ)
    (m' : Monitor σ') (hooks : m.hooks = .none) (hooks' : m'.hooks = .none)
    (b : Board (Recorded β) σ) (b' : Board (Recorded β') σ')
    (reachable : Reachable anyCall b.cpu) (same : b.cpu.blind = b'.cpu.blind)
    (alike : AnswersAlike b.bus.bus b'.bus.bus) (transfers : b.bus.transfers = b'.bus.transfers)
    (lines lines' : List Levels) (schedules : lines.map Levels.blind = lines'.map Levels.blind)
    (masked : ∀ k ≤ lines.length,
      (Board.clocks m (lines.take k) b).cpu.regs.cc.irqMask = true ∧
      (Board.clocks m (lines.take k) b).cpu.regs.cc.firqMask = true)
    (awake : ∀ k ≤ lines.length, (Board.clocks m (lines.take k) b).cpu.phase ≠ .syncWait ∧
      (Board.clocks m (lines.take k) b).cpu.phase ≠ .syncHold) :
    (Board.clocks m lines b).bus.transfers = (Board.clocks m' lines' b').bus.transfers ∧
    (Board.clocks m lines b).bus.transfers.size = b.bus.transfers.size + lines.length ∧
    (Board.clocks m lines b).cpu.blind = (Board.clocks m' lines' b').cpu.blind := by
  have proceeds := Monitor.proceeds_of_hooks_none hooks
  have proceeds' := Monitor.proceeds_of_hooks_none hooks'
  have start : Board.Indistinct b b' := ⟨same, alike, transfers⟩
  have run := start.clocks proceeds proceeds' reachable schedules
    (fun k le => ⟨(masked k le).1, (masked k le).2⟩) awake
  exact ⟨run.transfers, (Board.balanced_clocks_of_proceeds proceeds lines b).accesses, run.cpu⟩

/-- In a row of NOPs after a reset, with IRQ asserted in one run and FIRQ in the other. -/
theorem masked_lines_invisible_in_nops :
    let ram : Ram := Ram.overlay (fun _ => 0x12) 0xFFFE [0x10, 0x00]
    let b := Board.clocks .silent (List.replicate 5 .low)
      (⟨.powerOn, ⟨ram, #[]⟩, ()⟩ : Board (Recorded Ram) Unit)
    let lines := List.replicate 8 { Levels.low with irq := true }
    let lines' := List.replicate 8 { Levels.low with firq := true }
    (Board.clocks .silent lines b).bus.transfers = (Board.clocks .silent lines' b).bus.transfers ∧
    (Board.clocks .silent lines b).bus.transfers.size = b.bus.transfers.size + 8 ∧
    (Board.clocks .silent lines b).cpu.blind = (Board.clocks .silent lines' b).cpu.blind := by
  intro ram b lines lines'
  have reachable : Reachable anyCall b.cpu :=
    .clocks .silent (fun _ => trivial) (List.replicate 5 .low) _ .powerOn
  exact masked_lines_invisible .silent .silent rfl rfl b b reachable rfl (fun _ => rfl) rfl lines
    lines' rfl (by decide +kernel) (by decide +kernel)

end Sim6809
