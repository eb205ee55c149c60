/-
Steps come to their end.

A step is clocked until an opcode is due or the processor waits, and nothing counts its
clocks. What bounds them is what is left to do. A pending step stands for some cycles, those
that it can queue included (`MicroOp.cost`). Behind the last one interrupts may be served, one
entry after the other, but each of them sets a mask or uses up an edge of NMI, so there are
four at most (`Processor.entriesLeft`). The two together are a budget. No move adds to it and
every cycle takes something off it (`budget_move`, `budget_carryOut`), so it runs out, and the
processor is never busy without one.

The exception is the opcode itself. Any number of page selections can stand before it, and
what bounds these is memory: it is not written while they are read, so the first byte that is
none is found in one turn through it at most. If there is none, the step goes on for ever.
-/
import Sim6809.Proofs.Ledger
import Sim6809.Proofs.Stages

set_option autoImplicit false

namespace Sim6809

/-! ## What a pending step stands for -/

/-- A bound for the cycles of a step and of those that it queues. -/
def MicroOp.cost : MicroOp → Nat
  | cycle .fetchPostbyte => 32
  | cycle _ => 1
  | action .operate => 18
  | action (.vector _) => 4
  | action _ => 0

/-- The same for several steps. -/
def costs : List MicroOp → Nat
  | [] => 0
  | op :: ops => op.cost + costs ops

@[simp] theorem costs_nil : costs [] = 0 := rfl

@[simp] theorem costs_cons (op : MicroOp) (ops : List MicroOp) :
    costs (op :: ops) = op.cost + costs ops := rfl

@[simp] theorem costs_append (front back : List MicroOp) :
    costs (front ++ back) = costs front + costs back := by
  induction front with
  | nil => simp
  | cons op front ih => rw [List.cons_append, costs_cons, costs_cons, ih, Nat.add_assoc]

theorem costs_le_of_suffix {ops rest : List MicroOp} (suffix : rest <:+ ops) :
    costs rest ≤ costs ops := by
  obtain ⟨front, rfl⟩ := suffix
  rw [costs_append]
  exact Nat.le_add_left _ _

/-- Steps that queue nothing cost a cycle each. -/
theorem costs_eq_length {ops : List MicroOp} (plain : ∀ op ∈ ops, op.cost = 1) :
    costs ops = ops.length := by
  induction ops with
  | nil => rfl
  | cons op ops ih =>
    rw [costs_cons, plain op List.mem_cons_self,
      ih fun other mem => plain other (List.mem_cons_of_mem op mem), List.length_cons,
      Nat.add_comm]

variable {c d : Processor}

theorem costs_growth (c : Processor) : costs c.growth ≤ 18 := by
  rw [costs_eq_length]
  · exact (Processor.growth_fits c).2.1
  · intro op mem
    obtain ⟨cycle, rfl, plain⟩ := mem_growth mem
    cases cycle <;> first | rfl | cases plain

/-- An action queues no more than it stands for. -/
theorem costs_act (c : Processor) (action : Action) :
    costs (c.act action).queued ≤ (MicroOp.action action).cost := by
  cases action with
  | operate => exact costs_growth c
  | vector which => exact (by decide : costs (.cycle .dummy :: vectorFetch) ≤ 4)
  | _ => exact Nat.zero_le _

theorem costs_program (page opcode : Byte) : costs (Instruction.decode page opcode).program ≤ 33 :=
  Instruction.decode_induction (P := fun i => costs i.program ≤ 33)
    (by decide +kernel) (by decide +kernel) (by decide +kernel) page opcode

theorem costs_indexed (postbyte page opcode : Byte)
    (indexed : (Instruction.decode page opcode).mode = .indexed) :
    costs (IndexForm.program postbyte ++ (Instruction.decode page opcode).body) ≤ 31 := by
  have address : ∀ form : IndexForm, costs form.cycles ≤ 6 := by
    intro form
    cases form <;> decide
  have pointer :
      costs (if IndexForm.isIndirect postbyte then IndexForm.indirection else []) ≤ 3 := by
    split <;> decide
  have body : costs (Instruction.decode page opcode).body ≤ 22 :=
    Instruction.decode_induction (P := fun i => i.mode = .indexed → costs i.body ≤ 22)
      (by decide +kernel) (by decide +kernel) (by decide +kernel) page opcode indexed
  have form := address (IndexForm.ofPostbyte postbyte)
  rw [IndexForm.program, costs_append, costs_append]
  omega

theorem costs_entry (interrupt : HardwareInterrupt) : costs interrupt.entrySteps ≤ 15 := by
  cases interrupt <;> decide

/-- Whatever is pending, it is not much. -/
theorem Staged.costs_le (h : Staged c) : costs c.schedule.pending ≤ 33 := by
  obtain ⟨ops, source, suffix⟩ := h.sourced
  obtain ⟨page, opcode, decoded⟩ := h.orderly.decoded
  refine Nat.le_trans (costs_le_of_suffix suffix) ?_
  have plain : ∀ {ops : List MicroOp}, (∀ op ∈ ops, op.cost = 1) → ops.length ≤ 33 →
      costs ops ≤ 33 := by
    intro ops each short
    rw [costs_eq_length each]
    exact short
  cases source with
  | fetch | branch | vector => decide
  | program =>
    rw [← decoded]
    exact costs_program page opcode
  | indexed postbyte mode =>
    rw [← decoded] at mode ⊢
    exact Nat.le_trans (costs_indexed postbyte page opcode mode) (by decide)
  | pushes stack list =>
    refine plain ?_ (Nat.le_trans (length_pushProgram_le stack list) (by decide))
    intro op mem
    obtain ⟨part, _, rfl⟩ := List.mem_map.1 mem
    rfl
  | @pulls stack _ =>
    refine plain ?_ (Nat.le_trans (length_pullProgram_le stack _) (by decide))
    intro op mem
    rcases mem_pullProgram mem with rfl | ⟨part, _, rfl⟩ <;> rfl
  | unwind entire => cases entire <;> decide
  | entry interrupt => exact Nat.le_trans (costs_entry interrupt) (by decide)

/-! ## Interrupts still to come

Nobody drives the lines during a step, so NMI has one edge left at most. -/

/-- How often NMI can be served on lines that stay: for the edge that is latched, and for one
that is still to be seen. -/
def Inputs.nmisLeft (i : Inputs) : Nat :=
  (i.latched.nmi || i.active.nmi).toNat + (i.live.nmi && !i.nmiPrevious).toNat

/-- How many of the other two are not masked. -/
def ConditionCodes.unmasked (cc : ConditionCodes) : Nat :=
  (!cc.firqMask).toNat + (!cc.irqMask).toNat

/-- How many interrupts can be served one after the other before the next opcode. -/
def Processor.entriesLeft (c : Processor) : Nat := c.inputs.nmisLeft + c.regs.cc.unmasked

/-- Serving an interrupt unmasks none, and masks the one that is served, unless it is NMI. -/
theorem ConditionCodes.unmasked_raise (cc : ConditionCodes) {active : Levels}
    {interrupt : HardwareInterrupt} (eligible : interrupt.eligible active cc = true) :
    (cc.raise interrupt.vector.mask).unmasked + (if interrupt = .nmi then 0 else 1) ≤
      cc.unmasked := by
  obtain ⟨halt, nmi, firq, irq⟩ := active
  obtain ⟨e, f, h, i, n, z, v, c⟩ := cc
  revert e f h i n z v c halt nmi firq irq
  cases interrupt <;> decide +kernel

theorem Inputs.nmisLeft_cycle (i : Inputs) : i.cycle.nmisLeft ≤ i.nmisLeft := by
  obtain ⟨⟨_, live, _, _⟩, ⟨_, latched, _, _⟩, ⟨_, active, _, _⟩, armed, previous⟩ := i
  simp only [nmisLeft, cycle, activate, latch]
  revert live latched active armed previous
  decide

namespace Processor

theorem entriesLeft_le (c : Processor) : c.entriesLeft ≤ 4 := by
  have latched := Bool.toNat_le (c.inputs.latched.nmi || c.inputs.active.nmi)
  have edge := Bool.toNat_le (c.inputs.live.nmi && !c.inputs.nmiPrevious)
  have firq := Bool.toNat_le (!c.regs.cc.firqMask)
  have irq := Bool.toNat_le (!c.regs.cc.irqMask)
  simp only [entriesLeft, Inputs.nmisLeft, ConditionCodes.unmasked]
  omega

/-- An interrupt that is served is one less to come. -/
theorem entriesLeft_serving {interrupt : HardwareInterrupt}
    (recognised : HardwareInterrupt.recognised c.inputs.active c.regs.cc = some interrupt) :
    (c.serving interrupt).landed.entriesLeft + 1 ≤ c.entriesLeft := by
  have eligible := (HardwareInterrupt.recognised_eq_some_iff.1 recognised).1
  have masks := c.regs.cc.unmasked_raise eligible
  have regs : (c.serving interrupt).landed.regs.cc = c.regs.cc.raise interrupt.vector.mask := by
    cases interrupt <;> rfl
  rw [entriesLeft, entriesLeft, regs]
  cases interrupt with
  | nmi =>
    have active : c.inputs.active.nmi = true := eligible
    have used : (c.serving .nmi).landed.inputs.nmisLeft + 1 = c.inputs.nmisLeft := by
      change 0 + (c.inputs.live.nmi && !c.inputs.nmiPrevious).toNat + 1 = _
      rw [Inputs.nmisLeft, active, Bool.or_true, Bool.toNat_true]
      omega
    omega
  | firq | irq => exact Nat.add_le_add_left masks c.inputs.nmisLeft

/-! ## The budget -/

/-- A bound for the cycles up to the end of a step: what is pending, and the entries that can
follow in this phase. An entry takes 19 cycles, of which the last four come after the
interrupt has been chosen. Nothing is needed where a step ends. -/
def budget (c : Processor) : Nat :=
  match c.phase with
  | .execution =>
    if c.schedule.pending = [.cycle .fetchOpcode] then 0 else costs c.schedule.pending + 76
  | .boundary | .arbitration => costs c.schedule.pending + 19 * c.entriesLeft
  | .dispatch => costs c.schedule.pending + 4 + 19 * (c.entriesLeft - 1)
  | .reset | .resetHold => 79
  | .cwaiWait | .syncWait | .syncHold | .locked => 0

theorem budget_of_execution (phase : c.phase = .execution) :
    c.budget ≤ costs c.schedule.pending + 76 := by
  rw [budget, phase]
  dsimp only
  split <;> omega

theorem budget_le (h : Staged c) : c.budget ≤ 109 := by
  have entries := c.entriesLeft_le
  have few := h.costs_le
  have admitted := h.admitted
  unfold budget
  split
  · split <;> omega
  · next phase =>
    rw [phase] at admitted
    have vector := costs_le_of_suffix admitted
    have four : costs (.cycle .dummy :: vectorFetch) = 4 := by decide
    omega
  · next phase =>
    rw [phase] at admitted
    rw [show c.schedule.pending = [] from admitted, costs_nil]
    omega
  all_goals omega

/-- A step outside of an instruction queues nothing, and is no effect. -/
theorem cost_le_one (h : Staged c) {op : MicroOp} (mem : op ∈ c.schedule.pending)
    (other : c.phase ≠ .execution) : op.cost ≤ 1 := by
  have entry : ∀ interrupt : HardwareInterrupt, ∀ op ∈ interrupt.entrySteps, op.cost ≤ 1 := by
    intro interrupt
    cases interrupt <;> decide
  have vector : ∀ op ∈ MicroOp.cycle .dummy :: vectorFetch, op.cost ≤ 1 := by decide
  by_cases little : op.cost ≤ 1
  · exact little
  · exact absurd (h.admitted.execution_of_mem mem (fun interrupt inside =>
      little (entry interrupt op inside)) fun inside => little (vector op inside)) other

/-- Such an action leaves the interrupts alone. -/
theorem entriesLeft_act (c : Processor) {action : Action}
    (little : (MicroOp.action action).cost ≤ 1) :
    (c.act action).landed.entriesLeft = c.entriesLeft := by
  cases action with
  | operate => exact absurd little (by decide)
  | vector which => exact absurd little (by cases which <;> decide)
  | _ => rfl

/-- Steps are pending in three phases. -/
theorem phase_of_pending (h : Staged c) {op : MicroOp} (mem : op ∈ c.schedule.pending) :
    c.phase = .execution ∨ c.phase = .boundary ∨ c.phase = .dispatch := by
  have admitted := h.admitted
  cases phase : c.phase with
  | execution => exact Or.inl rfl
  | boundary => exact Or.inr (Or.inl rfl)
  | dispatch => exact Or.inr (Or.inr rfl)
  | _ =>
    rw [phase] at admitted
    rw [show c.schedule.pending = [] from admitted] at mem
    cases mem

/-- In the same phase, less is needed for less. -/
theorem budget_mono {k : Nat}
    (busy : c.phase = .execution ∨ c.phase = .boundary ∨ c.phase = .dispatch)
    (other : c.schedule.pending ≠ [.cycle .fetchOpcode]) (phase : d.phase = c.phase)
    (pending : costs d.schedule.pending + k ≤ costs c.schedule.pending)
    (entries : c.phase ≠ .execution → d.entriesLeft ≤ c.entriesLeft) :
    d.budget + k ≤ c.budget := by
  rcases busy with at_ | at_ | at_
  · have upper := budget_of_execution (phase.trans at_)
    have whole : c.budget = costs c.schedule.pending + 76 := by
      rw [budget, at_]
      exact if_neg other
    omega
  · have fewer := entries (by rw [at_]; decide)
    rw [budget, budget, phase, at_]
    dsimp only
    omega
  · have fewer := entries (by rw [at_]; decide)
    rw [budget, budget, phase, at_]
    dsimp only
    omega

/-- No action adds to the budget. -/
theorem budget_act (h : Staged c) {action : Action} {rest : List MicroOp}
    (pending : c.schedule.pending = .action action :: rest)
    (landed : ({ c with schedule := c.schedule.advance }.act action).landed.schedule.pending =
      rest ++ ({ c with schedule := c.schedule.advance }.act action).queued) :
    ({ c with schedule := c.schedule.advance }.act action).landed.budget ≤ c.budget := by
  have mem : .action action ∈ c.schedule.pending := by
    rw [pending]
    exact List.mem_cons_self
  have other : c.schedule.pending ≠ [.cycle .fetchOpcode] := by
    rw [pending]
    exact nofun
  by_cases leaves : ∃ phase, action = .enter phase
  · -- The end of an instruction that goes into a wait, or of CWAI, which goes into an entry.
    obtain ⟨phase, rfl⟩ := leaves
    have last := h.sourced.rest_eq_nil h.orderly pending rfl
    have execution : c.phase = .execution := by
      refine h.admitted.execution_of_mem mem (fun interrupt => ?_) ?_
      · cases interrupt <;> cases phase <;> decide
      · cases phase <;> decide
    have whole : c.budget = costs c.schedule.pending + 76 := by
      rw [budget, execution]
      exact if_neg other
    rw [whole]
    have entries := c.entriesLeft_le
    rcases h.sourced.enters h.orderly mem with rfl | rfl | rfl
    · exact Nat.zero_le _
    · exact Nat.zero_le _
    · change costs (Processor.act _ (.enter .dispatch)).landed.schedule.pending + 4 +
        19 * (c.entriesLeft - 1) ≤ _
      rw [landed, last]
      change 0 + 4 + 19 * (c.entriesLeft - 1) ≤ _
      omega
  · refine budget_mono (k := 0) (phase_of_pending h mem) other
      (phase_act _ fun phase enters => leaves ⟨phase, enters⟩) ?_ ?_
    · have queued := costs_act { c with schedule := c.schedule.advance } action
      rw [landed, pending, costs_append, costs_cons]
      omega
    · intro outside
      have same := entriesLeft_act { c with schedule := c.schedule.advance }
        (cost_le_one h mem outside)
      exact Nat.le_of_eq same

/-- Nor does a phase that goes on: an entry that begins is paid for by the interrupt that is
served at its end. -/
theorem budget_phaseGoes {m : Move} (dry : c.schedule.pending = []) (goes : PhaseGoes c m)
    (landed : m.landed.schedule.pending = m.queued) : m.landed.budget ≤ c.budget := by
  have entries := c.entriesLeft_le
  cases goes with
  | reset phase =>
    rw [budget, budget, phase]
    exact Nat.le_refl _
  | release phase _ =>
    have three : costs vectorFetch = 3 := by decide
    rw [budget, budget, phase]
    change costs (Move.landed _).schedule.pending + 19 * c.entriesLeft ≤ 79
    rw [landed, three]
    omega
  | boundary phase _ =>
    rw [budget, budget, phase]
    exact Nat.le_refl _
  | @asked interrupt phase recognised =>
    have entry := costs_entry interrupt
    have one := entriesLeft_serving recognised
    rw [budget, budget, phase]
    change costs (Move.landed _).schedule.pending + 4 + 19 * (c.entriesLeft - 1) ≤
      costs c.schedule.pending + 19 * c.entriesLeft
    rw [landed]
    change costs interrupt.entrySteps + 4 + 19 * (c.entriesLeft - 1) ≤ _
    omega
  | unasked phase _ =>
    rw [budget, budget]
    change (if (Move.landed _).schedule.pending = _ then 0 else _) ≤ _
    rw [if_pos landed]
    exact Nat.zero_le _
  | retire phase =>
    rw [budget, budget, phase]
    change costs c.schedule.pending + 19 * c.entriesLeft ≤
      if c.schedule.pending = [.cycle .fetchOpcode] then 0 else costs c.schedule.pending + 76
    rw [dry, if_neg (by decide), costs_nil]
    omega
  | @served interrupt phase recognised =>
    have one := entriesLeft_serving recognised
    have four : costs (.cycle .dummy :: vectorFetch) = 4 := by decide
    have boundary : (c.serving interrupt).landed.phase = .boundary := by
      cases interrupt <;> rfl
    have queued : (c.serving interrupt).queued = .cycle .dummy :: vectorFetch := by
      cases interrupt <;> rfl
    rw [budget, budget, phase, boundary]
    dsimp only
    rw [landed, queued, four]
    omega
  | unserved phase _ => exact Nat.zero_le _

theorem budget_move (h : Staged c) {m : Move} (due : c.move? = some m) :
    m.landed.budget ≤ c.budget := by
  have landed := h.pending_landed due
  rcases move?_cases h.orderly.consistent due with ⟨action, rest, pending, rfl⟩ | ⟨dry, goes⟩
  · rw [pending, List.tail_cons] at landed
    exact budget_act h pending landed
  · rw [dry, List.tail_nil, List.nil_append] at landed
    exact budget_phaseGoes dry (Processor.phaseGoes goes) landed

theorem budget_settle (h : Staged c) : c.settle.state.budget ≤ c.budget :=
  (settle_preserves (P := fun d => Staged d ∧ d.budget ≤ c.budget)
    (fun kept due => ⟨kept.1.move due, Nat.le_trans (budget_move kept.1 due) kept.2⟩)
    ⟨h, Nat.le_refl _⟩).2

/-- A byte queues less than its cycle stands for. -/
theorem costs_carryOut (h : Staged c) {cycle : BusCycle} {rest : List MicroOp}
    (pending : c.schedule.pending = .cycle cycle :: rest) (other : cycle ≠ .fetchOpcode)
    (byte : Byte) :
    costs (c.carryOut cycle byte).schedule.pending + 1 ≤ costs c.schedule.pending := by
  have landed := pending_carryOut h.orderly (due?_of_cycle h.orderly.consistent pending) byte
  rw [landed, pending, List.tail_cons, costs_append, costs_cons]
  cases cycle with
  | fetchOpcode => exact absurd rfl other
  | fetchPostbyte =>
    obtain ⟨page, opcode, decoded⟩ := h.orderly.decoded
    have indexed := h.orderly.indexed (by
      rw [pending]
      exact List.mem_cons_self)
    rw [← decoded] at indexed
    have queued := costs_indexed byte page opcode indexed
    rw [decoded] at queued
    change costs rest + costs (IndexForm.program byte ++ c.instruction.body) + 1 ≤ 32 + costs rest
    omega
  | _ => exact Nat.le_of_eq (Nat.add_comm _ _)

/-- Every cycle but that of an opcode fetch takes one off the budget. -/
theorem budget_carryOut (h : Staged c) {cycle : BusCycle} {rest : List MicroOp}
    (pending : c.schedule.pending = .cycle cycle :: rest) (other : cycle ≠ .fetchOpcode)
    (byte : Byte) : (c.carryOut cycle byte).budget + 1 ≤ c.budget := by
  have mem : .cycle cycle ∈ c.schedule.pending := by
    rw [pending]
    exact List.mem_cons_self
  refine budget_mono (phase_of_pending h mem) ?_ (phase_carryOut c cycle byte)
    (costs_carryOut h pending other byte) ?_
  · rw [pending]
    rintro same
    cases same
    exact other rfl
  · intro outside
    have flags : (c.carryOut cycle byte).regs.cc = c.regs.cc := by
      refine cc_carryOut c byte ?_
      rintro stack rfl
      refine outside (h.admitted.execution_of_mem mem (fun interrupt => ?_) ?_)
      · cases interrupt <;> cases stack <;> decide
      · cases stack <;> decide
    have inputs : (c.carryOut cycle byte).inputs.nmisLeft ≤ c.inputs.nmisLeft := by
      rcases inputs_carryOut c cycle byte with same | armed
      · rw [same]
        exact c.inputs.nmisLeft_cycle
      · rw [armed]
        exact c.inputs.nmisLeft_cycle
    rw [entriesLeft, entriesLeft, flags]
    exact Nat.add_le_add_right inputs _

/-! ## Waiting, and what ends it -/

/-- Where nothing is left to do, and no access due, the processor waits. -/
theorem isWaiting_of_still (h : c.schedule.Consistent) (dry : c.schedule.pending = [])
    (still : c.move? = none) : c.isWaiting = true := by
  have drained := (Schedule.isDrained_iff_pending h).2 dry
  rw [move?_of_dry h dry, phaseMove?] at still
  rw [isWaiting]
  cases phase : c.phase with
  | resetHold | boundary =>
    rw [phase] at still
    dsimp only at still ⊢
    split at still
    · next halt =>
      rw [drained, halt]
      rfl
    · cases still
  | reset | execution | dispatch =>
    rw [phase] at still
    cases still
  | arbitration =>
    rw [phase] at still
    dsimp only at still
    split at still <;> cases still
  | _ => rfl

/-- Nothing is pending, and the processor is about to go on. -/
def Stirring (c : Processor) : Prop :=
  c.schedule.pending = [] ∧
    (c.phase = .arbitration ∨
      (c.phase = .boundary ∨ c.phase = .resetHold) ∧ c.inputs.active.halt = false)

/-- After an idle cycle the processor waits on, or is about to go on. -/
theorem idled_cases (h : c.schedule.Consistent) (dry : c.schedule.pending = [])
    (waits : c.isWaiting = true) : c.idled.state.EndsStep ∨ c.idled.state.Stirring := by
  have drained : c.clocked.schedule.isDrained = true := (Schedule.isDrained_iff_pending h).2 dry
  unfold idled
  dsimp only
  cases phase : c.phase with
  | syncWait =>
    have at_ : c.clocked.phase = .syncWait := phase
    rw [at_]
    dsimp only
    split
    · exact Or.inr ⟨dry, Or.inl rfl⟩
    · split
      · exact Or.inl (Or.inr rfl)
      · exact Or.inl (Or.inr (by rw [isWaiting, at_]))
  | syncHold =>
    have at_ : c.clocked.phase = .syncHold := phase
    rw [at_]
    dsimp only
    split
    · exact Or.inl (Or.inr (by rw [isWaiting, at_]))
    · exact Or.inl (Or.inr rfl)
  | boundary | resetHold =>
    have at_ := show c.clocked.phase = _ from phase
    rw [at_]
    dsimp only
    cases halt : c.clocked.inputs.active.halt with
    | true =>
      refine Or.inl (Or.inr ?_)
      rw [isWaiting, at_]
      dsimp only
      rw [drained, halt]
      rfl
    | false => exact Or.inr ⟨dry, Or.inr ⟨by simp [at_], halt⟩⟩
  | cwaiWait | locked =>
    have at_ := show c.clocked.phase = _ from phase
    rw [at_]
    exact Or.inl (Or.inr (by rw [isWaiting, at_]))
  | reset | arbitration | execution | dispatch =>
    rw [isWaiting, phase] at waits
    cases waits

theorem settle_of_arbitration (h : Staged c) (dry : c.schedule.pending = [])
    (phase : c.phase = .arbitration) :
    ∃ cycle rest, c.settle.state.schedule.pending = .cycle cycle :: rest := by
  have consistent := h.orderly.consistent
  cases recognised : HardwareInterrupt.recognised c.inputs.active c.regs.cc with
  | none =>
    obtain ⟨settled, pending⟩ := settle_of_unasked consistent dry phase recognised
    rw [settled]
    exact ⟨_, _, pending⟩
  | some interrupt =>
    have due := move?_of_asked consistent dry phase recognised
    have landed := h.pending_landed_of_dry dry due
    rw [settle_of_cycle consistent due landed]
    exact ⟨_, _, landed⟩

/-- Once it goes on, an access is due. -/
theorem Stirring.pending_settle (stirs : c.Stirring) (h : Staged c) :
    ∃ cycle rest, c.settle.state.schedule.pending = .cycle cycle :: rest := by
  have consistent := h.orderly.consistent
  obtain ⟨dry, phase | ⟨phase | phase, free⟩⟩ := stirs
  · exact settle_of_arbitration h dry phase
  · have due := move?_of_boundary consistent dry phase free
    rw [settle_of_move consistent due]
    exact settle_of_arbitration (h.move due) dry rfl
  · have due := move?_of_resetHold consistent dry phase free
    have landed := h.pending_landed_of_dry dry due
    rw [settle_of_cycle consistent due landed]
    exact ⟨_, _, landed⟩

theorem Stirring.pending_prepare (stirs : c.Stirring) (h : Staged c) :
    ∃ cycle rest, c.prepare.state.schedule.pending = .cycle cycle :: rest := by
  obtain ⟨cycle, rest, pending⟩ := stirs.pending_settle h
  have asleep := wake?_of_pending (consistent_settle h.orderly.consistent) pending
  rcases prepare_cases c with ⟨_, same⟩ | ⟨m, wake, _⟩
  · rw [same]
    exact ⟨cycle, rest, pending⟩
  · rw [asleep] at wake
    cases wake

/-! ## Within the budget -/

/-- Between two cycles, with no more left to do than that. -/
structure Affords (k : Nat) (c : Processor) : Prop where
  staged : Staged c
  unselected : c.page = 0
  still : c.move? = none
  within : c.budget ≤ k

/-- While it is busy, a cycle comes next that begins no instruction. -/
theorem Affords.pending {k : Nat} (h : Affords k c) (busy : c.Busy) :
    ∃ cycle rest, c.schedule.pending = .cycle cycle :: rest ∧ cycle ≠ .fetchOpcode := by
  have consistent := h.staged.orderly.consistent
  cases pending : c.schedule.pending with
  | nil =>
    have waits := isWaiting_of_still consistent pending h.still
    rw [busy.2] at waits
    cases waits
  | cons op rest =>
    cases op with
    | action action =>
      have still := h.still
      rw [move?_of_action consistent pending] at still
      cases still
    | cycle cycle =>
      refine ⟨cycle, rest, rfl, ?_⟩
      rintro rfl
      have start := h.staged.atOpcode (by
        rw [pending]
        exact List.mem_cons_self)
      rw [h.unselected] at start
      have boundary := start.atBoundary
      rw [busy.1] at boundary
      cases boundary

theorem page_settle (h : c.schedule.Consistent) (unselected : c.page = 0) :
    c.settle.state.page = 0 :=
  (settle_preserves (P := fun d => d.schedule.Consistent ∧ d.page = 0)
    (fun {_ m} kept due => by
      have moves : Occurs anyCall _ (.move m) m.landed := .move due
      exact ⟨consistent_landed kept.1 due, (moves.moveHappens kept.1).1.page kept.2⟩)
    ⟨h, unselected⟩).2

theorem affords_settle {k : Nat} (h : Staged c) (unselected : c.page = 0) (within : c.budget ≤ k) :
    Affords k c.settle.state where
  staged := settle_preserves (fun staged due => staged.move due) h
  unselected := page_settle h.orderly.consistent unselected
  still := move?_settle h.orderly.consistent
  within := Nat.le_trans (budget_settle h) within

/-- And after that cycle it affords one less. -/
theorem affords_carryOut {k : Nat} (h : Staged c) (within : c.budget ≤ k + 1) {cycle : BusCycle}
    {rest : List MicroOp} (pending : c.schedule.pending = .cycle cycle :: rest)
    (other : cycle ≠ .fetchOpcode) (byte : Byte) :
    Affords k (c.carryOut cycle byte).settle.state := by
  have due := due?_of_cycle h.orderly.consistent pending
  have less := budget_carryOut h pending other byte
  have unasked : c.asksFirst = false := by
    simp [asksFirst, due, other]
  refine affords_settle (h.carryOut due unasked byte) ?_ (by omega)
  have page : (c.carryOut cycle byte).page = c.page := by
    rw [carryOut, Move.landed, absorb_eq_of_ne_fetchOpcode _ _ other]
    rfl
  rw [page]
  refine h.selecting.resolve_right ?_
  rw [pending]
  rintro same
  cases same
  exact other rfl

end Processor

namespace Board

open Processor

variable {β σ : Type} [Bus β] {m : Monitor σ}

/-- The clock of a cycle that begins no instruction. -/
theorem clock_of_staged (m : Monitor σ) {b : Board β σ} (h : Staged b.cpu) {k : Nat}
    (within : b.cpu.budget ≤ k + 1) {cycle : BusCycle} {rest : List MicroOp}
    (pending : b.cpu.schedule.pending = .cycle cycle :: rest) (other : cycle ≠ .fetchOpcode) :
    ∃ next, clock m b = (.cycle, next) ∧ Affords k next.cpu ∧
      next.cpu.inputs.live = b.cpu.inputs.live := by
  obtain ⟨c, bus, notes⟩ := b
  have clocked := clock_of_cycle m bus notes h.orderly.consistent pending other
  have live := live_clock m ⟨c, bus, notes⟩
  rw [clocked] at live
  exact ⟨_, clocked, affords_carryOut h within pending other _, live⟩

/-- Within the budget the step comes to its end. -/
theorem runs_of_affords (m : Monitor σ) (k : Nat) {b : Board β σ} (h : Affords k b.cpu) :
    ∃ n ≤ k, ∃ after, Runs m Processor.Busy (List.replicate n b.cpu.inputs.live) b after ∧
      after.cpu.EndsStep := by
  induction k generalizing b with
  | zero =>
    rcases busy_or_endsStep b.cpu with busy | ends
    · obtain ⟨cycle, rest, pending, other⟩ := h.pending busy
      have less := budget_carryOut h.staged pending other 0
      have within := h.within
      omega
    · exact ⟨0, Nat.le_refl 0, b, .rest b, ends⟩
  | succ k ih =>
    rcases busy_or_endsStep b.cpu with busy | ends
    · obtain ⟨cycle, rest, pending, other⟩ := h.pending busy
      obtain ⟨next, clocked, affords, live⟩ := clock_of_staged m h.staged h.within pending other
      obtain ⟨n, bound, after, runs, ends⟩ := ih affords
      rw [live] at runs
      exact ⟨n + 1, Nat.succ_le_succ bound, after, .clock busy clocked runs, ends⟩
    · exact ⟨0, Nat.zero_le _, b, .rest b, ends⟩

theorem live_clocks (m : Monitor σ) (n : Nat) (b : Board β σ) :
    (clocks m (List.replicate n b.cpu.inputs.live) b).cpu.inputs.live = b.cpu.inputs.live := by
  induction n generalizing b with
  | zero => rfl
  | succ n ih =>
    have live : (tick m b).cpu.inputs.live = b.cpu.inputs.live := live_clock m b
    have rest := ih (tick m b)
    rw [live] at rest
    exact rest

/-- What prepares the first clock may be done ahead of it. -/
theorem UnderWay.of_prepared {n : Nat} {c : Processor} {bus : β} {notes : σ} {after : Board β σ}
    (h : c.schedule.Consistent) (run : UnderWay m (List.replicate n c.inputs.live)
      ⟨c.prepare.state, bus, m.hearAll notes c.prepare.reports⟩ after) :
    UnderWay m (List.replicate n c.inputs.live) ⟨c, bus, notes⟩ after := by
  have live := live_prepare c
  obtain ⟨levels, more, first, lines, cycle, runs⟩ := run
  have same : levels = c.inputs.live := by
    refine List.eq_of_mem_replicate (n := n) ?_
    rw [lines]
    exact List.mem_cons_self
  have driven : (⟨c.prepare.state, bus, m.hearAll notes c.prepare.reports⟩ : Board β σ).withLevels
      levels = ⟨c.prepare.state, bus, m.hearAll notes c.prepare.reports⟩ := by
    rw [same, ← live]
    rfl
  refine ⟨levels, more, first, lines, ?_, runs⟩
  rw [driven, clock_prepared m bus notes h] at cycle
  rw [same]
  exact cycle

end Board

/-! ## The opcode -/

/-- If a byte that selects no page stands so far behind, the opcode is found by then. -/
theorem Encodes.exists_of_distance {ram : Ram} (distance : Nat) (page : Byte) {pc : Word}
    (final : Instruction.selectsPage (ram (pc + UInt16.ofNat distance)) = false) :
    ∃ n ≤ distance + 1, ∃ i, Encodes ram page pc n i := by
  induction distance generalizing page pc with
  | zero =>
    refine ⟨1, Nat.le_refl 1, _, .opcode fun selected selects => ?_⟩
    rw [show pc + UInt16.ofNat 0 = pc from UInt16.add_zero pc] at final
    rw [(Instruction.selectsPage_iff page).2 ⟨selected, selects⟩] at final
    cases final
  | succ distance ih =>
    cases here : Instruction.selectsPage (ram pc) with
    | false =>
      refine ⟨1, Nat.le_add_left 1 _, _, .opcode fun selected selects => ?_⟩
      rw [(Instruction.selectsPage_iff page).2 ⟨selected, selects⟩] at here
      cases here
    | true =>
      obtain ⟨selected, selects⟩ := (Instruction.selectsPage_iff page).1 here
      have nearer : pc + 1 + UInt16.ofNat distance = pc + UInt16.ofNat (distance + 1) := by
        rw [UInt16.ofNat_add, UInt16.add_assoc, UInt16.add_comm 1]
        rfl
      rw [← nearer] at final
      obtain ⟨n, bound, i, more⟩ := ih (if page = 0 then selected else page) final
      exact ⟨n + 1, Nat.succ_le_succ bound, i, .select selects more⟩

/-- Memory that does not consist of page selections holds an opcode, wherever one starts to
look for it. -/
theorem Encodes.exists_of_final {ram : Ram} {address : Word}
    (final : Instruction.selectsPage (ram address) = false) (page : Byte) (pc : Word) :
    ∃ n ≤ 65536, ∃ i, Encodes ram page pc n i := by
  have there : pc + UInt16.ofNat (address - pc).toNat = address := by
    rw [UInt16.ofNat_toNat, UInt16.add_comm, UInt16.sub_add_cancel]
  have far := (address - pc).toNat_lt
  rw [← there] at final
  obtain ⟨n, bound, i, encoded⟩ := Encodes.exists_of_distance _ page final
  exact ⟨n, by omega, i, encoded⟩

namespace Board

open Processor

variable {σ : Type} {m : Monitor σ}

/-- A step that begins with an opcode fetch. -/
theorem underWay_of_fetch (proceeds : m.Proceeds) {b : Board Memory σ} (h : Staged b.cpu)
    (fetch : .cycle .fetchOpcode ∈ b.cpu.schedule.pending) {address : Word}
    (final : Instruction.selectsPage (b.bus.peek address) = false) :
    ∃ n ≤ 65536 + 109, ∃ after, UnderWay m (List.replicate n b.cpu.inputs.live) b after ∧
      after.cpu.EndsStep := by
  obtain ⟨n, bound, i, encoded⟩ := Encodes.exists_of_final final b.cpu.page b.cpu.regs.pc
  obtain ⟨c, mem, notes⟩ := b
  obtain ⟨d, mem', notes', fetched, decoded, _, _⟩ := encoded.runs proceeds mem notes
    (h.atOpcode fetch) rfl rfl (List.length_replicate (a := c.inputs.live))
  have live := live_clocks m n ⟨c, mem, notes⟩
  have staged := h.clocks m (List.replicate n c.inputs.live)
  rw [fetched.clocks_eq] at live staged
  have affords : Affords 109 (settled m ⟨d, mem', notes'⟩).cpu :=
    ⟨staged, page_settle decoded.consistent decoded.page, move?_settle decoded.consistent,
      budget_le staged⟩
  obtain ⟨k, few, after, runs, ends⟩ := runs_of_affords m 109 affords
  refine ⟨n + k, by omega, after, ?_, ends⟩
  rw [live] at runs
  rw [← List.replicate_append_replicate]
  exact fetched.trans runs

/-- Any step that does not begin with waiting. -/
theorem underWay_of_cycle (proceeds : m.Proceeds) {b : Board Memory σ} (h : Staged b.cpu)
    {cycle : BusCycle} {rest : List MicroOp}
    (pending : b.cpu.prepare.state.schedule.pending = .cycle cycle :: rest) {address : Word}
    (final : Instruction.selectsPage (b.bus.peek address) = false) :
    ∃ n ≤ 65536 + 109, ∃ after, UnderWay m (List.replicate n b.cpu.inputs.live) b after ∧
      after.cpu.EndsStep := by
  obtain ⟨c, mem, notes⟩ := b
  have live := live_prepare c
  have prepared : Staged c.prepare.state := h.prepare
  let p : Board Memory σ := ⟨c.prepare.state, mem, m.hearAll notes c.prepare.reports⟩
  have run : ∃ n ≤ 65536 + 109, ∃ after,
      UnderWay m (List.replicate n p.cpu.inputs.live) p after ∧ after.cpu.EndsStep := by
    by_cases fetch : cycle = .fetchOpcode
    · subst fetch
      refine underWay_of_fetch proceeds prepared ?_ final
      rw [pending]
      exact List.mem_cons_self
    · obtain ⟨next, clocked, affords, live⟩ :=
        clock_of_staged (b := p) (k := 108) m prepared (budget_le prepared) pending fetch
      obtain ⟨n, bound, after, runs, ends⟩ := runs_of_affords m 108 affords
      rw [live] at runs
      exact ⟨n + 1, by omega, after, ⟨_, _, next, rfl, clocked, runs⟩, ends⟩
  obtain ⟨n, bound, after, run, ends⟩ := run
  change UnderWay m (List.replicate n c.prepare.state.inputs.live) p after at run
  rw [live] at run
  exact ⟨n, bound, after, .of_prepared h.orderly.consistent run, ends⟩

/-- Any step at all. One that begins with waiting makes an idle cycle first. -/
theorem underWay_of_staged (proceeds : m.Proceeds) {b : Board Memory σ} (h : Staged b.cpu)
    {address : Word} (final : Instruction.selectsPage (b.bus.peek address) = false) :
    ∃ n ≤ 65536 + 110, ∃ after, UnderWay m (List.replicate n b.cpu.inputs.live) b after ∧
      after.cpu.EndsStep := by
  have consistent := h.prepare.orderly.consistent
  have still := move?_prepare h.orderly.consistent
  cases pending : b.cpu.prepare.state.schedule.pending with
  | cons op rest =>
    cases op with
    | cycle cycle =>
      obtain ⟨n, bound, run⟩ := underWay_of_cycle proceeds h pending final
      exact ⟨n, by omega, run⟩
    | action action =>
      rw [move?_of_action consistent pending] at still
      cases still
  | nil =>
    obtain ⟨_, notes, clocked⟩ := clock_of_dry m h.orderly.consistent pending
    change clock m b = (.cycle, ⟨_, b.bus.counted, notes⟩) at clocked
    have live := live_clock m b
    have staged := h.clock m
    rw [clocked] at live staged
    have stops : b.cpu.prepare.state.idled.state.EndsStep → ∃ n ≤ 65536 + 110, ∃ after,
        UnderWay m (List.replicate n b.cpu.inputs.live) b after ∧ after.cpu.EndsStep := fun ends =>
      ⟨1, by omega, _, ⟨_, [], _, rfl, clocked, .rest _⟩, ends⟩
    rcases busy_or_endsStep b.cpu.prepare.state.idled.state with busy | ends
    · rcases idled_cases consistent pending (isWaiting_of_still consistent pending still) with
        ends | stirs
      · exact stops ends
      · obtain ⟨cycle, rest, next⟩ := stirs.pending_prepare staged
        obtain ⟨n, bound, after, ⟨levels, more, first, lines, cycle, runs⟩, ends⟩ :=
          underWay_of_cycle proceeds (b := ⟨_, b.bus.counted, notes⟩) staged next final
        rw [live] at lines
        have whole : Runs m Processor.Busy (List.replicate n b.cpu.inputs.live)
            ⟨b.cpu.prepare.state.idled.state, b.bus.counted, notes⟩ after := by
          rw [lines]
          exact .clock busy cycle runs
        exact ⟨n + 1, by omega, after, ⟨_, _, _, rfl, clocked, whole⟩, ends⟩
    · exact stops ends

/-! ## What is counted, and what never ends -/

/-- Every clock of a run is counted by the memory. -/
theorem count_clocks (proceeds : m.Proceeds) (lines : List Levels) (b : Board Memory σ) :
    (clocks m lines b).bus.cycles.count = b.bus.cycles.count + UInt64.ofNat lines.length := by
  induction lines generalizing b with
  | nil => exact (UInt64.add_zero _).symm
  | cons levels lines ih =>
    obtain ⟨notes, clocked⟩ := clock_of_made (clock_proceeds proceeds (b.withLevels levels))
    have counted : ∀ (access : Access) (mem : Memory),
        (access.perform mem).2.cycles.count = mem.cycles.count + 1 := by
      intro access mem
      cases access <;> rfl
    rw [clocks, ih, tick, clocked, counted, List.length_cons, Nat.add_comm, UInt64.ofNat_add,
      UInt64.add_assoc]
    rfl

/-- Among page selections only, a step goes on and on. -/
theorem stepOn_of_selections (proceeds : m.Proceeds) (limit : Nat) {mem : Memory}
    (selections : ∀ address, Instruction.selectsPage (mem.peek address) = true) {page : Byte}
    {c : Processor} (h : c.AtOpcode page) (notes : σ) (done : Nat) :
    ∃ after, stepOn m done limit ⟨c, mem, notes⟩ = (⟨done + limit, false⟩, after) ∧
      (0 < limit → after.cpu.Busy) := by
  induction limit generalizing c mem notes done page with
  | zero => exact ⟨_, rfl, nofun⟩
  | succ limit ih =>
    obtain ⟨e, clocked, start, regs, _⟩ := clock_fetch proceeds h mem notes c.inputs.live
    obtain ⟨selected, selects⟩ :=
      (Instruction.selectsPage_iff page).1 (selections c.regs.pc)
    obtain ⟨next, _⟩ := atOpcode_carryOut start selects
    rw [settled_of_rest (move?_of_cycle next.consistent next.pending)] at clocked
    have busy := next.busy (Instruction.selected_ne_zero selects)
    have counted : ∀ address, Instruction.selectsPage (mem.counted.peek address) = true :=
      selections
    obtain ⟨after, rest, ends⟩ := ih counted next (asked m c notes) (done + 1)
    change clock m ⟨c, mem, notes⟩ = _ at clocked
    refine ⟨after, ?_, fun _ => ?_⟩
    · rw [stepOn_succ, clocked]
      dsimp only
      rw [busy.1, busy.2, Bool.or_self, if_neg (by decide), rest, Nat.add_right_comm]
      rfl
    · cases limit with
      | zero =>
        cases rest
        exact busy
      | succ limit => exact ends (Nat.succ_pos limit)

end Board

/-- **A step always comes back, except on endless page selections.** Without hooks, from any
processor that runs lead to, and on any memory with a byte that selects no page, a step takes
65536 + 256 cycles at most, however large its limit is; it ends with an opcode due or the
processor waiting, and the memory has counted the cycles that it reports. If every byte selects
a page, then a step from a boundary comes to no such end, however many cycles it is given. -/
theorem step_returns :
    (∀ {σ : Type} (m : Monitor σ), m.hooks = .none → ∀ b : Board Memory σ,
      Reachable anyCall b.cpu →
      (∃ address, b.bus.peek address ≠ 0x10 ∧ b.bus.peek address ≠ 0x11) →
      ∃ cycles ≤ 65536 + 256, ∃ after : Board Memory σ,
        (∀ limit ≥ cycles, Board.stepWithin m limit b = (⟨cycles, true⟩, after)) ∧
        Board.step m b = (⟨cycles, true⟩, after) ∧
        (after.cpu.atBoundary = true ∨ after.cpu.isWaiting = true) ∧
        after.bus.cycles.count = b.bus.cycles.count + UInt64.ofNat cycles) ∧
    ∀ {σ : Type} (m : Monitor σ), m.hooks = .none → ∀ b : Board Memory σ,
      Reachable anyCall b.cpu → b.cpu.atBoundary = true →
      (∀ address, b.bus.peek address = 0x10 ∨ b.bus.peek address = 0x11) →
      ∀ limit, ∃ after : Board Memory σ,
        Board.stepWithin m limit b = (⟨limit, false⟩, after) ∧
        (0 < limit → after.cpu.atBoundary = false ∧ after.cpu.isWaiting = false) := by
  refine ⟨?_, ?_⟩
  · rintro σ m hooks b reachable ⟨address, other⟩
    have proceeds := Monitor.proceeds_of_hooks_none hooks
    have final : Instruction.selectsPage (b.bus.peek address) = false := by
      simp [Instruction.selectsPage, other]
    obtain ⟨cycles, bound, after, run, ends⟩ :=
      Board.underWay_of_staged proceeds reachable.staged final
    have within : ∀ limit ≥ cycles, Board.stepWithin m limit b = (⟨cycles, true⟩, after) := by
      intro limit enough
      have length : (List.replicate cycles b.cpu.inputs.live).length ≤ limit := by
        rw [List.length_replicate]
        exact enough
      have stops := run.stepWithin_of_ends (fun _ => List.eq_of_mem_replicate) ends length
      rw [List.length_replicate] at stops
      exact stops
    have counted := Board.count_clocks proceeds (List.replicate cycles b.cpu.inputs.live) b
    rw [run.clocks_eq, List.length_replicate] at counted
    have enough : Board.stepLimit ≥ cycles := by
      rw [Board.stepLimit]
      omega
    exact ⟨cycles, by omega, after, within, within _ enough, ends, counted⟩
  · intro σ m hooks b reachable boundary selections limit
    have all : ∀ address, Instruction.selectsPage (b.bus.peek address) = true := by
      intro address
      simp [Instruction.selectsPage, selections address]
    obtain ⟨after, steps, busy⟩ := Board.stepOn_of_selections
      (Monitor.proceeds_of_hooks_none hooks) limit all
      (Processor.atOpcode_of_reachable reachable boundary) b.notes 0
    rw [Nat.zero_add] at steps
    exact ⟨after, steps, busy⟩

/-- `LDS #$1234` behind three page selections, of which the first counts. -/
def selectedLoad : Memory :=
  (((((Memory.blank.poke 0x1000 0x10).poke 0x1001 0x11).poke 0x1002 0x11).poke 0x1003 0xCE).poke
    0x1004 0x12).poke 0x1005 0x34

/-- From a jump to an instruction behind page selections a step takes six cycles, and from a jump
into memory full of them it takes as many as it is given. -/
theorem step_returns_and_does_not :
    let selections : Memory := ⟨.replicate 65536 0x10, .zero⟩
    (∃ after : Board Memory Unit,
      (∀ limit ≥ 6, Board.stepWithin .silent limit
        ⟨Processor.powerOn.setPc 0x1000, selectedLoad, ()⟩ = (⟨6, true⟩, after)) ∧
      after.cpu.atBoundary = true ∧ after.cpu.regs.pc = 0x1006 ∧ after.cpu.regs.s = 0x1234 ∧
      after.bus.cycles.count = 6) ∧
    ∀ limit, ∃ after : Board Memory Unit,
      Board.stepWithin .silent limit ⟨Processor.powerOn.setPc 0x1000, selections, ()⟩ =
        (⟨limit, false⟩, after) := by
  intro selections
  have jumped : Reachable anyCall (Processor.powerOn.setPc 0x1000) :=
    .call (.setPc 0x1000) trivial .powerOn
  refine ⟨?_, fun limit => ?_⟩
  · obtain ⟨cycles, _, after, within, step, _, counted⟩ := step_returns.1 .silent rfl
      (⟨Processor.powerOn.setPc 0x1000, selectedLoad, ()⟩ : Board Memory Unit) jumped
      ⟨0x1003, by simp [selectedLoad, Memory.peek_poke]⟩
    have ran :
        let result := Board.step .silent
          (⟨Processor.powerOn.setPc 0x1000, selectedLoad, ()⟩ : Board Memory Unit)
        result.1 = ⟨6, true⟩ ∧ result.2.cpu.atBoundary = true ∧ result.2.cpu.regs.pc = 0x1006 ∧
          result.2.cpu.regs.s = 0x1234 := by
      decide +kernel
    rw [step] at ran
    obtain ⟨six, boundary, pc, loaded⟩ := ran
    obtain rfl : cycles = 6 := congrArg StepOutcome.cycles six
    exact ⟨after, within, boundary, pc, loaded, counted⟩
  · obtain ⟨after, step, _⟩ := step_returns.2 .silent rfl
      (⟨Processor.powerOn.setPc 0x1000, selections, ()⟩ : Board Memory Unit) jumped (by decide)
      (fun address => Or.inl (by simp [Memory.peek, selections])) limit
    exact ⟨after, step⟩

end Sim6809
