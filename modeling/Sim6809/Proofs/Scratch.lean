/-
Two processors that fetch an opcode in the same registers go on alike, whatever their
latches hold.

This is a statement about two runs, and it is proved by taking them in step. What is
related at every point is all that the outside can see and the pending steps, and of the
latches just what those steps still need (`Lockstep`). A clock makes the same moves in
both, puts the same access onto the bus, and after the same byte they are related again;
so by induction are the boards, for as long as their buses answer alike
(`Board.SideBySide`). The analysis of the latches then does its part at the one place
where there is something to show: an opcode fetch needs no latch, so any two processors
that stand before one are related.

Stale slots matter as little, but for another reason: at an opcode fetch all slots are
consumed, and the schedule is filled from the front.
-/
import Sim6809.Proofs.Latches

set_option autoImplicit false

namespace Sim6809

/-! ## Phases -/

namespace Processor.Agree

variable {c d : Processor}

theorem serving (h : Agree {} c d) (interrupt : HardwareInterrupt) :
    Move.Agree {} (c.serving interrupt) (d.serving interrupt) := by
  refine Agree.takeVector ?_ interrupt.vector
  cases interrupt with
  | nmi => exact { h with inputs := congrArg Inputs.acknowledgeNmi h.inputs, phase := rfl }
  | _ => exact { h with phase := rfl }

theorem serve? (h : Agree {} c d) : Option.Rel (Move.Agree {}) c.serve? d.serve? := by
  rw [serve?_eq_map, serve?_eq_map, ← h.inputs, ← h.regs]
  cases HardwareInterrupt.recognised c.inputs.active c.regs.cc with
  | none => exact .none
  | some interrupt => exact .some (h.serving interrupt)

theorem phaseMove? (h : Agree {} c d) :
    Option.Rel (Move.Agree {}) c.phaseMove? d.phaseMove? := by
  have halt : d.inputs.active.halt = c.inputs.active.halt := by rw [h.inputs]
  have recognised : HardwareInterrupt.recognised d.inputs.active d.regs.cc =
      HardwareInterrupt.recognised c.inputs.active c.regs.cc := by
    rw [h.inputs, h.regs]
  unfold Processor.phaseMove?
  rw [← h.phase, halt, recognised]
  cases c.phase with
  | reset =>
    have regs : c.beginReset.regs = d.beginReset.regs := by
      rw [beginReset, beginReset, h.regs]
    exact .some (.of_quiet
      { h with
        regs := regs, inputs := congrArg Inputs.clear h.inputs, page := rfl, announced := rfl
        phase := rfl } rfl rfl)
  | resetHold =>
    cases c.inputs.active.halt with
    | true => exact .none
    | false =>
      exact .some
        { next := { h with ea := trivial, phase := rfl }
          queued := rfl
          fresh := fun _ => { h with ea := .of_eq rfl, phase := rfl } }
  | boundary =>
    cases c.inputs.active.halt with
    | true => exact .none
    | false => exact .some (.of_quiet { h with phase := rfl } rfl rfl)
  | arbitration =>
    cases HardwareInterrupt.recognised c.inputs.active c.regs.cc with
    | none =>
      have next : Agree {} { c with phase := .execution } { d with phase := .execution } :=
        { h with phase := rfl }
      exact .some ⟨next, rfl, fun _ => next⟩
    | some interrupt =>
      have next : Agree {} { c with phase := .dispatch } { d with phase := .dispatch } :=
        { h with phase := rfl }
      refine .some ⟨next, rfl, fun _ => ?_⟩
      cases interrupt <;> exact next
  | execution => exact .some (.of_quiet { h with phase := rfl } rfl rfl)
  | dispatch =>
    have unserved : Move.Agree {} { next := { c with phase := .cwaiWait } }
        { next := { d with phase := .cwaiWait } } := .of_quiet { h with phase := rfl } rfl rfl
    exact .some (match c.serve?, d.serve?, h.serve? with
      | _, _, .none => unserved
      | _, _, .some served => served)
  | cwaiWait | syncWait | syncHold | locked => exact .none

/-- An idle cycle looks at the inputs and the phase. -/
theorem idled {n : Needs} (h : Agree n c d) : Agree n c.idled.state d.idled.state := by
  have phase : c.idled.state.phase = d.idled.state.phase := by
    unfold Processor.idled
    dsimp only [Processor.clocked]
    rw [← h.phase, ← h.inputs]
    cases c.phase with
    | syncWait =>
      dsimp only
      split
      · rfl
      · split <;> rfl
    | syncHold =>
      dsimp only
      split <;> rfl
    | _ => rfl
  rw [idled_eq c, idled_eq d]
  exact { h.clocked with phase := phase }

end Processor.Agree

/-! ## An opcode -/

namespace Processor

/-- What the byte of an opcode fetch does. -/
def fetched (c : Processor) (byte : Byte) : Move :=
  { c.clocked with schedule := c.schedule.advance }.absorb byte .fetchOpcode

theorem absorbOpcode_cases (c : Processor) (opcode : Byte) :
    (c.absorbOpcode opcode).queued = [.cycle .fetchOpcode] ∨
      (c.absorbOpcode opcode).next.instruction = Instruction.decode c.page opcode ∧
        (c.absorbOpcode opcode).queued = (Instruction.decode c.page opcode).program := by
  unfold absorbOpcode
  dsimp only
  split
  · exact Or.inl rfl
  · exact Or.inr ⟨rfl, rfl⟩

/-- Something is queued, and not more than there is room for. -/
theorem absorbOpcode_fits (c : Processor) (opcode : Byte) :
    (c.absorbOpcode opcode).queued ≠ [] ∧ (c.absorbOpcode opcode).queued.length ≤ 18 := by
  rcases c.absorbOpcode_cases opcode with select | ⟨_, program⟩
  · rw [select]
    decide
  · rw [program]
    exact ⟨(Instruction.needs_decode c.page opcode).1,
      (Instruction.laidOut_decode c.page opcode).length⟩

end Processor

/-! ## In step -/

/-- What is related, of two results that are there or are not, may be looked at together
with where it comes from. -/
theorem rel_imp_of_eq {α β : Type} {R S : α → β → Prop} {x : Option α} {y : Option β}
    (h : Option.Rel R x y) (imp : ∀ a, x = some a → ∀ b, y = some b → R a b → S a b) :
    Option.Rel S x y := by
  cases h with
  | none => exact .none
  | some related => exact .some (imp _ rfl _ rfl related)

/-- The pending steps fit the instruction, or it does not matter which one that is,
because an opcode fetch is all that is pending. -/
inductive Tidy (c : Processor) : Prop
  | fetching (consistent : c.schedule.Consistent)
      (pending : c.schedule.pending = [.cycle .fetchOpcode])
  | underWay (orderly : Orderly c)

namespace Tidy

variable {c : Processor}

theorem consistent (h : Tidy c) : c.schedule.Consistent := by
  cases h with
  | fetching consistent _ => exact consistent
  | underWay orderly => exact orderly.consistent

theorem orderly (h : Tidy c) (other : c.schedule.pending ≠ [.cycle .fetchOpcode]) :
    Orderly c := by
  cases h with
  | fetching _ pending => exact absurd pending other
  | underWay orderly => exact orderly

/-- An opcode fetch has nothing pending behind it. -/
theorem fetch_alone (h : Tidy c) {rest : List MicroOp}
    (pending : c.schedule.pending = .cycle .fetchOpcode :: rest) :
    c.schedule.pending = [.cycle .fetchOpcode] := by
  cases h with
  | fetching _ alone => exact alone
  | underWay orderly =>
    have last := orderly.last
    rw [pending] at last ⊢
    rw [last.rest_eq_nil rfl]

theorem of_same {d : Processor} (h : Tidy c) (schedule : d.schedule = c.schedule)
    (instruction : d.instruction = c.instruction) : Tidy d := by
  cases h with
  | fetching consistent pending =>
    exact .fetching (by rw [schedule]; exact consistent) (by rw [schedule]; exact pending)
  | underWay orderly => exact .underWay (orderly.of_same schedule instruction)

/-- After an opcode fetch it fits, whatever was left in the slots: with all of them
consumed they are filled from the front. -/
theorem fetch (h : c.schedule.Consistent) (alone : c.schedule.pending = [.cycle .fetchOpcode])
    (byte : Byte) :
    (c.carryOut .fetchOpcode byte).schedule.pending = (c.fetched byte).queued ∧
      Tidy (c.carryOut .fetchOpcode byte) := by
  have schedule : (c.carryOut .fetchOpcode byte).schedule =
      c.schedule.advance.extend (c.fetched byte).queued := by
    rw [Processor.carryOut, Move.schedule_landed, Processor.schedule_absorb]
    rfl
  obtain ⟨busy, fits⟩ := Processor.absorbOpcode_fits
    { c.clocked with schedule := c.schedule.advance } byte
  have drained : c.schedule.advance.isDrained := by
    rw [Schedule.isDrained_iff_pending h.advance, Schedule.pending_advance h, alone]
    rfl
  have room := Nat.le_trans fits (by decide : 18 ≤ 32)
  have consistent : (c.carryOut .fetchOpcode byte).schedule.Consistent := by
    rw [schedule]
    exact h.advance.extend _
  have pending : (c.carryOut .fetchOpcode byte).schedule.pending = (c.fetched byte).queued := by
    rw [schedule]
    exact Schedule.pending_extend_of_isDrained h.advance drained _ room
  have filled : (c.carryOut .fetchOpcode byte).schedule.filled.toNat =
      (c.fetched byte).queued.length := by
    rw [schedule]
    exact Schedule.toNat_filled_extend_of_isDrained h.advance drained busy room
  refine ⟨pending, ?_⟩
  rcases Processor.absorbOpcode_cases { c.clocked with schedule := c.schedule.advance } byte with
    select | ⟨instruction, program⟩
  · exact .fetching consistent (pending.trans select)
  · have laid := Instruction.laidOut_decode c.page byte
    have decoded : (c.carryOut .fetchOpcode byte).instruction = Instruction.decode c.page byte :=
      instruction
    refine .underWay
      { consistent := consistent
        room := by rw [filled]; exact fits
        decoded := ⟨c.page, byte, decoded.symm⟩
        last := ?_
        indexed := ?_ }
    · rw [pending, decoded]
      exact program ▸ laid.program
    · rw [pending, decoded]
      exact program ▸ laid.indexed

end Tidy

namespace Processor

/-- Two processors about to do the same. -/
structure Lockstep (c d : Processor) : Prop where
  pending : c.schedule.pending = d.schedule.pending
  agree : Agree (Needs.before c.instruction c.schedule.pending) c d
  left : Tidy c
  right : Tidy d

namespace Lockstep

variable {c d : Processor}

/-- Moves that agree land in step. -/
theorem landed {m m' : Move} (left : m.Orderly) (right : m'.Orderly)
    (rest : m.next.schedule.pending = m'.next.schedule.pending)
    (agree : Move.Agree (Needs.before m.next.instruction m.next.schedule.pending) m m') :
    Lockstep m.landed m'.landed where
  pending := by rw [left.pending_landed, right.pending_landed, rest, agree.queued]
  agree := by
    rw [left.pending_landed]
    by_cases quiet : m.queued = []
    · rw [quiet, List.append_nil]
      exact agree.next.withSchedule _ _
    · rw [left.dry quiet, List.nil_append]
      exact (agree.fresh quiet).withSchedule _ _
  left := .underWay left.landed
  right := .underWay right.landed

/-- Without an opcode fetch both are orderly. -/
theorem orderly (h : Lockstep c d) (other : c.schedule.pending ≠ [.cycle .fetchOpcode]) :
    Orderly c ∧ Orderly d :=
  ⟨h.left.orderly other, h.right.orderly (by rw [← h.pending]; exact other)⟩

/-- One step further, the same is pending in both. -/
theorem advanced (h : Lockstep c d) {op : MicroOp} {rest : List MicroOp}
    (pending : c.schedule.pending = op :: rest) :
    c.schedule.advance.pending = rest ∧ d.schedule.advance.pending = rest := by
  rw [Schedule.pending_advance h.left.consistent, Schedule.pending_advance h.right.consistent,
    ← h.pending, pending]
  exact ⟨rfl, rfl⟩

/-- The same move is due in both. -/
theorem move (h : Lockstep c d) :
    Option.Rel (fun m m' => Lockstep m.landed m'.landed) c.move? d.move? := by
  have agree := h.agree
  cases pending : c.schedule.pending with
  | nil =>
    have pending' : d.schedule.pending = [] := h.pending.symm.trans pending
    obtain ⟨orderly, orderly'⟩ := h.orderly (by rw [pending]; exact nofun)
    rw [pending] at agree
    rw [move?_of_dry h.left.consistent pending, move?_of_dry h.right.consistent pending']
    refine rel_imp_of_eq agree.phaseMove? fun m due m' due' moves => ?_
    have dry := dry_phaseMove pending due
    have dry' := dry_phaseMove pending' due'
    refine landed (orderly_phaseMove orderly pending due) (orderly_phaseMove orderly' pending' due')
      (dry.trans dry'.symm) ?_
    rw [dry]
    exact moves
  | cons op rest =>
    have pending' : d.schedule.pending = op :: rest := h.pending.symm.trans pending
    cases op with
    | cycle cycle =>
      rw [move?_of_cycle h.left.consistent pending, move?_of_cycle h.right.consistent pending']
      exact .none
    | action action =>
      obtain ⟨orderly, orderly'⟩ := h.orderly (by rw [pending]; exact nofun)
      rw [pending] at agree
      rw [move?_of_action h.left.consistent pending, move?_of_action h.right.consistent pending']
      obtain ⟨advanced, advanced'⟩ := h.advanced pending
      have before : Agree (action.needs c.instruction (Needs.before c.instruction rest))
          { c with schedule := c.schedule.advance } { d with schedule := d.schedule.advance } :=
        agree.withSchedule _ _
      refine .some (landed (orderly_act orderly pending) (orderly_act orderly' pending') ?_ ?_)
      · rw [schedule_act, schedule_act]
        exact advanced.trans advanced'.symm
      · rw [schedule_act, instruction_act]
        dsimp only
        rw [advanced]
        exact before.act

/-- And so are all that follow. -/
theorem settleWithin (fuel : Nat) (h : Lockstep c d) :
    Lockstep (settleWithin fuel c).state (settleWithin fuel d).state := by
  induction fuel generalizing c d with
  | zero => exact h
  | succ fuel ih =>
    rw [Processor.settleWithin, Processor.settleWithin]
    have moved := h.move
    generalize c.move? = first, d.move? = second at moved ⊢
    cases moved with
    | none => exact h
    | some landed => exact ih landed

theorem settle (h : Lockstep c d) : Lockstep c.settle.state d.settle.state := by
  have remaining : c.schedule.remaining = d.schedule.remaining := by
    rw [← Schedule.length_pending h.left.consistent, ← Schedule.length_pending h.right.consistent,
      h.pending]
  rw [Processor.settle, Processor.settle, remaining]
  exact h.settleWithin _

/-- Both wake, or none does. -/
theorem wake (h : Lockstep c d) :
    Option.Rel (fun m m' => Lockstep m.landed m'.landed) c.wake? d.wake? := by
  have agree := h.agree
  cases pending : c.schedule.pending with
  | cons op rest =>
    rw [wake?_of_pending h.left.consistent pending,
      wake?_of_pending h.right.consistent (h.pending.symm.trans pending)]
    exact .none
  | nil =>
    have pending' : d.schedule.pending = [] := h.pending.symm.trans pending
    obtain ⟨orderly, orderly'⟩ := h.orderly (by rw [pending]; exact nofun)
    rw [pending] at agree
    have halt : d.inputs.active.halt = c.inputs.active.halt := by rw [agree.inputs]
    unfold wake?
    rw [Schedule.current_eq_head? h.left.consistent, Schedule.current_eq_head? h.right.consistent,
      pending, pending', ← agree.phase, halt]
    cases c.phase with
    | cwaiWait =>
      cases c.inputs.active.halt with
      | true => exact .none
      | false =>
        refine rel_imp_of_eq agree.serve? fun m served m' served' moves => ?_
        obtain ⟨schedule, _, _⟩ := serve?_eq_some served
        obtain ⟨schedule', _, _⟩ := serve?_eq_some served'
        refine landed (orderly_serve orderly pending served)
          (orderly_serve orderly' pending' served') ?_ ?_
        · rw [schedule, schedule', pending, pending']
        · rw [schedule, pending]
          exact moves
    | _ => exact .none

theorem prepare (h : Lockstep c d) : Lockstep c.prepare.state d.prepare.state := by
  unfold Processor.prepare
  dsimp only
  exact match c.settle.state.wake?, d.settle.state.wake?, h.settle.wake with
    | _, _, .none => h.settle
    | _, _, .some landed => landed

theorem due_eq (h : Lockstep c d) : c.due? = d.due? := by
  rw [due?, due?, Schedule.current_eq_head? h.left.consistent,
    Schedule.current_eq_head? h.right.consistent, h.pending]

theorem asksFirst_eq (h : Lockstep c d) : c.asksFirst = d.asksFirst := by
  rw [asksFirst, asksFirst, h.due_eq, h.agree.page, h.agree.announced]

theorem announce (h : Lockstep c d) : Lockstep c.announce d.announce := by
  have announced : c.announce.announced = d.announce.announced := by
    unfold Processor.announce
    rw [← h.asksFirst_eq]
    split
    · rfl
    · exact h.agree.announced
  have left := h.left.of_same (schedule_announce c) (by rw [announce_eq])
  have right := h.right.of_same (schedule_announce d) (by rw [announce_eq])
  rw [announce_eq c, announce_eq d] at *
  exact ⟨h.pending, { h.agree with announced := announced }, left, right⟩

theorem ready (h : Lockstep c d) : Lockstep c.ready d.ready := h.prepare.announce

/-- The same access is due. -/
theorem access (h : Lockstep c d) : c.access = d.access := by
  rw [Processor.access, Processor.access, ← h.due_eq]
  cases due : c.due? with
  | none => rfl
  | some cycle =>
    obtain ⟨rest, pending⟩ := (due?_eq_some_iff h.left.consistent).1 due
    have agree := h.agree
    rw [pending] at agree
    exact Agree.access (n := Needs.before c.instruction rest) agree

/-- After the same opcode byte they are in step again. -/
theorem carryOut_fetchOpcode (h : Lockstep c d) (due : c.due? = some .fetchOpcode) (byte : Byte) :
    Lockstep (c.carryOut .fetchOpcode byte) (d.carryOut .fetchOpcode byte) := by
  obtain ⟨rest, pending⟩ := (due?_eq_some_iff h.left.consistent).1 due
  have pending' := h.pending.symm.trans pending
  obtain ⟨queued, left⟩ := Tidy.fetch h.left.consistent (h.left.fetch_alone pending) byte
  obtain ⟨queued', right⟩ := Tidy.fetch h.right.consistent (h.right.fetch_alone pending') byte
  have moves : Move.Agree {} (c.fetched byte) (d.fetched byte) :=
    (h.agree.nothing.clocked.withSchedule _ _).absorbOpcode byte
  have busy := (absorbOpcode_fits { c.clocked with schedule := c.schedule.advance } byte).1
  exact
    { pending := by rw [queued, queued', moves.queued]
      agree := by
        rw [queued]
        exact (moves.fresh busy).withSchedule _ _
      left := left
      right := right }

/-- And after any other. -/
theorem carryOut (h : Lockstep c d) {cycle : BusCycle} (due : c.due? = some cycle) (byte : Byte) :
    Lockstep (c.carryOut cycle byte) (d.carryOut cycle byte) := by
  by_cases fetches : cycle = .fetchOpcode
  · subst fetches
    exact h.carryOut_fetchOpcode due byte
  · obtain ⟨rest, pending⟩ := (due?_eq_some_iff h.left.consistent).1 due
    obtain ⟨orderly, orderly'⟩ := h.orderly (by
      rw [pending]
      rintro same
      cases same
      exact fetches rfl)
    obtain ⟨advanced, advanced'⟩ := h.advanced pending
    have agree := h.agree
    rw [pending] at agree
    have before : Agree (cycle.needs (Needs.before c.instruction rest))
        { c.clocked with schedule := c.schedule.advance }
        { d.clocked with schedule := d.schedule.advance } := agree.clocked.withSchedule _ _
    have decoded : cycle = .fetchPostbyte → c.instruction.mode = .indexed ∧
        ∃ page opcode, Instruction.decode page opcode = c.instruction := by
      rintro rfl
      refine ⟨orderly.indexed ?_, orderly.decoded⟩
      rw [pending]
      exact List.mem_cons_self
    have instruction :
        ({ c.clocked with schedule := c.schedule.advance }.absorb byte cycle).next.instruction =
          c.instruction := by
      rw [absorb_eq_of_ne_fetchOpcode _ _ fetches]
      rfl
    refine landed (orderly_absorb orderly byte due)
      (orderly_absorb orderly' byte (h.due_eq.symm.trans due)) ?_ ?_
    · rw [schedule_absorb, schedule_absorb]
      exact advanced.trans advanced'.symm
    · rw [instruction, schedule_absorb]
      dsimp only
      rw [advanced]
      exact before.absorb decoded byte

/-- However the cycle is completed. -/
theorem complete (h : Lockstep c d) (byte : Byte) :
    Lockstep (c.complete byte).state (d.complete byte).state := by
  unfold Processor.complete
  rw [← h.due_eq]
  cases due : c.due? with
  | some cycle => exact (h.carryOut due byte).settle
  | none =>
    have instruction : c.idled.state.instruction = c.instruction := by rw [idled_eq]
    exact
      { pending := by rw [schedule_idled, schedule_idled, h.pending]
        agree := by rw [schedule_idled, instruction]; exact h.agree.idled
        left := h.left.of_same (schedule_idled c) instruction
        right := h.right.of_same (schedule_idled d) (by rw [idled_eq]) }

end Lockstep

/-! ## Two boards -/

/-- Two processors differ in their latches and in slots that are not pending, if at
all. -/
structure SameVisible (c d : Processor) : Prop where
  regs : c.regs = d.regs
  inputs : c.inputs = d.inputs
  phase : c.phase = d.phase
  page : c.page = d.page
  pending : c.schedule.pending = d.schedule.pending
  announced : c.announced = d.announced
  cycles : c.cycles = d.cycles

namespace Lockstep

variable {c d : Processor}

theorem sameVisible (h : Lockstep c d) : SameVisible c d :=
  { h.agree with pending := h.pending }

/-- An opcode fetch needs no latch. -/
theorem of_atOpcode {page : Byte} (left : c.AtOpcode page) (right : d.AtOpcode page)
    (visible : SameVisible c d) : Lockstep c d where
  pending := visible.pending
  agree := by
    rw [left.pending]
    exact
      { visible with
        instruction := nofun, postbyte := nofun, ea := trivial, data := trivial, result := nofun }
  left := .fetching left.consistent left.pending
  right := .fetching right.consistent right.pending

theorem withLevels (h : Lockstep c d) (levels : Levels) :
    Lockstep (c.withLevels levels) (d.withLevels levels) where
  pending := h.pending
  agree :=
    { h.agree with
      inputs := congrArg (fun inputs : Inputs => { inputs with live := levels }) h.agree.inputs }
  left := h.left.of_same rfl rfl
  right := h.right.of_same rfl rfl

end Lockstep

end Processor

/-- The bytes a bus answers a row of accesses with. -/
def answers {β : Type} [Bus β] : β → List Access → List Byte
  | _, [] => []
  | bus, access :: more => (access.perform bus).1 :: answers (access.perform bus).2 more

/-- Two buses answer every row of accesses alike. -/
def AnswersAlike {β β' : Type} [Bus β] [Bus β'] (bus : β) (bus' : β') : Prop :=
  ∀ accesses, answers bus accesses = answers bus' accesses

theorem AnswersAlike.perform {β β' : Type} [Bus β] [Bus β'] {bus : β} {bus' : β'}
    (h : AnswersAlike bus bus') (access : Access) :
    (access.perform bus).1 = (access.perform bus').1 ∧
      AnswersAlike (access.perform bus).2 (access.perform bus').2 :=
  ⟨(List.cons.inj (h [access])).1, fun more => (List.cons.inj (h (access :: more))).2⟩

/-- Without hooks nothing is held. -/
theorem Monitor.proceeds_of_hooks_none {σ : Type} {m : Monitor σ} (hooks : m.hooks = .none) :
    m.Proceeds := by
  intro regs notes
  rw [Monitor.ask, hooks]
  rfl

namespace Board

variable {β β' σ σ' : Type} [Bus β] [Bus β']

/-- A clock that nothing holds is made. -/
theorem clock_proceeds {m : Monitor σ} (proceeds : m.Proceeds) (b : Board β σ) :
    (clock m b).1 = .cycle := by
  obtain ⟨cpu, bus, notes⟩ := b
  have answered := proceeds cpu.prepare.state.regs (m.hearAll notes cpu.prepare.reports)
  unfold clock
  dsimp only
  split
  · split
    · next held =>
      rw [held] at answered
      cases answered
    · rfl
  · rfl

/-- So a run makes as many as it has clocks. -/
theorem balanced_clocks_of_proceeds {m : Monitor σ} (proceeds : m.Proceeds)
    (lines : List Levels) (b : Board (Recorded β) σ) :
    Balanced lines.length b (Board.clocks m lines b) := by
  induction lines generalizing b with
  | nil => exact .refl b
  | cons levels lines ih =>
    have driven : Balanced 0 b (b.withLevels levels) := ⟨rfl, (UInt64.add_zero _).symm⟩
    have once := balanced_clock m (b.withLevels levels)
    rw [clock_proceeds proceeds] at once
    have run := (driven.trans once).trans (ih (tick m (b.withLevels levels)))
    rw [List.length_cons, Nat.add_comm]
    exact run

/-- Two recorded boards in step. -/
structure SideBySide (b : Board (Recorded β) σ) (b' : Board (Recorded β') σ') : Prop where
  cpu : b.cpu.Lockstep b'.cpu
  bus : AnswersAlike b.bus.bus b'.bus.bus
  transfers : b.bus.transfers = b'.bus.transfers

namespace SideBySide

variable {m : Monitor σ} {m' : Monitor σ'} {b : Board (Recorded β) σ} {b' : Board (Recorded β') σ'}

/-- A clock keeps them in step. -/
theorem tick (h : SideBySide b b') (proceeds : m.Proceeds) (proceeds' : m'.Proceeds) :
    SideBySide (tick m b) (tick m' b') := by
  obtain ⟨notes, clocked⟩ := clock_of_made (clock_proceeds proceeds b)
  obtain ⟨notes', clocked'⟩ := clock_of_made (clock_proceeds proceeds' b')
  have ready := h.cpu.ready
  obtain ⟨byte, bus⟩ := h.bus.perform b.cpu.ready.access
  rw [Board.tick, Board.tick, clocked, clocked', ← ready.access, Recorded.perform,
    Recorded.perform, ← byte, h.transfers]
  exact ⟨ready.complete _, bus, rfl⟩

/-- So does a run, driven the same. -/
theorem clocks (h : SideBySide b b') (proceeds : m.Proceeds) (proceeds' : m'.Proceeds)
    (lines : List Levels) : SideBySide (clocks m lines b) (clocks m' lines b') := by
  induction lines generalizing b b' with
  | nil => exact h
  | cons levels lines ih =>
    have driven : SideBySide (b.withLevels levels) (b'.withLevels levels) :=
      { h with cpu := h.cpu.withLevels levels }
    exact ih (driven.tick proceeds proceeds')

end SideBySide

end Board

/-- What an instruction leaves in the latches, and in the slots that are not pending,
makes no difference to what follows its end. Two processors stand before an opcode fetch,
after a jump or at a boundary of any run, and look the same; what they were busy with
before may be anything. As long as nothing but their inputs is driven, and that alike, and
their buses answer alike, they make the same accesses, one in each cycle, and look the
same after each. -/
theorem decode_scratch_dead :
    (∀ (c : Processor) (pc : Word), (c.setPc pc).AtOpcode 0) ∧
    (∀ c : Processor, Reachable anyCall c → c.atBoundary = true → c.AtOpcode 0) ∧
    ∀ {β β' σ σ' : Type} [Bus β] [Bus β'] (m : Monitor σ) (m' : Monitor σ'),
      m.hooks = .none → m'.hooks = .none →
      ∀ (b : Board (Recorded β) σ) (b' : Board (Recorded β') σ'),
        b.cpu.AtOpcode 0 → b'.cpu.AtOpcode 0 → b.cpu.SameVisible b'.cpu →
        AnswersAlike b.bus.bus b'.bus.bus → b.bus.transfers = b'.bus.transfers →
        ∀ lines : List Levels,
          (Board.clocks m lines b).bus.transfers = (Board.clocks m' lines b').bus.transfers ∧
          (Board.clocks m lines b).bus.transfers.size = b.bus.transfers.size + lines.length ∧
          (Board.clocks m lines b).cpu.SameVisible (Board.clocks m' lines b').cpu := by
  refine ⟨fun c pc => ?_, fun c => Processor.atOpcode_of_reachable, ?_⟩
  · exact
      { consistent := (Schedule.consistent_clear c.schedule).push _
        pending := Processor.pending_setPc c pc
        phase := rfl
        page := rfl }
  · intro β β' σ σ' _ _ m m' hooks hooks' b b' left right visible alike transfers lines
    have proceeds := Monitor.proceeds_of_hooks_none hooks
    have proceeds' := Monitor.proceeds_of_hooks_none hooks'
    have start : Board.SideBySide b b' := ⟨.of_atOpcode left right visible, alike, transfers⟩
    have run := start.clocks proceeds proceeds' lines
    exact ⟨run.transfers, (Board.balanced_clocks_of_proceeds proceeds lines b).accesses,
      run.cpu.sameVisible⟩

/-- A program of one instruction, which puts D away where X points. -/
def storing : Ram := Ram.overlay (fun _ => 0x12) 0x1000 [0xED, 0x84]

/-- A board about to run it. -/
def clearedBoard : Board (Recorded Ram) Unit :=
  ⟨Processor.powerOn.setPc 0x1000, ⟨storing, #[]⟩, ()⟩

/-- The same board, but all slots of its processor were used, and its latches are full. -/
def clutteredBoard : Board (Recorded Ram) Unit :=
  { clearedBoard with
    cpu := { clearedBoard.cpu with
      schedule := ⟨(Vector.replicate 32 (.cycle .writeByte)).set 31 (.cycle .fetchOpcode), 32, 31⟩
      instruction := ⟨.mul, .indexed⟩, postbyte := 0x9F, ea := 0x1234, data := 0xBEEF
      result := 0x55AA } }

/-- Both put away the same, at the same address; and a run that was long under way is at a
boundary like theirs. -/
theorem decode_scratch_dead_storing :
    (let after := Board.clocks .silent (List.replicate 8 .low) clearedBoard
      let after' := Board.clocks .silent (List.replicate 8 .low) clutteredBoard
      after.bus.transfers = after'.bus.transfers ∧ after.bus.transfers.size = 8 ∧
        after.cpu.SameVisible after'.cpu ∧ (⟨.write 0 0, 0⟩ : Transfer) ∈ after'.bus.transfers) ∧
    ∃ c, Reachable anyCall c ∧ c.atBoundary = true ∧ c.AtOpcode 0 := by
  refine ⟨?_, ?_⟩
  · have visible : clearedBoard.cpu.SameVisible clutteredBoard.cpu :=
      ⟨rfl, rfl, rfl, rfl, by decide, rfl, rfl⟩
    have same := decode_scratch_dead.2.2 .silent .silent rfl rfl clearedBoard clutteredBoard
      (decode_scratch_dead.1 .powerOn 0x1000) ⟨by decide, by decide, rfl, rfl⟩ visible
      (fun _ => rfl) rfl (List.replicate 8 .low)
    exact ⟨same.1, same.2.1, same.2.2, by decide +kernel⟩
  · have reachable : Reachable anyCall
        (Board.clocks .silent (List.replicate 16 .low) ⟨.powerOn, waitingLoop, ()⟩).cpu :=
      .clocks .silent (fun _ => trivial) _ _ .powerOn
    have boundary : (Board.clocks .silent (List.replicate 16 .low)
        (⟨.powerOn, waitingLoop, ()⟩ : Board Ram Unit)).cpu.atBoundary = true := by decide +kernel
    exact ⟨_, reachable, boundary, decode_scratch_dead.2.1 _ reachable boundary⟩

end Sim6809
