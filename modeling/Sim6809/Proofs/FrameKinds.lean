/-
Which frame lies below a vector.

The kind of frame is chosen when it is begun and the vector when it is complete, and in
between the lines move. So the two need not belong to each other: a full frame may be
followed by any vector, and even the short frame of FIRQ by another one, if FIRQ was
overtaken while it was stacked. What is true is that the frame is always one of the two,
with E telling which, and that a short one was begun for FIRQ (`vector_follows_frame`).

The invariant of a history is `Tracked`: no frame is under way, or CWAI has been decoded
and is about to begin one, or the last frame that was begun has come as far as
`Stacking.lean` says.
-/
import Sim6809.Proofs.Stacking

set_option autoImplicit false

namespace Sim6809

/-- Every call but writing the registers. -/
def keepsRegisters : HostCall → Prop
  | .registers _ => False
  | _ => True

/-! ## Frames that are begun -/

/-- A frame is begun here: its kind, the registers that go into it, and the reads in
front of it. CWAI begins one once its mask is applied. -/
inductive Occurrence.StartsFrame (o : Occurrence) : Bool → RegisterFile → List Access → Prop
  | interrupt {interrupt : HardwareInterrupt} (begins : o.Begins interrupt) :
      StartsFrame o interrupt.stacksEntire o.before.regs
        [.read o.before.regs.pc, .read o.before.regs.pc]
  | cwai {rest : List MicroOp} (instruction : o.before.instruction = .cwai)
      (operate : o.before.schedule.pending = .action .operate :: rest)
      (move : ∃ m, o.event = .move m) :
      StartsFrame o true o.before.effect.regs [.read o.before.effect.regs.pc]

variable {c d : Processor} {allowed : HostCall → Prop} {event : Event}
  {past : List Occurrence}

/-- Nothing has to do with a frame. -/
structure Outside (c : Processor) : Prop where
  phase : c.phase ≠ .dispatch ∧ c.phase ≠ .cwaiWait
  enter : .action (.enter .dispatch) ∉ c.schedule.pending

/-- CWAI, from its mask on. -/
def cwaiTail : List MicroOp :=
  .action .operate :: .cycle .peekPc :: (Frame.program true ++ [.action (.enter .dispatch)])

/-- What a history knows of frames. -/
inductive Tracked (past : List Occurrence) (c : Processor) : Prop
  | outside (outside : Outside c)
  | decoded (instruction : c.instruction = .cwai)
      (pending : c.schedule.pending = .cycle .fetchOperand :: cwaiTail ∨
        c.schedule.pending = cwaiTail)
  | begun {front later : List Occurrence} {o : Occurrence} {entire : Bool} {r : RegisterFile}
      {lead : List Access} (split : past = front ++ o :: later)
      (starts : o.StartsFrame entire r lead)
      (entering : Stacking (lead ++ Frame.accesses entire r) (Frame.stacked entire r)
          (accesses later) c ∨
        Waiting (lead ++ Frame.accesses entire r) (Frame.stacked entire r) (accesses later) c)
      (quiet : ∀ o ∈ later, o.Quiet)

/-! ## Outside of frames -/

theorem enter_not_mem_vectorFetch (phase : Phase) :
    .action (.enter phase) ∉ MicroOp.cycle .dummy :: vectorFetch := by
  simp [vectorFetch]

namespace Outside

/-- What is used up and added leads nowhere near a frame. -/
theorem of_landed (h : Outside c) {m : Move}
    (landed : m.landed.schedule.pending = c.schedule.pending.tail ++ m.queued)
    (phase : m.landed.phase ≠ .dispatch ∧ m.landed.phase ≠ .cwaiWait)
    (added : .action (.enter .dispatch) ∉ m.queued) : Outside m.landed := by
  refine ⟨phase, fun mem => ?_⟩
  rw [landed] at mem
  rcases List.mem_append.1 mem with tail | queued
  · exact h.enter (List.mem_of_mem_tail tail)
  · exact added queued

/-- An instruction goes on, or leaves for SYNC or the lock. -/
theorem act (h : Outside c) (orderly : Orderly c) (sourced : Sourced c) {action : Action}
    {rest : List MicroOp} (pending : c.schedule.pending = .action action :: rest)
    (landed : ({ c with schedule := c.schedule.advance }.act action).landed.schedule.pending =
      c.schedule.pending.tail ++ ({ c with schedule := c.schedule.advance }.act action).queued) :
    Outside ({ c with schedule := c.schedule.advance }.act action).landed := by
  have mem : .action action ∈ c.schedule.pending := by
    rw [pending]
    exact List.mem_cons_self
  cases action with
  | operate =>
    refine h.of_landed landed ?_ ?_
    · change (Processor.effect _).phase ≠ _ ∧ (Processor.effect _).phase ≠ _
      rw [Processor.effect_eq]
      exact h.phase
    · intro queued
      obtain ⟨_, cycle, _⟩ := mem_growth queued
      cases cycle
  | vector which => exact h.of_landed landed h.phase (enter_not_mem_vectorFetch _)
  | enter phase =>
    refine h.of_landed landed ?_ (by intro queued; cases queued)
    change phase ≠ .dispatch ∧ phase ≠ .cwaiWait
    rcases sourced.enters orderly mem with rfl | rfl | rfl
    · exact ⟨nofun, nofun⟩
    · exact ⟨nofun, nofun⟩
    · exact absurd mem h.enter
  | _ => exact h.of_landed landed h.phase (by intro queued; cases queued)

/-- No phase leads into a frame but the one that asks for interrupts. -/
theorem phaseGoes (h : Outside c) {m : Move} (goes : c.PhaseGoes m)
    (landed : m.landed.schedule.pending = c.schedule.pending.tail ++ m.queued) :
    Outside m.landed ∨ ∃ interrupt, c.phase = .arbitration ∧
      HardwareInterrupt.recognised c.inputs.active c.regs.cc = some interrupt := by
  cases goes with
  | asked phase recognised => exact Or.inr ⟨_, phase, recognised⟩
  | served phase _ | unserved phase _ => exact absurd phase h.phase.1
  | reset _ | boundary _ _ | retire _ =>
    exact Or.inl (h.of_landed landed ⟨nofun, nofun⟩ (by intro queued; cases queued))
  | release _ _ =>
    refine Or.inl (h.of_landed landed ⟨nofun, nofun⟩ ?_)
    exact (by decide : .action (.enter .dispatch) ∉ vectorFetch)
  | unasked _ _ =>
    refine Or.inl (h.of_landed landed ⟨nofun, nofun⟩ ?_)
    exact (by decide : .action (.enter .dispatch) ∉ [MicroOp.cycle .fetchOpcode])

/-- An idle cycle may end SYNC. -/
theorem idled (h : Outside c) : Outside c.idled.state := by
  refine ⟨?_, by rw [Processor.schedule_idled]; exact h.enter⟩
  obtain ⟨dispatch, wait⟩ := h.phase
  unfold Processor.idled
  dsimp only
  split
  · split
    · exact ⟨nofun, nofun⟩
    · split
      · exact ⟨nofun, nofun⟩
      · exact ⟨dispatch, wait⟩
  · split
    · exact ⟨dispatch, wait⟩
    · exact ⟨nofun, nofun⟩
  · exact ⟨dispatch, wait⟩

/-- A byte stays outside, unless it is the opcode of CWAI. -/
theorem carryOut (h : Outside c) (orderly : Orderly c) {cycle : BusCycle}
    (due : c.due? = some cycle) (byte : Byte) :
    Outside (c.carryOut cycle byte) ∨
      (c.carryOut cycle byte).instruction = .cwai ∧
        (c.carryOut cycle byte).schedule.pending = Instruction.cwai.program := by
  have phase := c.phase_carryOut cycle byte
  cases Processor.carriesOut orderly due byte with
  | plain _ used =>
    refine Or.inl ⟨by rw [phase]; exact h.phase, ?_⟩
    rw [used]
    exact fun mem => h.enter (List.mem_of_mem_tail mem)
  | select _ used _ =>
    refine Or.inl ⟨by rw [phase]; exact h.phase, ?_⟩
    rw [used]
    exact (by decide : .action (.enter .dispatch) ∉ [MicroOp.cycle .fetchOpcode])
  | decode _ instruction used =>
    by_cases enter : .action (.enter .dispatch) ∈ (Instruction.decode c.page byte).program
    · rcases Instruction.ordinary_decode c.page byte (List.mem_append_left _ enter) with
        ordinary | ⟨_, cwai⟩
      · cases ordinary
      · rw [cwai] at instruction used
        exact Or.inr ⟨instruction, used⟩
    · exact Or.inl ⟨by rw [phase]; exact h.phase, by rw [used]; exact enter⟩
  | postbyte indexed _ used =>
    obtain ⟨page, opcode, decoded⟩ := orderly.decoded
    refine Or.inl ⟨by rw [phase]; exact h.phase, fun mem => ?_⟩
    rw [used] at mem
    rcases List.mem_append.1 mem with address | body
    · cases ordinary_indexProgram address
    · rw [← decoded] at body indexed
      rcases Instruction.ordinary_decode page opcode (List.mem_append_right _ body) with
        ordinary | ⟨_, cwai⟩
      · cases ordinary
      · rw [cwai] at indexed
        cases indexed

end Outside

/-- A call drives the lines, or gives up what was going on. -/
theorem Occurs.drives_or_outside (occurs : Occurs keepsRegisters c event d) :
    event.CallsOnlyDrive ∨ Outside d := by
  cases occurs with
  | @call call allow =>
    cases call with
    | drive levels =>
      refine Or.inl fun call same => ⟨levels, ?_⟩
      cases same
      rfl
    | registers regs => exact allow.elim
    | reset => exact Or.inr ⟨⟨nofun, nofun⟩, nofun⟩
    | setPc pc =>
      refine Or.inr ⟨⟨nofun, nofun⟩, ?_⟩
      change _ ∉ (c.setPc pc).schedule.pending
      rw [c.pending_setPc pc]
      exact (by decide : .action (.enter .dispatch) ∉ [MicroOp.cycle .fetchOpcode])
  | _ => exact Or.inl fun _ same => nomatch same

/-- So does serving an interrupt. -/
theorem Occurs.outside_of_serves (occurs : Occurs allowed c event d) (orderly : Orderly c)
    {interrupt : HardwareInterrupt} (serves : (⟨c, event⟩ : Occurrence).Serves interrupt) :
    Outside d := by
  obtain rfl : event = .move (c.serving interrupt) := serves.event
  have dry : c.schedule.pending = [] := serves.dry
  have landed := occurs.pending_landed orderly
  obtain ⟨_, rfl⟩ := occurs.moveHappens orderly.consistent
  rw [dry, List.tail_nil, List.nil_append] at landed
  refine ⟨⟨nofun, nofun⟩, ?_⟩
  rw [landed]
  exact enter_not_mem_vectorFetch .dispatch

/-! ## Frames are kept track of -/

/-- The effect of CWAI changes the flags alone, and its frame is next. -/
theorem Occurs.stacking_of_cwai {m : Move} (occurs : Occurs allowed c (.move m) d)
    (orderly : Orderly c) (instruction : c.instruction = .cwai)
    (pending : c.schedule.pending = cwaiTail) :
    Stacking ([.read c.effect.regs.pc] ++ Frame.accesses true c.effect.regs)
      (Frame.stacked true c.effect.regs) [] d := by
  have landed := occurs.pending_landed orderly
  obtain ⟨happens, rfl⟩ := occurs.moveHappens orderly.consistent
  cases happens with
  | phase dry _ | wake dry _ _ _ =>
    rw [pending] at dry
    cases dry
  | act next =>
    rw [pending] at next
    cases next
    have quiet : ({ c with schedule := c.schedule.advance } : Processor).growth = [] := by
      simp only [Processor.growth, instruction, Instruction.cwai]
    have regs : ({ c with schedule := c.schedule.advance } : Processor).effect.regs =
        c.effect.regs := by
      simp only [Processor.effect, instruction, Instruction.cwai]
      rfl
    change _ = _ ++ ({ c with schedule := c.schedule.advance } : Processor).growth at landed
    rw [quiet, List.append_nil, pending, cwaiTail, List.tail_cons, ← List.cons_append] at landed
    refine .steps landed ?_ ?_ (Or.inr rfl)
    · intro op mem
      rcases List.mem_cons.1 mem with rfl | frame
      · rfl
      · exact Frame.framing_program true op frame
    · have first : Frame.follow ([], c.effect.regs) (.cycle .peekPc) =
          ([.read c.effect.regs.pc], c.effect.regs) := rfl
      change ((MicroOp.cycle .peekPc) :: Frame.program true).foldl Frame.follow
        ([], ({ c with schedule := c.schedule.advance } : Processor).effect.regs) = _
      rw [regs, List.foldl_cons, first]
      exact Frame.follow_program true [.read c.effect.regs.pc] c.effect.regs

namespace Tracked

/-- Outside of frames nothing happens but that one is begun. -/
theorem of_outside (outside : Outside c) (orderly : Orderly c) (sourced : Sourced c)
    (occurs : Occurs keepsRegisters c event d) : Tracked (past ++ [⟨c, event⟩]) d := by
  cases event with
  | call call =>
    rcases occurs.drives_or_outside with drives | out
    · obtain ⟨levels, rfl⟩ := drives call rfl
      cases occurs
      exact .outside ⟨outside.phase, outside.enter⟩
    · exact .outside out
  | announce =>
    cases occurs
    refine .outside ⟨?_, ?_⟩
    · rw [Processor.announce_eq]
      exact outside.phase
    · rw [Processor.schedule_announce]
      exact outside.enter
  | access byte =>
    cases occurs with
    | cycle _ due _ =>
      rcases outside.carryOut orderly due byte with out | ⟨instruction, pending⟩
      · exact .outside out
      · exact .decoded instruction (Or.inl pending)
    | idle _ _ _ _ => exact .outside outside.idled
  | move m =>
    have landed := occurs.pending_landed orderly
    obtain ⟨happens, rfl⟩ := occurs.moveHappens orderly.consistent
    cases happens with
    | act pending => exact .outside (outside.act orderly sourced pending landed)
    | wake _ phase _ _ => exact absurd phase outside.phase.2
    | phase dry goes =>
      rcases outside.phaseGoes goes landed with out | ⟨interrupt, phase, recognised⟩
      · exact .outside out
      · have begins : (⟨c, .move m⟩ : Occurrence).Begins interrupt :=
          ⟨dry, phase, recognised, m, rfl⟩
        have on : Stacking ([.read c.regs.pc, .read c.regs.pc] ++
            Frame.accesses interrupt.stacksEntire c.regs)
            (Frame.stacked interrupt.stacksEntire c.regs) (accesses []) m.landed :=
          occurs.stacking_of_begins orderly begins
        exact .begun rfl (.interrupt begins) (Or.inl on) fun _ mem => nomatch mem

/-- Before its frame, CWAI reads its mask and applies it. -/
theorem of_decoded (instruction : c.instruction = .cwai)
    (pending : c.schedule.pending = .cycle .fetchOperand :: cwaiTail ∨
      c.schedule.pending = cwaiTail) (orderly : Orderly c)
    (occurs : Occurs keepsRegisters c event d) : Tracked (past ++ [⟨c, event⟩]) d := by
  have wet : c.schedule.pending ≠ [] := by
    rcases pending with both | last
    · rw [both]
      exact nofun
    · rw [last]
      exact nofun
  cases event with
  | call call =>
    rcases occurs.drives_or_outside with drives | out
    · obtain ⟨levels, rfl⟩ := drives call rfl
      cases occurs
      exact .decoded instruction pending
    · exact .outside out
  | announce =>
    cases occurs
    refine .decoded ?_ ?_
    · rw [Processor.announce_eq]
      exact instruction
    · rw [Processor.schedule_announce]
      exact pending
  | access byte =>
    cases occurs with
    | cycle _ due _ =>
      obtain ⟨rest, next⟩ := (Processor.due?_eq_some_iff orderly.consistent).1 due
      have landed := Processor.pending_carryOut orderly due byte
      rcases pending with both | last
      · rw [both] at next landed
        cases next
        exact .decoded instruction (Or.inr (landed.trans (List.append_nil _)))
      · rw [last] at next
        cases next
    | idle _ still _ idle =>
      exact absurd (Processor.pending_of_idle orderly.consistent still idle) wet
  | move m =>
    have happens := (occurs.moveHappens orderly.consistent).1
    cases happens with
    | phase dry _ => exact absurd dry wet
    | wake dry _ _ _ => exact absurd dry wet
    | act next =>
      rcases pending with both | last
      · rw [both] at next
        cases next
      · have on : Stacking ([.read c.effect.regs.pc] ++ Frame.accesses true c.effect.regs)
            (Frame.stacked true c.effect.regs) (accesses []) d :=
          occurs.stacking_of_cwai orderly instruction last
        exact .begun rfl (.cwai instruction last ⟨_, rfl⟩) (Or.inl on) fun _ mem => nomatch mem

/-- **Frames are kept track of.** -/
theorem occurs (h : Tracked past c) (orderly : Orderly c) (sourced : Sourced c)
    (occurs : Occurs keepsRegisters c event d) : Tracked (past ++ [⟨c, event⟩]) d := by
  cases h with
  | outside outside => exact of_outside outside orderly sourced occurs
  | decoded instruction pending => exact of_decoded instruction pending orderly occurs
  | @begun front later o entire r lead split starts entering quiet =>
    rcases occurs.drives_or_outside with calls | out
    · have longer : past ++ [⟨c, event⟩] = front ++ o :: (later ++ [⟨c, event⟩]) := by
        rw [split, List.append_assoc]
        rfl
      rcases occurs.entering orderly.consistent calls entering with
        ⟨on, last⟩ | ⟨interrupt, serves, _⟩
      · exact .begun longer starts on
          (List.forall_mem_append.2 ⟨quiet, List.forall_mem_singleton.2 last⟩)
      · exact .outside (occurs.outside_of_serves orderly serves)
    · exact .outside out

end Tracked

/-- What a history knows of frames, it knows from power-on. -/
theorem Path.tracked (path : History keepsRegisters past c) : Tracked past c := by
  induction path with
  | here => exact .outside ⟨⟨nofun, nofun⟩, nofun⟩
  | on before occurs ih =>
    exact ih.occurs (before.orderly Processor.orderly_powerOn)
      (before.sourced Processor.orderly_powerOn sourced_powerOn) occurs

/-! ## Vectors and frames -/

/-- The frame of `r` that lies below the processor: `o` began it, its accesses followed and
nothing else but idle cycles, and no vector has been taken since. -/
structure FrameBelow (past : List Occurrence) (c : Processor) (o : Occurrence) (entire : Bool)
    (r : RegisterFile) : Prop where
  stacked : ∃ front later lead n, past = front ++ o :: later ∧ o.StartsFrame entire r lead ∧
    accesses later = lead ++ Frame.accesses entire r ++ List.replicate n .idle ∧
    ∀ o ∈ later, o.Quiet
  regs : c.regs = Frame.stacked entire r

/-- The interrupt takes the place of FIRQ, whose frame was begun: NMI has come since then,
or FIRQ has gone and IRQ is next. -/
def HardwareInterrupt.Overtakes (before now : Processor) : HardwareInterrupt → Prop
  | .nmi => before.inputs.active.nmi = false ∧ now.inputs.active.nmi = true
  | .firq => False
  | .irq => before.inputs.active.firq = true ∧ now.inputs.active.firq = false

/-- The short frame is FIRQ's. -/
theorem Occurrence.StartsFrame.begins {o : Occurrence} {r : RegisterFile} {lead : List Access}
    (starts : o.StartsFrame false r lead) :
    o.Begins .firq ∧ r = o.before.regs ∧
      lead = [.read o.before.regs.pc, .read o.before.regs.pc] := by
  generalize short : false = entire at starts
  cases starts with
  | @interrupt interrupt begins =>
    cases interrupt with
    | firq => exact ⟨begins, rfl, rfl⟩
    | nmi | irq => cases short
  | cwai _ _ _ => cases short

/-- Stacking masks nothing, so only the lines can make a difference. -/
theorem HardwareInterrupt.overtakes_of_recognised {before now : Processor}
    {interrupt : HardwareInterrupt} (regs : now.regs = Frame.stacked false before.regs)
    (begun : recognised before.inputs.active before.regs.cc = some .firq)
    (served : recognised now.inputs.active now.regs.cc = some interrupt) :
    interrupt = .firq ∨ interrupt.Overtakes before now := by
  obtain ⟨eligible, first⟩ := recognised_eq_some_iff.1 begun
  obtain ⟨eligible', first'⟩ := recognised_eq_some_iff.1 served
  cases interrupt with
  | firq => exact Or.inl rfl
  | nmi => exact Or.inr ⟨first .nmi (by decide), eligible'⟩
  | irq =>
    obtain ⟨active, unmasked⟩ := Bool.and_eq_true_iff.1 eligible
    have gone := first' .firq (by decide)
    have mask : now.regs.cc.firqMask = before.regs.cc.firqMask := by
      rw [regs]
      rfl
    rw [HardwareInterrupt.eligible, mask, unmasked, Bool.and_true] at gone
    exact Or.inr ⟨active, gone⟩

/-- Once its frame is stacked, an entry leaves it below the processor. -/
theorem FrameBelow.of_entering {front later : List Occurrence} {o : Occurrence} {entire : Bool}
    {r : RegisterFile} {lead : List Access} (split : past = front ++ o :: later)
    (starts : o.StartsFrame entire r lead)
    (entering : Stacking (lead ++ Frame.accesses entire r) (Frame.stacked entire r)
        (accesses later) c ∨
      Waiting (lead ++ Frame.accesses entire r) (Frame.stacked entire r) (accesses later) c)
    (quiet : ∀ o ∈ later, o.Quiet) (dry : c.schedule.pending = []) :
    FrameBelow past c o entire r := by
  rcases entering with stacking | waiting
  · obtain ⟨_, complete, regs⟩ := stacking.complete dry
    refine ⟨⟨front, later, lead, 0, split, starts, ?_, quiet⟩, regs⟩
    rw [complete]
    exact (List.append_nil _).symm
  · obtain ⟨n, idle⟩ := waiting.idle
    exact ⟨⟨front, later, lead, n, split, starts, idle, quiet⟩, waiting.regs⟩

theorem HardwareInterrupt.vector_injective {interrupt other : HardwareInterrupt}
    (same : interrupt.vector = other.vector) : interrupt = other := by
  cases interrupt <;> cases other <;> first | rfl | cases same

/-- Outside of frames no hardware interrupt is served. -/
theorem Outside.not_takes (outside : Outside c) (orderly : Orderly c) (sourced : Sourced c)
    (occurs : Occurs allowed c event d) (interrupt : HardwareInterrupt) :
    ¬(⟨c, event⟩ : Occurrence).Takes interrupt.vector := by
  intro takes
  rcases occurs.takes orderly.consistent takes with ⟨rest, pending⟩ | ⟨_, _, _, phase, _⟩
  · exact sourced.ne_hardware orderly (by rw [pending]; exact List.mem_cons_self) interrupt rfl
  · rcases phase with dispatch | wait
    · exact outside.phase.1 dispatch
    · exact outside.phase.2 wait

/-- **The frame below a vector is full, or it is FIRQ's.** When the vector of a hardware
interrupt is taken, a frame has just been stacked, for an interrupt or by CWAI. It is the
full one, unless it was begun for FIRQ; and then the vector is FIRQ's, unless FIRQ was
overtaken meanwhile. The other way round, a short frame is begun for FIRQ only, and the
next vector is FIRQ's, with the same exception. -/
theorem vector_follows_frame :
    (∀ past c event d (interrupt : HardwareInterrupt), History keepsRegisters past c →
      Occurs keepsRegisters c event d → (⟨c, event⟩ : Occurrence).Takes interrupt.vector →
        ∃ o entire r, FrameBelow past c o entire r ∧
          (entire = true ∨ entire = false ∧ o.Begins .firq ∧
            (interrupt = .firq ∨ interrupt.Overtakes o.before c))) ∧
    ∀ past c event d front o later which r lead, History keepsRegisters past c →
      Occurs keepsRegisters c event d →
      past = front ++ o :: later → o.StartsFrame false r lead →
      (∀ o ∈ later, o.Quiet ∧ o.event.CallsOnlyDrive) →
      (⟨c, event⟩ : Occurrence).Takes which →
        o.Begins .firq ∧ FrameBelow past c o false r ∧
          ∃ interrupt : HardwareInterrupt, which = interrupt.vector ∧
            (interrupt = .firq ∨ interrupt.Overtakes o.before c) := by
  refine ⟨?_, ?_⟩
  · intro past c event d interrupt path occurs takes
    have orderly := path.orderly Processor.orderly_powerOn
    cases path.tracked with
    | outside outside =>
      have sourced := path.sourced Processor.orderly_powerOn sourced_powerOn
      exact absurd takes (outside.not_takes orderly sourced occurs interrupt)
    | decoded _ pending =>
      exfalso
      rcases occurs.takes orderly.consistent takes with ⟨rest, next⟩ | ⟨_, _, dry, _⟩
      · rw [next] at pending
        rcases pending with both | last
        · cases both
        · cases last
      · rw [dry] at pending
        rcases pending with both | last
        · cases both
        · cases last
    | @begun front later o entire r lead split starts entering quiet =>
      obtain ⟨other, vector, dry, recognised⟩ :=
        occurs.served_of_entering orderly entering takes
      obtain rfl := HardwareInterrupt.vector_injective vector
      have below := FrameBelow.of_entering split starts entering quiet dry
      refine ⟨o, entire, r, below, ?_⟩
      cases entire with
      | true => exact Or.inl rfl
      | false =>
        obtain ⟨begins, rfl, _⟩ := starts.begins
        exact Or.inr ⟨rfl, begins, HardwareInterrupt.overtakes_of_recognised below.regs
          begins.recognised recognised⟩
  · intro past c event d front o later which r lead path occurs split starts between takes
    have orderly := path.orderly Processor.orderly_powerOn
    have quiet := fun o mem => (between o mem).1
    obtain ⟨begins, rfl, rfl⟩ := starts.begins
    have whole := path
    rw [split] at path
    obtain ⟨before, e, begun, after⟩ := path.split
    have orderly' := before.orderly Processor.orderly_powerOn
    have start := begun.stacking_of_begins orderly' begins
    have consistent := (begun.orderly orderly').consistent
    cases after.entered (fun o mem => (between o mem).2) consistent start with
    | served same serves _ _ _ =>
      exact absurd serves.takes (quiet _ (by rw [same]; simp) _)
    | underWay entering _ =>
      obtain ⟨interrupt, vector, dry, recognised⟩ :=
        occurs.served_of_entering orderly entering takes
      have below := FrameBelow.of_entering split starts entering quiet dry
      exact ⟨begins, below, interrupt, vector,
        HardwareInterrupt.overtakes_of_recognised below.regs begins.recognised recognised⟩

theorem FrameBelow.size_le {o : Occurrence} {entire : Bool} {r : RegisterFile}
    (below : FrameBelow past c o entire r) :
    Frame.size entire ≤ (accesses past).countP Access.isWrite := by
  obtain ⟨front, later, lead, n, rfl, _, stacked, _⟩ := below.stacked
  rw [← List.singleton_append, accesses_append, accesses_append, stacked]
  simp only [List.countP_append, Frame.countP_accesses]
  omega

/-- FIRQ comes while the loop is running, and an edge on NMI while its frame is stacked. -/
def overtakingLines : List Levels :=
  List.replicate 16 .low ++ List.replicate 4 { Levels.low with firq := true } ++
    List.replicate 7 { Levels.low with firq := true, nmi := true }

/-- So the vector of NMI is taken, and there were only three writes. -/
theorem overtaking_run :
    ∃ past c event d, History linesOnly past c ∧ Occurs linesOnly c event d ∧
      (⟨c, event⟩ : Occurrence).Takes .nmi ∧ (accesses past).countP Access.isWrite ≤ 3 := by
  have log : (Board.clocks .logging overtakingLines waitingBoard).notes =
      [.resetBegun, .resetReleased] ++ .vectorTaken .nmi 0x1006 :: [] := by decide +kernel
  have few : (Board.clocks .logging overtakingLines waitingBoard).bus.transfers.toList.countP
      (·.access.isWrite) = 3 := by decide +kernel
  have drives : ∀ levels, linesOnly (.drive levels) := fun _ => trivial
  obtain ⟨past, happened⟩ := Board.past_clocks .logging drives overtakingLines waitingBoard
    Processor.orderly_powerOn.consistent
  have path := happened.path
  have noted := happened.notes_logging Processor.orderly_powerOn.consistent
  rw [log] at noted
  obtain ⟨front, o, back, rfl, line, _⟩ := exists_of_noted noted.symm
  obtain ⟨before, d, occurs, _⟩ := path.split
  have all : (accesses (front ++ o :: back)).countP Access.isWrite = 3 := by
    rw [← few, happened.transfers, accesses, List.countP_map]
    rfl
  rw [accesses_append, List.countP_append] at all
  exact ⟨front, o.before, o.event, d, before, occurs, Occurrence.takes_of_notice? line, by omega⟩

/-- A frame is not always the full one because the vector of NMI or IRQ is taken from
it. -/
theorem full_frame_not_always_below :
    ¬∀ past c event d (interrupt : HardwareInterrupt), History linesOnly past c →
      Occurs linesOnly c event d → (⟨c, event⟩ : Occurrence).Takes interrupt.vector →
        interrupt ≠ .firq → ∃ o r, FrameBelow past c o true r := by
  intro always
  obtain ⟨past, c, event, d, path, occurs, takes, few⟩ := overtaking_run
  obtain ⟨o, r, below⟩ := always past c event d .nmi path occurs takes nofun
  have many : 12 ≤ (accesses past).countP Access.isWrite := below.size_le
  omega

/-- In that run it is the short frame of FIRQ, which NMI has overtaken. -/
theorem vector_follows_frame_overtaken :
    ∃ past c event d o r, History keepsRegisters past c ∧ Occurs keepsRegisters c event d ∧
      (⟨c, event⟩ : Occurrence).Takes .nmi ∧ FrameBelow past c o false r ∧ o.Begins .firq ∧
        HardwareInterrupt.nmi.Overtakes o.before c := by
  obtain ⟨past, c, event, d, lines, driven, takes, few⟩ := overtaking_run
  have wider : ∀ call, linesOnly call → keepsRegisters call := by
    intro call only
    cases call with
    | drive _ => trivial
    | reset | setPc _ | registers _ => exact only.elim
  have path : History keepsRegisters past c := lines.mono wider
  have occurs : Occurs keepsRegisters c event d := driven.mono wider
  obtain ⟨o, entire, r, below, _⟩ := vector_follows_frame.1 past c event d .nmi path occurs takes
  cases entire with
  | true =>
    have many : 12 ≤ (accesses past).countP Access.isWrite := below.size_le
    omega
  | false =>
    obtain ⟨front, later, lead, n, split, starts, _, quiet⟩ := below.stacked
    have between : ∀ o ∈ later, o.Quiet ∧ o.event.CallsOnlyDrive := fun o mem =>
      ⟨quiet o mem, lines.callsOnlyDrive o (by rw [split]; simp [mem])⟩
    obtain ⟨begins, below, interrupt, vector, overtaken⟩ := vector_follows_frame.2 past c event d
      front o later .nmi r lead path occurs split starts between takes
    obtain rfl : .nmi = interrupt := HardwareInterrupt.vector_injective vector
    exact ⟨past, c, event, d, o, r, path, occurs, takes, below, begins,
      overtaken.resolve_left nofun⟩

end Sim6809
