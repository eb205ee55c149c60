/-
Where the pending steps come from.

Steps are scheduled a list at a time, always behind nothing, and used up from the front.
So what is pending is the rest of one such list, and there are only a few kinds of them:
an opcode fetch, the program of the decoded instruction or what a postbyte makes of it,
what an instruction adds while it runs, a frame, the fetch of a vector. `Source` names
them, together with what is known of the instruction while their steps are pending, and
`Sourced` is kept by everything that can happen.

What other files need from this are its consequences, at the end: an opcode fetch is
never pending beside another step, no instruction takes the vector of a hardware
interrupt, and only PULU pulls the hardware stack pointer. The fetch of a first opcode
byte is queued in one place only, unless there was a jump (`BeforeFetch`).
-/
import Sim6809.Proofs.Fetching
import Sim6809.Proofs.Frames
import Sim6809.Proofs.History

set_option autoImplicit false

namespace Sim6809

/-- A list of steps that is scheduled at once, and belongs to the instruction. -/
inductive Source (c : Processor) : List MicroOp → Prop
  | fetch : Source c [.cycle .fetchOpcode]
  | program : Source c c.instruction.program
  | indexed (postbyte : Byte) (mode : c.instruction.mode = .indexed) :
      Source c (IndexForm.program postbyte ++ c.instruction.body)
  | branch : Source c [.cycle .dummy]
  | pushes (stack : Stack) (list : Byte) : Source c (RegisterList.pushProgram stack list)
  /-- While the registers are pulled, their list is still the operand. -/
  | pulls {stack : Stack} (op : c.instruction.op = .pull stack) :
      Source c (RegisterList.pullProgram stack (Word.low c.data))
  | unwind (entire : Bool) : Source c (Frame.unwind entire)
  | vector : Source c (.cycle .dummy :: vectorFetch)
  | entry (interrupt : HardwareInterrupt) :
      Source c ([.cycle .peekPc, .cycle .peekPc] ++ Frame.program interrupt.stacksEntire)

/-- What is pending is the rest of such a list. -/
def Sourced (c : Processor) : Prop := ∃ ops, Source c ops ∧ c.schedule.pending <:+ ops

variable {c d : Processor}

theorem mem_pullProgram {stack : Stack} {list : Byte} {op : MicroOp}
    (mem : op ∈ RegisterList.pullProgram stack list) :
    op = .cycle (.peekStack stack) ∨
      ∃ part, part ∈ RegisterList.selected (RegisterList.pullOrder stack) list ∧
        op = .cycle (.pull stack part) := by
  rcases List.mem_append.1 mem with pull | last
  · obtain ⟨part, selected, rfl⟩ := List.mem_map.1 pull
    exact Or.inr ⟨part, selected, rfl⟩
  · exact Or.inl (List.mem_singleton.1 last)

/-- Idle cycles, and those that move a byte of a stack or look at one. -/
def BusCycle.idleOrStack : BusCycle → Bool
  | .dummy | .peekStack _ | .push .. | .pull .. => true
  | _ => false

/-- An effect adds no others. -/
theorem mem_growth {op : MicroOp} (mem : op ∈ c.growth) :
    ∃ cycle, op = .cycle cycle ∧ cycle.idleOrStack = true := by
  unfold Processor.growth at mem
  split at mem
  · split at mem
    · exact ⟨.dummy, List.mem_singleton.1 mem, rfl⟩
    · cases mem
  · obtain ⟨part, _, rfl⟩ := List.mem_map.1 mem
    exact ⟨_, rfl, rfl⟩
  · rcases mem_pullProgram mem with rfl | ⟨part, _, rfl⟩
    · exact ⟨_, rfl, rfl⟩
    · exact ⟨_, rfl, rfl⟩
  · rw [Frame.unwind_eq] at mem
    rcases List.mem_append.1 mem with pull | last
    · obtain ⟨part, _, rfl⟩ := List.mem_map.1 pull
      exact ⟨_, rfl, rfl⟩
    · exact ⟨.dummy, List.mem_singleton.1 last, rfl⟩
  · cases mem

/-! ## Kept by everything that happens -/

namespace Sourced

/-- Nothing pending is the rest of any list. -/
theorem of_dry (dry : c.schedule.pending = []) : Sourced c :=
  ⟨_, .fetch, by rw [dry]; exact List.nil_suffix⟩

theorem of_eq {ops : List MicroOp} (source : Source c ops) (pending : c.schedule.pending = ops) :
    Sourced c :=
  ⟨ops, source, pending ▸ List.suffix_refl _⟩

/-- Steps may be used up, as long as the instruction stays and its operand does if
registers are being pulled. -/
theorem of_suffix (h : Sourced c) (instruction : d.instruction = c.instruction)
    (pending : d.schedule.pending <:+ c.schedule.pending)
    (data : ∀ stack, c.instruction.op = .pull stack →
      c.schedule.pending <:+ RegisterList.pullProgram stack (Word.low c.data) →
      d.data = c.data) : Sourced d := by
  obtain ⟨ops, source, rest⟩ := h
  refine ⟨ops, ?_, pending.trans rest⟩
  cases source with
  | fetch => exact .fetch
  | program =>
    rw [← instruction]
    exact .program
  | indexed postbyte mode =>
    rw [← instruction]
    exact .indexed postbyte (by rw [instruction, mode])
  | branch => exact .branch
  | pushes stack list => exact .pushes stack list
  | pulls op =>
    rw [← data _ op rest]
    exact .pulls (by rw [instruction, op])
  | unwind entire => exact .unwind entire
  | vector => exact .vector
  | entry interrupt => exact .entry interrupt

/-- Nothing at all is different. -/
theorem of_same (h : Sourced c) (instruction : d.instruction = c.instruction)
    (schedule : d.schedule = c.schedule) (data : d.data = c.data) : Sourced d :=
  h.of_suffix instruction (schedule ▸ List.suffix_refl _) fun _ _ _ => data

end Sourced

namespace Processor

/-- What an effect adds is such a list, if it adds anything. -/
theorem source_growth (c : Processor) (instruction : d.instruction = c.instruction)
    (data : d.data = c.data) : c.growth = [] ∨ Source d c.growth := by
  unfold growth
  split
  · split
    · exact Or.inr .branch
    · exact Or.inl rfl
  · exact Or.inr (.pushes _ _)
  · next op =>
    rw [← data]
    exact Or.inr (.pulls (by rw [instruction, op]))
  · exact Or.inr (.unwind _)
  · exact Or.inl rfl

theorem sourced_act {action : Action} {rest : List MicroOp} (h : Orderly c) (sourced : Sourced c)
    (pending : c.schedule.pending = .action action :: rest) :
    Sourced ({ c with schedule := c.schedule.advance }.act action).landed := by
  have used : ({ c with schedule := c.schedule.advance }.act action).next.schedule.pending =
      rest := by
    rw [schedule_act]
    change c.schedule.advance.pending = rest
    rw [Schedule.pending_advance h.consistent, pending, List.tail_cons]
  have inOrder := orderly_act h pending
  have landed := inOrder.pending_landed
  by_cases quiet : ({ c with schedule := c.schedule.advance }.act action).queued = []
  · rw [quiet, List.append_nil, used] at landed
    refine sourced.of_suffix (instruction_act _ _) ?_ ?_
    · rw [landed, pending]
      exact List.suffix_cons _ _
    · intro stack _ suffix
      -- A list of pulls holds no action.
      rw [pending] at suffix
      rcases mem_pullProgram (suffix.subset List.mem_cons_self) with last | ⟨part, _, pull⟩
      · cases last
      · cases pull
  · rw [inOrder.dry quiet, List.nil_append] at landed
    refine .of_eq ?_ landed
    cases action with
    | operate =>
      have instruction :
          ({ c with schedule := c.schedule.advance } : Processor).effect.instruction =
            c.instruction := by rw [effect_eq]
      have data : ({ c with schedule := c.schedule.advance } : Processor).effect.data = c.data := by
        rw [effect_eq]
      exact Or.resolve_left (source_growth { c with schedule := c.schedule.advance } (by
        exact instruction) (by exact data)) quiet
    | vector which => exact .vector
    | _ => exact absurd rfl quiet

theorem sourced_phase {m : Move} (goes : PhaseGoes c m)
    (landed : m.landed.schedule.pending = m.queued) : Sourced m.landed := by
  cases goes with
  | reset _ | boundary _ _ | retire _ | unserved _ _ => exact .of_dry landed
  | release _ _ => exact ⟨_, .vector, by rw [landed]; exact List.suffix_cons _ _⟩
  | asked _ _ => exact .of_eq (.entry _) landed
  | unasked _ _ => exact .of_eq .fetch landed
  | served _ _ => exact .of_eq .vector landed

theorem sourced_move {m : Move} (h : Orderly c) (sourced : Sourced c) (happens : MoveHappens c m)
    (landed : m.landed.schedule.pending = c.schedule.pending.tail ++ m.queued) :
    Sourced m.landed := by
  cases happens with
  | act pending => exact sourced_act h sourced pending
  | phase dry goes =>
    rw [dry] at landed
    exact sourced_phase goes landed
  | wake dry _ _ _ =>
    rw [dry] at landed
    exact .of_eq .vector landed

/-- A byte uses up its cycle, and what it queues follows. -/
theorem pending_carryOut {cycle : BusCycle} (h : Orderly c) (due : c.due? = some cycle)
    (byte : Byte) :
    (c.carryOut cycle byte).schedule.pending = c.schedule.pending.tail ++
      ({ c.clocked with schedule := c.schedule.advance }.absorb byte cycle).queued := by
  have landed := (orderly_absorb h byte due).pending_landed
  rw [schedule_absorb] at landed
  rw [← Schedule.pending_advance h.consistent]
  exact landed

/-- What a byte leads to: nothing but the rest, unless it is an opcode or a postbyte. -/
inductive CarriesOut (c : Processor) (cycle : BusCycle) (byte : Byte) : Prop
  | plain (instruction : (c.carryOut cycle byte).instruction = c.instruction)
      (pending : (c.carryOut cycle byte).schedule.pending = c.schedule.pending.tail)
  | select (fetch : cycle = .fetchOpcode)
      (pending : (c.carryOut cycle byte).schedule.pending = [.cycle .fetchOpcode])
      (page : (c.carryOut cycle byte).page ≠ 0)
  | decode (fetch : cycle = .fetchOpcode)
      (instruction : (c.carryOut cycle byte).instruction = Instruction.decode c.page byte)
      (pending : (c.carryOut cycle byte).schedule.pending =
        (Instruction.decode c.page byte).program)
  | postbyte (indexed : c.instruction.mode = .indexed)
      (instruction : (c.carryOut cycle byte).instruction = c.instruction)
      (pending : (c.carryOut cycle byte).schedule.pending =
        IndexForm.program byte ++ c.instruction.body)

theorem carriesOut {cycle : BusCycle} (h : Orderly c) (due : c.due? = some cycle) (byte : Byte) :
    CarriesOut c cycle byte := by
  obtain ⟨rest, pending⟩ := (due?_eq_some_iff h.consistent).1 due
  have landed := pending_carryOut h due byte
  -- A cycle that queues something is the last one.
  have alone : MicroOp.queues c.instruction (.cycle cycle) = true →
      c.schedule.pending.tail = [] := by
    have last := h.last
    rw [pending] at last ⊢
    exact last.rest_eq_nil
  cases cycle with
  | fetchOpcode =>
    rw [alone rfl, List.nil_append] at landed
    by_cases final : ∀ selected, (Instruction.decode c.page byte).op ≠ .selectPage selected
    · have absorbed := absorbOpcode_of_final { c.clocked with schedule := c.schedule.advance } final
      rw [absorb, absorbed] at landed
      refine .decode rfl ?_ landed
      rw [carryOut, absorb, absorbed]
      rfl
    · obtain ⟨selected, selects⟩ := by simpa using final
      have absorbed :=
        absorbOpcode_of_select { c.clocked with schedule := c.schedule.advance } selects
      rw [absorb, absorbed] at landed
      refine .select rfl landed ?_
      rw [carryOut, absorb, absorbed]
      exact Instruction.selected_ne_zero selects
  | fetchPostbyte =>
    rw [alone rfl, List.nil_append] at landed
    exact .postbyte (h.indexed (by rw [pending]; exact List.mem_cons_self)) rfl landed
  | _ => exact .plain rfl (landed.trans (List.append_nil _))

theorem sourced_carryOut {cycle : BusCycle} (h : Orderly c) (sourced : Sourced c)
    (due : c.due? = some cycle) (byte : Byte) : Sourced (c.carryOut cycle byte) := by
  cases carriesOut h due byte with
  | plain instruction used =>
    refine sourced.of_suffix instruction (by rw [used]; exact List.tail_suffix _) ?_
    -- Pulls leave the operand alone.
    intro stack _ suffix
    obtain ⟨rest, pending⟩ := (due?_eq_some_iff h.consistent).1 due
    rw [pending] at suffix
    rcases mem_pullProgram (suffix.subset List.mem_cons_self) with last | ⟨part, _, pull⟩
    · cases last
      rfl
    · cases pull
      rfl
  | select _ used _ => exact .of_eq .fetch used
  | decode _ instruction used => exact .of_eq (by rw [← instruction]; exact .program) used
  | postbyte indexed instruction used =>
    refine .of_eq ?_ used
    rw [← instruction] at indexed ⊢
    exact .indexed byte indexed

end Processor

theorem Sourced.occurs {allowed : HostCall → Prop} {event : Event} (sourced : Sourced c)
    (h : Orderly c) (occurs : Occurs allowed c event d) : Sourced d := by
  cases event with
  | move m =>
    obtain ⟨happens, rfl⟩ := occurs.moveHappens h.consistent
    exact Processor.sourced_move h sourced happens (occurs.pending_landed h)
  | announce =>
    cases occurs
    exact sourced.of_same (by rw [Processor.announce_eq]) (Processor.schedule_announce _)
      (by rw [Processor.announce_eq])
  | access byte =>
    cases occurs with
    | cycle _ due _ => exact Processor.sourced_carryOut h sourced due byte
    | idle _ _ _ _ =>
      exact sourced.of_same (by rw [Processor.idled_eq]) (Processor.schedule_idled _)
        (by rw [Processor.idled_eq])
  | call call =>
    cases occurs
    cases call with
    | drive levels | registers regs => exact sourced.of_same rfl rfl rfl
    | reset => exact .of_dry rfl
    | setPc pc => exact .of_eq .fetch (c.pending_setPc pc)

theorem sourced_powerOn : Sourced .powerOn := .of_dry rfl

theorem Path.sourced {allowed : HostCall → Prop} {past : List Occurrence}
    (path : Path allowed c past d) (h : Orderly c) (sourced : Sourced c) : Sourced d :=
  (path.preserves (P := fun c => Orderly c ∧ Sourced c)
    (fun kept occurs => ⟨occurs.orderly kept.1, kept.2.occurs kept.1 occurs⟩) ⟨h, sourced⟩).2

/-! ## What is out of the ordinary -/

/-- The steps of which it matters where they come from are not ordinary: an opcode
fetch, a pull of the hardware stack pointer, the vector of a hardware interrupt, and a
way out of the instruction stream other than SYNC and the lock. -/
def MicroOp.ordinary : MicroOp → Bool
  | .cycle .fetchOpcode => false
  | .cycle (.pull _ part) => part.OffStack
  | .action (.vector which) => which != .nmi && which != .firq && which != .irq
  | .action (.enter phase) => phase == .syncWait || phase == .locked
  | _ => true

/-- CWAI, which waits for an interrupt with its frame already stacked. -/
def Instruction.cwai : Instruction := ⟨.cwai, .immediate⟩

/-- An instruction has ordinary steps only, except for CWAI. -/
theorem Instruction.ordinary_decode (page opcode : Byte) {op : MicroOp}
    (mem : op ∈ (decode page opcode).program ++ (decode page opcode).body) :
    op.ordinary = true ∨ op = .action (.enter .dispatch) ∧ decode page opcode = cwai :=
  decode_induction
    (P := fun i => ∀ op ∈ i.program ++ i.body,
      op.ordinary = true ∨ op = .action (.enter .dispatch) ∧ i = cwai)
    (by decide +kernel) (by decide +kernel) (by decide +kernel) page opcode op mem

theorem ordinary_indexProgram {postbyte : Byte} {op : MicroOp}
    (mem : op ∈ IndexForm.program postbyte) : op.ordinary = true := by
  have cycles : ∀ form : IndexForm, ∀ op ∈ form.cycles, op.ordinary = true := by
    intro form
    cases form <;> decide
  rcases List.mem_append.1 mem with first | last
  · exact cycles _ op first
  · split at last
    · have indirection : ∀ op ∈ IndexForm.indirection, op.ordinary = true := by decide
      exact indirection op last
    · cases last

/-- The pulls of the hardware stack pointer, and what asks for them. -/
theorem mem_pullOrder_stack {stack : Stack} {list : Byte} {part : Part}
    (mem : part ∈ RegisterList.selected (RegisterList.pullOrder stack) list)
    (half : ¬part.OffStack) : stack = .u ∧ list &&& 0x40 ≠ 0 := by
  obtain ⟨⟨bit, other⟩, selected, rfl⟩ := List.mem_map.1 mem
  obtain ⟨listed, chosen⟩ := List.mem_filter.1 selected
  have table : ∀ stack : Stack, ∀ entry ∈ RegisterList.pullOrder stack,
      ¬entry.2.OffStack → stack = .u ∧ entry.1 = 0x40 := by
    intro stack
    cases stack <;> decide
  obtain ⟨user, rfl⟩ := table stack _ listed half
  exact ⟨user, by simpa using chosen⟩

/-- What is pending that is not ordinary. -/
inductive Remarkable (c : Processor) (op : MicroOp) : Prop
  | fetch (fetch : op = .cycle .fetchOpcode) (alone : c.schedule.pending = [op])
  /-- PULU has S in its list. -/
  | pull {part : Part} (pull : op = .cycle (.pull .u part)) (half : ¬part.OffStack)
      (instruction : c.instruction.op = .pull .u) (listed : Word.low c.data &&& 0x40 ≠ 0)
  | enter (enter : op = .action (.enter .dispatch)) (instruction : c.instruction = .cwai)
      (rest : c.schedule.pending <:+ Instruction.cwai.program)

theorem Sourced.remarkable (sourced : Sourced c) (h : Orderly c) {op : MicroOp}
    (mem : op ∈ c.schedule.pending) (odd : op.ordinary = false) : Remarkable c op := by
  obtain ⟨ops, source, rest⟩ := sourced
  obtain ⟨page, opcode, decoded⟩ := h.decoded
  have whole := rest.subset mem
  have plain : op.ordinary ≠ true := by
    rw [odd]
    decide
  cases source with
  | fetch =>
    obtain rfl := List.mem_singleton.1 whole
    refine .fetch rfl ?_
    rcases List.suffix_cons_iff.1 rest with all | none
    · exact all
    · rw [List.suffix_nil.1 none] at mem
      cases mem
  | program =>
    rw [← decoded] at whole rest
    rcases Instruction.ordinary_decode page opcode (List.mem_append_left _ whole) with
      ordinary | ⟨enter, cwai⟩
    · exact absurd ordinary plain
    · rw [cwai] at rest
      exact .enter enter (decoded.symm.trans cwai) rest
  | indexed postbyte mode =>
    rcases List.mem_append.1 whole with address | body
    · exact absurd (ordinary_indexProgram address) plain
    · rw [← decoded] at body mode
      rcases Instruction.ordinary_decode page opcode (List.mem_append_right _ body) with
        ordinary | ⟨_, cwai⟩
      · exact absurd ordinary plain
      · rw [cwai] at mode
        cases mode
  | branch =>
    obtain rfl := List.mem_singleton.1 whole
    cases odd
  | pushes stack list =>
    obtain ⟨part, _, rfl⟩ := List.mem_map.1 whole
    cases odd
  | @pulls stack pull =>
    rcases mem_pullProgram whole with rfl | ⟨part, selected, rfl⟩
    · cases odd
    · have half : ¬part.OffStack := by simpa [MicroOp.ordinary] using odd
      obtain ⟨rfl, listed⟩ := mem_pullOrder_stack selected half
      exact .pull rfl half pull listed
  | unwind entire =>
    have table : ∀ op ∈ Frame.unwind entire, op.ordinary = true := by cases entire <;> decide
    exact absurd (table op whole) plain
  | vector =>
    have table : ∀ op ∈ .cycle .dummy :: vectorFetch, op.ordinary = true := by decide
    exact absurd (table op whole) plain
  | entry interrupt =>
    have table : ∀ op ∈ [.cycle .peekPc, .cycle .peekPc] ++ Frame.program interrupt.stacksEntire,
        op.ordinary = true := by cases interrupt <;> decide
    exact absurd (table op whole) plain

/-- An opcode fetch is never pending beside another step. -/
theorem Sourced.fetch_alone (sourced : Sourced c) (h : Orderly c)
    (mem : .cycle .fetchOpcode ∈ c.schedule.pending) :
    c.schedule.pending = [.cycle .fetchOpcode] := by
  cases sourced.remarkable h mem rfl with
  | fetch _ alone => exact alone
  | pull pull _ _ _ => cases pull
  | enter enter _ _ => cases enter

/-- No instruction takes the vector of a hardware interrupt. -/
theorem Sourced.ne_hardware (sourced : Sourced c) (h : Orderly c) {which : InterruptVector}
    (mem : .action (.vector which) ∈ c.schedule.pending) (interrupt : HardwareInterrupt) :
    which ≠ interrupt.vector := by
  rintro rfl
  cases sourced.remarkable h mem (by cases interrupt <;> rfl) with
  | fetch fetch _ => cases fetch
  | pull pull _ _ _ => cases pull
  | enter enter _ _ => cases enter

/-! ## Phases

An instruction leaves the phase alone until its last step, which may lead to a wait. -/

namespace Processor

theorem phase_carryOut (c : Processor) (cycle : BusCycle) (byte : Byte) :
    (c.carryOut cycle byte).phase = c.phase := by
  rw [carryOut, Move.landed, absorb_eq]
  rfl

theorem phase_act (c : Processor) {action : Action} (stays : ∀ phase, action ≠ .enter phase) :
    (c.act action).landed.phase = c.phase := by
  cases action with
  | operate =>
    change c.effect.phase = c.phase
    rw [effect_eq]
  | enter phase => exact absurd rfl (stays phase)
  | _ => rfl

end Processor

/-- There are three phases that instructions enter. -/
theorem Sourced.enters (sourced : Sourced c) (h : Orderly c) {phase : Phase}
    (mem : .action (.enter phase) ∈ c.schedule.pending) :
    phase = .syncWait ∨ phase = .locked ∨ phase = .dispatch := by
  cases ordinary : (MicroOp.action (.enter phase)).ordinary with
  | true =>
    simp only [MicroOp.ordinary, Bool.or_eq_true, beq_iff_eq] at ordinary
    exact ordinary.imp_right Or.inl
  | false =>
    cases sourced.remarkable h mem ordinary with
    | fetch fetch _ => cases fetch
    | pull pull _ _ _ => cases pull
    | enter enter _ _ =>
      cases enter
      exact Or.inr (Or.inr rfl)

/-- The step leaves the instruction stream. -/
def MicroOp.leaves : MicroOp → Bool
  | .action (.enter _) => true
  | _ => false

/-- An instruction leaves at its end, if at all. -/
theorem Instruction.leaves_decode (page opcode : Byte) {op : MicroOp}
    (mem : op ∈ (decode page opcode).program.dropLast ++ (decode page opcode).body.dropLast) :
    op.leaves = false :=
  decode_induction (P := fun i => ∀ op ∈ i.program.dropLast ++ i.body.dropLast, op.leaves = false)
    (by decide +kernel) (by decide +kernel) (by decide +kernel) page opcode op mem

theorem leaves_indexProgram {postbyte : Byte} {op : MicroOp}
    (mem : op ∈ IndexForm.program postbyte) : op.leaves = false := by
  have cycles : ∀ form : IndexForm, ∀ op ∈ form.cycles, op.leaves = false := by
    intro form
    cases form <;> decide
  rcases List.mem_append.1 mem with first | last
  · exact cycles _ op first
  · split at last
    · have indirection : ∀ op ∈ IndexForm.indirection, op.leaves = false := by decide
      exact indirection op last
    · cases last

theorem leaves_takeVector : ∀ op ∈ .cycle .dummy :: vectorFetch, op.leaves = false := by decide

theorem leaves_entry (interrupt : HardwareInterrupt) :
    ∀ op ∈ [.cycle .peekPc, .cycle .peekPc] ++ Frame.program interrupt.stacksEntire,
      op.leaves = false := by
  cases interrupt <;> decide

/-- Only the steps of the instruction itself leave, and of those only the last one. -/
theorem Source.leaves (h : Orderly c) {ops : List MicroOp} (source : Source c ops) {op : MicroOp}
    (mem : op ∈ ops.dropLast) : op.leaves = false := by
  obtain ⟨page, opcode, decoded⟩ := h.decoded
  have whole := (List.dropLast_subset ops) mem
  cases source with
  | fetch | branch => cases mem
  | program =>
    rw [← decoded] at mem
    exact Instruction.leaves_decode page opcode (List.mem_append_left _ mem)
  | indexed postbyte _ =>
    by_cases dry : c.instruction.body = []
    · rw [dry, List.append_nil] at whole
      exact leaves_indexProgram whole
    · rw [List.dropLast_append_of_ne_nil dry] at mem
      rcases List.mem_append.1 mem with address | body
      · exact leaves_indexProgram address
      · rw [← decoded] at body
        exact Instruction.leaves_decode page opcode (List.mem_append_right _ body)
  | pushes stack list =>
    obtain ⟨part, _, rfl⟩ := List.mem_map.1 whole
    rfl
  | pulls op =>
    rcases mem_pullProgram whole with rfl | ⟨part, _, rfl⟩ <;> rfl
  | unwind entire =>
    have table : ∀ op ∈ Frame.unwind entire, op.leaves = false := by cases entire <;> decide
    exact table op whole
  | vector => exact leaves_takeVector op whole
  | entry interrupt => exact leaves_entry interrupt op whole

/-- So nothing is pending behind such a step. -/
theorem Sourced.rest_eq_nil (sourced : Sourced c) (h : Orderly c) {op : MicroOp}
    {rest : List MicroOp} (pending : c.schedule.pending = op :: rest) (leaves : op.leaves = true) :
    rest = [] := by
  obtain ⟨ops, source, front, whole⟩ := sourced
  by_cases dry : rest = []
  · exact dry
  · have mem : op ∈ ops.dropLast := by
      rw [← whole, pending, List.dropLast_append_of_ne_nil (List.cons_ne_nil op rest),
        List.dropLast_cons_of_ne_nil dry]
      exact List.mem_append_right front List.mem_cons_self
    rw [source.leaves h mem] at leaves
    cases leaves

/-! ## The fetch of a first opcode byte -/

theorem fetchOpcode_not_mem_act (c : Processor) (action : Action) :
    .cycle .fetchOpcode ∉ (c.act action).queued := by
  cases action with
  | operate =>
    intro mem
    obtain ⟨cycle, same, other⟩ := mem_growth mem
    cases same
    cases other
  | vector which => exact (by decide : .cycle .fetchOpcode ∉ .cycle .dummy :: vectorFetch)
  | _ => exact nofun

/-- No instruction fetches an opcode of its own. -/
theorem fetchOpcode_not_mem_decode (page opcode : Byte) : .cycle .fetchOpcode ∉
    (Instruction.decode page opcode).program ++ (Instruction.decode page opcode).body := by
  intro mem
  rcases Instruction.ordinary_decode page opcode mem with ordinary | ⟨enter, _⟩
  · cases ordinary
  · cases enter

theorem Orderly.fetchOpcode_not_mem_body (h : Orderly c) :
    .cycle .fetchOpcode ∉ c.instruction.body := by
  obtain ⟨page, opcode, decoded⟩ := h.decoded
  rw [← decoded]
  exact fun mem => fetchOpcode_not_mem_decode page opcode (List.mem_append_right _ mem)

/-- Nor does what a postbyte queues. -/
theorem fetchOpcode_not_mem_indexed {i : Instruction} (none : .cycle .fetchOpcode ∉ i.body)
    (postbyte : Byte) : .cycle .fetchOpcode ∉ IndexForm.program postbyte ++ i.body := by
  intro mem
  rcases List.mem_append.1 mem with address | body
  · cases ordinary_indexProgram address
  · exact none body

/-- What happened last when the first opcode byte of an instruction is to be fetched: the
fetch was pending already, it is queued because no interrupt was recognised between two
instructions, or there was a jump. -/
inductive BeforeFetch (c : Processor) : Event → Processor → Prop
  | announced (pending : .cycle .fetchOpcode ∈ c.schedule.pending) (page : c.page = 0) :
      BeforeFetch c .announce c.announce
  | driven (pending : .cycle .fetchOpcode ∈ c.schedule.pending) (page : c.page = 0)
      (levels : Levels) : BeforeFetch c (.call (.drive levels)) (c.withLevels levels)
  | written (pending : .cycle .fetchOpcode ∈ c.schedule.pending) (page : c.page = 0)
      (regs : RegisterFile) : BeforeFetch c (.call (.registers regs)) { c with regs := regs }
  | unasked (dry : c.schedule.pending = []) (phase : c.phase = .arbitration)
      (unasked : HardwareInterrupt.recognised c.inputs.active c.regs.cc = none) :
      BeforeFetch c
        (.move { next := { c with phase := .execution }, queued := [.cycle .fetchOpcode] })
        { c with phase := .execution, schedule := c.schedule.extend [.cycle .fetchOpcode] }
  | jump (pc : Word) : BeforeFetch c (.call (.setPc pc)) (c.setPc pc)

/-- A pending fetch is not behind another step, so what is left after one is none. -/
theorem Sourced.ne_fetchOpcode_of_tail (sourced : Sourced c) (h : Orderly c) {op : MicroOp}
    (mem : op ∈ c.schedule.pending.tail) : op ≠ .cycle .fetchOpcode := by
  rintro rfl
  have alone := sourced.fetch_alone h (List.mem_of_mem_tail mem)
  rw [alone] at mem
  cases mem

theorem Processor.PhaseGoes.beforeFetch {m : Move} (goes : c.PhaseGoes m)
    (dry : c.schedule.pending = []) (fetch : .cycle .fetchOpcode ∈ m.queued) :
    BeforeFetch c (.move m) m.landed := by
  cases goes with
  | unasked phase unasked => exact .unasked dry phase unasked
  | reset _ | boundary _ _ | retire _ | unserved _ _ => cases fetch
  | release _ _ => exact absurd fetch (by decide : .cycle .fetchOpcode ∉ vectorFetch)
  | served _ _ =>
    exact absurd fetch (by decide : .cycle .fetchOpcode ∉ .cycle .dummy :: vectorFetch)
  | @asked interrupt _ _ =>
    have entry : .cycle .fetchOpcode ∉
        [.cycle .peekPc, .cycle .peekPc] ++ Frame.program interrupt.stacksEntire := by
      cases interrupt <;> decide
    exact absurd fetch entry

/-- The byte of an access leaves no first fetch behind: a page is selected, or an
instruction begun. -/
theorem Processor.fetchOpcode_not_mem_carryOut {cycle : BusCycle} (h : Orderly c)
    (sourced : Sourced c) (due : c.due? = some cycle) (byte : Byte)
    (page : (c.carryOut cycle byte).page = 0) :
    .cycle .fetchOpcode ∉ (c.carryOut cycle byte).schedule.pending := by
  intro mem
  cases carriesOut h due byte with
  | plain _ used =>
    rw [used] at mem
    exact sourced.ne_fetchOpcode_of_tail h mem rfl
  | select _ _ selected => exact selected page
  | decode _ _ used =>
    rw [used] at mem
    exact fetchOpcode_not_mem_decode _ _ (List.mem_append_left _ mem)
  | postbyte _ _ used =>
    rw [used] at mem
    exact fetchOpcode_not_mem_indexed h.fetchOpcode_not_mem_body byte mem

theorem Occurs.beforeFetch {allowed : HostCall → Prop} {event : Event}
    (occurs : Occurs allowed c event d) (h : Orderly c) (sourced : Sourced c)
    (fetch : .cycle .fetchOpcode ∈ d.schedule.pending) (page : d.page = 0) :
    BeforeFetch c event d := by
  cases event with
  | call call =>
    cases occurs
    cases call with
    | drive levels => exact .driven (c := c) fetch page levels
    | registers regs => exact .written (c := c) fetch page regs
    | setPc pc => exact .jump pc
    | reset => cases fetch
  | announce =>
    cases occurs
    rw [Processor.schedule_announce] at fetch
    rw [Processor.announce_eq] at page
    exact .announced fetch page
  | access byte =>
    cases occurs with
    | cycle _ due _ =>
      exact absurd fetch (Processor.fetchOpcode_not_mem_carryOut h sourced due byte page)
    | idle _ still _ idle =>
      rw [Processor.schedule_idled, Processor.pending_of_idle h.consistent still idle] at fetch
      cases fetch
  | move m =>
    have landed := occurs.pending_landed h
    obtain ⟨happens, rfl⟩ := occurs.moveHappens h.consistent
    rw [landed] at fetch
    rcases List.mem_append.1 fetch with used | added
    · exact absurd rfl (sourced.ne_fetchOpcode_of_tail h used)
    · cases happens with
      | act pending => exact absurd added (fetchOpcode_not_mem_act _ _)
      | phase dry goes => exact goes.beforeFetch dry added
      | wake _ _ _ _ =>
        exact absurd added (by decide : .cycle .fetchOpcode ∉ .cycle .dummy :: vectorFetch)

end Sim6809
