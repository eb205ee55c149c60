/-
Stacking: a frame on its way to the stack, as seen on the bus.

A frame is stacked for an interrupt that is recognised between two instructions, or by
CWAI ahead of one. Either way the accesses that are still to come are fixed when it
begins, whatever the lines do and whatever the bus answers: `Frame.follow` is what each
step adds to them, and `Stacking` says that the accesses made so far and those still to
come make up the whole. Once the frame is complete an interrupt is served, or the
processor waits for one with idle cycles (`Waiting`).

`Stacking.occurs` and `Waiting.occurs` are the step of this argument, put together in
`Occurs.entering`, and `Path.entered` is the run: an entry is still under way, or one of
the occurrences since served an interrupt, and before it came the accesses of the frame and
nothing else but idle ones.
-/
import Sim6809.Proofs.Provenance

set_option autoImplicit false

namespace Sim6809

/-! ## The accesses of a frame -/

/-- The writes that push bytes below an address. -/
def pushWrites : Word → List Byte → List Access
  | _, [] => []
  | s, byte :: bytes => .write (s - 1) byte :: pushWrites (s - 1) bytes

theorem length_pushWrites (s : Word) (bytes : List Byte) :
    (pushWrites s bytes).length = bytes.length := by
  induction bytes generalizing s with
  | nil => rfl
  | cons byte bytes ih => rw [pushWrites, List.length_cons, ih, List.length_cons]

/-- The accesses that stack a frame. Its image is written from the top down. -/
def Frame.accesses (entire : Bool) (r : RegisterFile) : List Access :=
  .idle :: pushWrites r.s (Frame.image entire r).reverse

theorem Frame.length_accesses (entire : Bool) (r : RegisterFile) :
    (Frame.accesses entire r).length = 1 + Frame.size entire := by
  rw [accesses, List.length_cons, length_pushWrites, List.length_reverse, length_image,
    Nat.add_comm]

/-- An access that stores a byte. -/
def Access.isWrite : Access → Bool
  | .write _ _ => true
  | .read _ => false

/-- Every byte of a frame is one write. -/
theorem Frame.countP_accesses (entire : Bool) (r : RegisterFile) :
    (Frame.accesses entire r).countP Access.isWrite = Frame.size entire := by
  have all : ∀ access ∈ pushWrites r.s (image entire r).reverse, access.isWrite = true := by
    generalize r.s = s
    induction (image entire r).reverse generalizing s with
    | nil => exact nofun
    | cons byte bytes ih =>
      intro access mem
      rcases List.mem_cons.1 mem with rfl | mem
      · rfl
      · exact ih (s - 1) access mem
  rw [accesses, List.countP_cons_of_neg (by decide), List.countP_eq_length.2 all, length_pushWrites,
    List.length_reverse, length_image]

/-- The accesses of a hardware interrupt up to its dispatch. The two reads at PC are the
fetch that is given up. -/
def HardwareInterrupt.entry (interrupt : HardwareInterrupt) (r : RegisterFile) : List Access :=
  [.read r.pc, .read r.pc] ++ Frame.accesses interrupt.stacksEntire r

/-! ## Step by step -/

namespace Frame

/-- The steps that stacking is made of. -/
def framing : MicroOp → Bool
  | .cycle .peekPc | .cycle .dummy | .cycle (.push .s _) | .action (.markEntire _) => true
  | _ => false

/-- What such a step adds to the accesses and does to the registers. -/
def follow (sight : List Access × RegisterFile) : MicroOp → List Access × RegisterFile
  | .cycle .peekPc => (sight.1 ++ [.read sight.2.pc], sight.2)
  | .cycle .dummy => (sight.1 ++ [.idle], sight.2)
  | .cycle (.push .s part) =>
    (sight.1 ++ [.write (sight.2.grow .s).s ((sight.2.grow .s).part part)], sight.2.grow .s)
  | .action (.markEntire entire) =>
    (sight.1, { sight.2 with cc := { sight.2.cc with entire := entire } })
  | _ => sight

theorem prefix_follow (sight : List Access × RegisterFile) (op : MicroOp) :
    sight.1 <+: (follow sight op).1 := by
  unfold follow
  split
  all_goals first
    | exact List.prefix_refl _
    | exact List.prefix_append _ _

/-- Accesses are only added. -/
theorem prefix_foldl_follow (ops : List MicroOp) (sight : List Access × RegisterFile) :
    sight.1 <+: (ops.foldl follow sight).1 := by
  induction ops generalizing sight with
  | nil => exact List.prefix_refl _
  | cons op ops ih => exact (prefix_follow sight op).trans (ih (follow sight op))

/-- Pushes write their bytes below the stack pointer. -/
theorem follow_pushes {parts : List Part} (off : ∀ part ∈ parts, part.OffStack)
    (done : List Access) (r : RegisterFile) :
    (parts.map fun part => .cycle (.push .s part)).foldl follow (done, r) =
      (done ++ pushWrites r.s (parts.map r.part),
        { r with s := r.s - UInt16.ofNat parts.length }) := by
  induction parts generalizing done r with
  | nil =>
    have still : r.s - UInt16.ofNat 0 = r.s := UInt16.sub_zero _
    simp [pushWrites]
  | cons part parts ih =>
    have head := off part List.mem_cons_self
    have rest := fun other mem => off other (List.mem_cons_of_mem part mem)
    have further : r.s - 1 - UInt16.ofNat parts.length = r.s - UInt16.ofNat (parts.length + 1) := by
      rw [UInt16.ofNat_add, Word.sub_sub, UInt16.add_comm]
      rfl
    have pushed : follow (done, r) (.cycle (.push .s part)) =
        (done ++ [.write (r.s - 1) (r.part part)], { r with s := r.s - 1 }) := by
      rw [← head.part r (r.s - 1)]
      rfl
    have same : parts.map ({ r with s := r.s - 1 } : RegisterFile).part = parts.map r.part :=
      List.map_congr_left fun other mem => (rest other mem).part r (r.s - 1)
    rw [List.map_cons, List.foldl_cons, pushed, ih rest, same, List.append_assoc, List.map_cons,
      List.length_cons]
    dsimp only
    rw [further]
    rfl

/-- The steps of a frame make its accesses, and leave it stacked. -/
theorem follow_program (entire : Bool) (done : List Access) (r : RegisterFile) :
    (program entire).foldl follow (done, r) = (done ++ accesses entire r, stacked entire r) := by
  have off : ∀ part ∈ pushes entire, part.OffStack := by
    cases entire <;> decide
  have length : (pushes entire).length = size entire := by
    cases entire <;> rfl
  have bytes : (pushes entire).map
      ({ r with cc := { r.cc with entire := entire } } : RegisterFile).part =
        (image entire r).reverse := by
    rw [← pushes_reverse, List.reverse_reverse]
  rw [program_eq, List.foldl_cons, List.foldl_cons]
  change ((pushes entire).map _).foldl follow
    (done ++ [.idle], { r with cc := { r.cc with entire := entire } }) = _
  rw [follow_pushes off, bytes, length, List.append_assoc]
  rfl

theorem framing_program (entire : Bool) : ∀ op ∈ program entire, framing op = true := by
  cases entire <;> decide

end Frame

/-! ## Entries -/

/-- A frame is being stacked: `done` are the accesses made so far, `whole` is all of
them, and `goal` the registers they leave. Dispatch comes next, or CWAI leads to it. -/
inductive Stacking (whole : List Access) (goal : RegisterFile) (done : List Access)
    (c : Processor) : Prop
  | steps {ops back : List MicroOp} (pending : c.schedule.pending = ops ++ back)
      (framing : ∀ op ∈ ops, Frame.framing op = true)
      (leads : ops.foldl Frame.follow (done, c.regs) = (whole, goal))
      (onward : back = [] ∧ c.phase = .dispatch ∨ back = [.action (.enter .dispatch)])

/-- The frame is stacked, and no interrupt was left to serve. -/
structure Waiting (whole : List Access) (goal : RegisterFile) (done : List Access)
    (c : Processor) : Prop where
  dry : c.schedule.pending = []
  phase : c.phase = .cwaiWait
  regs : c.regs = goal
  idle : ∃ n, done = whole ++ List.replicate n .idle

/-- An interrupt is served here, with its frame stacked. -/
structure Occurrence.Serves (o : Occurrence) (interrupt : HardwareInterrupt) : Prop where
  dry : o.before.schedule.pending = []
  phase : o.before.phase = .dispatch ∨ o.before.phase = .cwaiWait
  recognised :
    HardwareInterrupt.recognised o.before.inputs.active o.before.regs.cc = some interrupt
  event : o.event = .move (o.before.serving interrupt)

/-- Serving an interrupt takes its vector. -/
theorem Occurrence.Serves.takes {o : Occurrence} {interrupt : HardwareInterrupt}
    (serves : o.Serves interrupt) : o.Takes interrupt.vector := by
  have reported :
      .notice (.vectorTaken interrupt.vector _) ∈ (o.before.serving interrupt).reports :=
    List.mem_cons_self
  exact ⟨_, by rw [Occurrence.reports, serves.event]; exact reported⟩

/-- And no other one. -/
theorem Occurrence.Serves.vector_eq {o : Occurrence} {interrupt : HardwareInterrupt}
    (serves : o.Serves interrupt) {which : InterruptVector} (takes : o.Takes which) :
    which = interrupt.vector := by
  obtain ⟨pc, mem⟩ := takes
  rw [Occurrence.reports, serves.event] at mem
  cases List.mem_singleton.1 mem
  rfl

/-- No vector is taken. -/
def Occurrence.Quiet (o : Occurrence) : Prop := ∀ which, ¬o.Takes which

variable {whole : List Access} {goal : RegisterFile} {done : List Access} {c d : Processor}
  {allowed : HostCall → Prop} {event : Event}

theorem accesses_of_access (c : Processor) (byte : Byte) :
    accesses [⟨c, .access byte⟩] = [c.access] := rfl

namespace Stacking

theorem isPrefix (h : Stacking whole goal done c) : done <+: whole := by
  obtain @⟨ops, _, _, _, leads, _⟩ := h
  have grown := Frame.prefix_foldl_follow ops (done, c.regs)
  rw [leads] at grown
  exact grown

/-- With nothing pending the frame is complete. -/
theorem complete (h : Stacking whole goal done c) (dry : c.schedule.pending = []) :
    c.phase = .dispatch ∧ done = whole ∧ c.regs = goal := by
  obtain ⟨same, _, leads, onward⟩ := h
  rw [dry] at same
  obtain ⟨rfl, rfl⟩ := List.append_eq_nil_iff.1 same.symm
  cases leads
  rcases onward with ⟨_, phase⟩ | enter
  · exact ⟨phase, rfl, rfl⟩
  · cases enter

/-- What is next is a step of the frame, or leads to its dispatch. -/
theorem head (h : Stacking whole goal done c) {op : MicroOp} {rest : List MicroOp}
    (pending : c.schedule.pending = op :: rest) :
    Frame.framing op = true ∨ op = .action (.enter .dispatch) := by
  obtain @⟨ops, back, same, framing, _, onward⟩ := h
  rw [same] at pending
  cases ops with
  | cons first more =>
    cases pending
    exact Or.inl (framing op List.mem_cons_self)
  | nil =>
    rcases onward with ⟨rfl, _⟩ | rfl
    · cases pending
    · cases pending
      exact Or.inr rfl

theorem due_ne_fetchOpcode (h : Stacking whole goal done c) (consistent : c.schedule.Consistent) :
    c.due? ≠ some .fetchOpcode := by
  intro due
  obtain ⟨rest, pending⟩ := (Processor.due?_eq_some_iff consistent).1 due
  rcases h.head pending with framing | enter
  · cases framing
  · cases enter

/-- A bus cycle takes the frame one step on. -/
theorem carryOut (h : Stacking whole goal done c) (consistent : c.schedule.Consistent)
    {cycle : BusCycle} (due : c.due? = some cycle) (byte : Byte) :
    Stacking whole goal (done ++ [c.access]) (c.carryOut cycle byte) := by
  obtain ⟨rest, next⟩ := (Processor.due?_eq_some_iff consistent).1 due
  have access : c.access = cycle.access c := by rw [Processor.access, due]
  have used : c.schedule.advance.pending = rest := by
    rw [Schedule.pending_advance consistent, next, List.tail_cons]
  obtain @⟨ops, back, same, framing, leads, onward⟩ := h
  rw [same] at next
  cases ops with
  | nil => rcases onward with ⟨rfl, _⟩ | rfl <;> cases next
  | cons first more =>
    cases next
    have kind := framing _ List.mem_cons_self
    have others := fun op mem => framing op (List.mem_cons_of_mem _ mem)
    rw [access]
    cases cycle with
    | peekPc => exact .steps used others leads onward
    | dummy => exact .steps used others leads onward
    | push stack part =>
      cases stack with
      | s => exact .steps used others leads onward
      | u => cases kind
    | _ => cases kind

/-- So does an action; the last one of CWAI leads to its dispatch. -/
theorem act (h : Stacking whole goal done c) (consistent : c.schedule.Consistent)
    {action : Action} {rest : List MicroOp}
    (next : c.schedule.pending = .action action :: rest) :
    Stacking whole goal done ({ c with schedule := c.schedule.advance }.act action).landed := by
  have used : c.schedule.advance.pending = rest := by
    rw [Schedule.pending_advance consistent, next, List.tail_cons]
  obtain @⟨ops, back, same, framing, leads, onward⟩ := h
  rw [same] at next
  cases ops with
  | nil =>
    rcases onward with ⟨rfl, _⟩ | rfl
    · cases next
    · cases next
      exact @Stacking.steps _ _ _ _ [] [] used framing leads (Or.inl ⟨rfl, rfl⟩)
  | cons first more =>
    cases next
    have kind := framing _ List.mem_cons_self
    have others := fun op mem => framing op (List.mem_cons_of_mem _ mem)
    cases action with
    | markEntire entire => exact .steps used others leads onward
    | _ => cases kind

end Stacking

/-- What can happen while a frame is stacked: it goes on, or it is complete, and then
whatever is recognised is served, or the wait begins. -/
inductive StackingNext (whole : List Access) (goal : RegisterFile) (done : List Access)
    (c : Processor) (event : Event) (d : Processor) : Prop
  | stacking (on : Stacking whole goal (done ++ accesses [⟨c, event⟩]) d)
      (quiet : (⟨c, event⟩ : Occurrence).Quiet)
  | served {interrupt : HardwareInterrupt} (serves : (⟨c, event⟩ : Occurrence).Serves interrupt)
      (complete : done = whole) (regs : c.regs = goal) (phase : c.phase = .dispatch)
  | waiting (regs : c.regs = goal)
      (unasked : HardwareInterrupt.recognised c.inputs.active c.regs.cc = none)
      (on : Waiting whole goal (done ++ accesses [⟨c, event⟩]) d)
      (quiet : (⟨c, event⟩ : Occurrence).Quiet)

/-- A call that drives the lines. -/
def Event.CallsOnlyDrive (event : Event) : Prop :=
  ∀ call, event = .call call → ∃ levels, call = .drive levels

theorem Path.callsOnlyDrive {past : List Occurrence} (path : Path linesOnly c past d) :
    ∀ o ∈ past, o.event.CallsOnlyDrive := by
  induction path with
  | here => exact fun _ mem => nomatch mem
  | on _ occurs ih =>
    refine List.forall_mem_append.2 ⟨ih, List.forall_mem_singleton.2 ?_⟩
    rintro call rfl
    cases occurs with
    | call allow =>
      cases call with
      | drive levels => exact ⟨levels, rfl⟩
      | reset | setPc _ | registers _ => exact allow.elim

/-- Only the serving of an interrupt or the action of an instruction takes a vector. -/
theorem Occurs.quiet (occurs : Occurs allowed c event d) (consistent : c.schedule.Consistent)
    (plain : ∀ which rest, c.schedule.pending ≠ .action (.vector which) :: rest)
    (unserved : c.schedule.pending = [] → ∀ interrupt, event ≠ .move (c.serving interrupt)) :
    (⟨c, event⟩ : Occurrence).Quiet := by
  intro which takes
  rcases occurs.takes consistent takes with ⟨rest, pending⟩ | ⟨interrupt, _, dry, _, _, same, _⟩
  · exact plain which rest pending
  · exact unserved dry interrupt same

/-- Everything that can happen while a frame is stacked. -/
inductive StackingStep (c : Processor) : Event → Processor → Prop
  | drive (levels : Levels) : StackingStep c (.call (.drive levels)) (c.withLevels levels)
  | access {cycle : BusCycle} (due : c.due? = some cycle)
      (framing : Frame.framing (.cycle cycle) = true) (byte : Byte) :
      StackingStep c (.access byte) (c.carryOut cycle byte)
  | act {action : Action} {rest : List MicroOp}
      (pending : c.schedule.pending = .action action :: rest)
      (kind : Frame.framing (.action action) = true ∨ action = .enter .dispatch) :
      StackingStep c (.move ({ c with schedule := c.schedule.advance }.act action))
        ({ c with schedule := c.schedule.advance }.act action).landed
  | served {interrupt : HardwareInterrupt}
      (serves : (⟨c, .move (c.serving interrupt)⟩ : Occurrence).Serves interrupt) :
      StackingStep c (.move (c.serving interrupt)) (c.serving interrupt).landed
  | unserved (dry : c.schedule.pending = [])
      (unasked : HardwareInterrupt.recognised c.inputs.active c.regs.cc = none) :
      StackingStep c (.move { next := { c with phase := .cwaiWait } })
        (Move.landed { next := { c with phase := .cwaiWait } })

namespace Stacking

theorem step (h : Stacking whole goal done c) (consistent : c.schedule.Consistent)
    (occurs : Occurs allowed c event d) (drives : event.CallsOnlyDrive) :
    StackingStep c event d := by
  cases event with
  | call call =>
    obtain ⟨levels, rfl⟩ := drives call rfl
    cases occurs
    exact .drive levels
  | announce =>
    cases occurs with
    | announce asks =>
      exact absurd (Processor.due?_of_asksFirst asks) (h.due_ne_fetchOpcode consistent)
  | access byte =>
    cases occurs with
    | cycle _ due _ =>
      obtain ⟨rest, next⟩ := (Processor.due?_eq_some_iff consistent).1 due
      rcases h.head next with framing | enter
      · exact .access due framing byte
      · cases enter
    | idle _ still _ idle =>
      -- A frame never waits: a step is next, or dispatch.
      have dry := Processor.pending_of_idle consistent still idle
      rw [Processor.move?_of_dispatch consistent dry (h.complete dry).1] at still
      cases still
  | move m =>
    obtain ⟨happens, rfl⟩ := occurs.moveHappens consistent
    cases happens with
    | act pending =>
      refine .act pending ?_
      rcases h.head pending with framing | enter
      · exact Or.inl framing
      · exact Or.inr (MicroOp.action.inj enter)
    | wake dry phase _ _ =>
      rw [(h.complete dry).1] at phase
      cases phase
    | phase dry goes =>
      have dispatch := (h.complete dry).1
      cases goes with
      | served phase recognised => exact .served ⟨dry, Or.inl phase, recognised, rfl⟩
      | unserved _ unasked => exact .unserved dry unasked
      | reset phase | release phase _ | boundary phase _ | asked phase _ | unasked phase _
      | retire phase =>
        rw [dispatch] at phase
        cases phase

theorem occurs (h : Stacking whole goal done c) (consistent : c.schedule.Consistent)
    (occurs : Occurs allowed c event d) (drives : event.CallsOnlyDrive) :
    StackingNext whole goal done c event d := by
  have plain : ∀ which rest, c.schedule.pending ≠ .action (.vector which) :: rest := by
    intro which rest pending
    rcases h.head pending with framing | enter
    · cases framing
    · cases enter
  have quiet := occurs.quiet consistent plain
  have none : done ++ [] = done := List.append_nil done
  cases h.step consistent occurs drives with
  | drive levels =>
    refine .stacking ?_ (quiet fun _ _ same => nomatch same)
    rw [show accesses [⟨c, .call (.drive levels)⟩] = [] from rfl, none]
    obtain ⟨pending, framing, leads, onward⟩ := h
    exact .steps pending framing leads onward
  | access due _ byte =>
    exact .stacking (h.carryOut consistent due byte) (quiet fun _ _ same => nomatch same)
  | act pending _ =>
    refine .stacking ?_ (quiet fun dry => absurd dry (by rw [pending]; exact nofun))
    rw [show ∀ m, accesses [⟨c, .move m⟩] = [] from fun _ => rfl, none]
    exact h.act consistent pending
  | served serves =>
    obtain ⟨phase, complete, regs⟩ := h.complete serves.dry
    exact .served serves complete regs phase
  | unserved dry unasked =>
    obtain ⟨phase, complete, regs⟩ := h.complete dry
    refine .waiting regs unasked ⟨dry, rfl, regs, 0, ?_⟩ (fun _ ⟨_, mem⟩ => nomatch mem)
    rw [show ∀ m, accesses [⟨c, .move m⟩] = [] from fun _ => rfl, none, complete]
    exact (List.append_nil whole).symm

/-- The inputs move on with each access, and otherwise are only driven. -/
theorem inputs (h : Stacking whole goal done c) (consistent : c.schedule.Consistent)
    (occurs : Occurs allowed c event d) (drives : event.CallsOnlyDrive)
    (quiet : (⟨c, event⟩ : Occurrence).Quiet) :
    d.inputs = c.inputs ∨
      (∃ levels, event = .call (.drive levels) ∧ d.inputs = { c.inputs with live := levels }) ∨
      ∃ byte, event = .access byte ∧ d.inputs = c.inputs.cycle := by
  cases h.step consistent occurs drives with
  | drive levels => exact Or.inr (Or.inl ⟨levels, rfl, rfl⟩)
  | @access cycle due framing byte =>
    refine Or.inr (Or.inr ⟨byte, rfl, ?_⟩)
    cases cycle with
    | peekPc | dummy | push _ _ => rfl
    | _ => cases framing
  | @act action _ _ kind =>
    refine Or.inl ?_
    rcases kind with framing | rfl
    · cases action with
      | markEntire _ => rfl
      | _ => cases framing
    · rfl
  | served serves => exact absurd serves.takes (quiet _)
  | unserved _ _ => exact Or.inl rfl

end Stacking

/-- A wait goes on, or an interrupt is served. -/
theorem Waiting.occurs (h : Waiting whole goal done c) (consistent : c.schedule.Consistent)
    (occurs : Occurs allowed c event d) (drives : event.CallsOnlyDrive) :
    Waiting whole goal (done ++ accesses [⟨c, event⟩]) d ∧ (⟨c, event⟩ : Occurrence).Quiet ∨
      ∃ interrupt, (⟨c, event⟩ : Occurrence).Serves interrupt := by
  have none : done ++ [] = done := List.append_nil done
  have due : c.due? = Option.none := Processor.due?_of_dry consistent h.dry
  cases event with
  | call call =>
    obtain ⟨levels, rfl⟩ := drives call rfl
    cases occurs
    refine Or.inl ⟨?_, fun which ⟨_, mem⟩ => nomatch mem⟩
    rw [show accesses [⟨c, .call (.drive levels)⟩] = [] from rfl, none]
    exact ⟨h.dry, h.phase, h.regs, h.idle⟩
  | announce =>
    cases occurs with
    | announce asks =>
      rw [Processor.due?_of_asksFirst asks] at due
      cases due
  | access byte =>
    cases occurs with
    | cycle _ some _ =>
      rw [due] at some
      cases some
    | idle _ still asleep idle =>
      have clocked : c.idled = { state := c.clocked } := by
        rw [Processor.idled]
        simp only [Processor.clocked, h.phase]
      have access : c.access = .idle := by rw [Processor.access, due]
      obtain ⟨n, waited⟩ := h.idle
      refine Or.inl ⟨?_, ?_⟩
      · rw [clocked, accesses_of_access, access]
        refine ⟨h.dry, h.phase, h.regs, n + 1, ?_⟩
        rw [waited, List.append_assoc, List.replicate_succ']
      · rintro which ⟨_, mem⟩
        simp only [Occurrence.reports, due, if_true, clocked] at mem
        cases mem
  | move m =>
    obtain ⟨happens, rfl⟩ := occurs.moveHappens consistent
    cases happens with
    | act pending =>
      have dry := h.dry
      rw [pending] at dry
      cases dry
    | wake dry phase _ recognised =>
      exact Or.inr ⟨_, dry, Or.inr phase, recognised, rfl⟩
    | phase dry goes =>
      have waiting := h.phase
      cases goes with
      | reset phase | release phase _ | boundary phase _ | asked phase _ | unasked phase _
      | retire phase | served phase _ | unserved phase _ =>
        rw [phase] at waiting
        cases waiting

/-- Either way it goes on, or an interrupt is served, and then the frame is complete. -/
theorem Occurs.entering {later : List Occurrence} (occurs : Occurs allowed c event d)
    (consistent : c.schedule.Consistent) (drives : event.CallsOnlyDrive)
    (entering : Stacking whole goal (accesses later) c ∨ Waiting whole goal (accesses later) c) :
    (Stacking whole goal (accesses (later ++ [⟨c, event⟩])) d ∨
        Waiting whole goal (accesses (later ++ [⟨c, event⟩])) d) ∧
        (⟨c, event⟩ : Occurrence).Quiet ∨
      ∃ interrupt, (⟨c, event⟩ : Occurrence).Serves interrupt ∧ c.regs = goal ∧
        ∃ n, accesses later = whole ++ List.replicate n .idle := by
  rw [accesses_append]
  rcases entering with stacking | waiting
  · cases stacking.occurs consistent occurs drives with
    | stacking on quiet => exact Or.inl ⟨Or.inl on, quiet⟩
    | waiting _ _ on quiet => exact Or.inl ⟨Or.inr on, quiet⟩
    | served serves complete regs _ =>
      exact Or.inr ⟨_, serves, regs, 0, complete.trans (List.append_nil whole).symm⟩
  · rcases waiting.occurs consistent occurs drives with ⟨on, quiet⟩ | ⟨interrupt, serves⟩
    · exact Or.inl ⟨Or.inr on, quiet⟩
    · exact Or.inr ⟨interrupt, serves, waiting.regs, waiting.idle⟩

/-- While a frame is being stacked, or waits, no instruction takes a vector. -/
theorem Occurs.served_of_entering {which : InterruptVector} (occurs : Occurs allowed c event d)
    (orderly : Orderly c)
    (entering : Stacking whole goal done c ∨ Waiting whole goal done c)
    (takes : (⟨c, event⟩ : Occurrence).Takes which) :
    ∃ interrupt, which = interrupt.vector ∧ c.schedule.pending = [] ∧
      HardwareInterrupt.recognised c.inputs.active c.regs.cc = some interrupt := by
  rcases occurs.takes orderly.consistent takes with
    ⟨rest, pending⟩ | ⟨interrupt, vector, dry, _, recognised, _, _⟩
  · rcases entering with stacking | waiting
    · rcases stacking.head pending with framing | enter
      · cases framing
      · cases enter
    · have dry := waiting.dry
      rw [pending] at dry
      cases dry
  · exact ⟨interrupt, vector, dry, recognised⟩

/-! ## From the beginning of an entry -/

/-- What begins a frame. -/
theorem Occurs.eq_of_begins (occurs : Occurs allowed c event d) (consistent : c.schedule.Consistent)
    {interrupt : HardwareInterrupt} (begins : (⟨c, event⟩ : Occurrence).Begins interrupt) :
    d = Move.landed
      { next := { c with phase := .dispatch }
        queued := [.cycle .peekPc, .cycle .peekPc] ++ Frame.program interrupt.stacksEntire } := by
  obtain ⟨dry, phase, recognised, m, same⟩ := begins
  obtain rfl : event = .move m := same
  obtain ⟨happens, rfl⟩ := occurs.moveHappens consistent
  cases happens with
  | act pending =>
    rw [pending] at dry
    cases dry
  | wake _ waiting _ _ =>
    rw [phase] at waiting
    cases waiting
  | phase _ goes =>
    cases goes with
    | asked _ again =>
      rw [recognised] at again
      cases again
      rfl
    | unasked _ none =>
      rw [recognised] at none
      cases none
    | reset other | release other _ | boundary other _ | retire other | served other _
    | unserved other _ =>
      rw [phase] at other
      cases other

/-- A frame that is begun is being stacked from then on. -/
theorem Occurs.stacking_of_begins (occurs : Occurs allowed c event d) (h : Orderly c)
    {interrupt : HardwareInterrupt} (begins : (⟨c, event⟩ : Occurrence).Begins interrupt) :
    Stacking (interrupt.entry c.regs) (Frame.stacked interrupt.stacksEntire c.regs) [] d := by
  have fits := length_frame_le interrupt.stacksEntire
  have dry : c.schedule.pending = [] := begins.dry
  have room : ([MicroOp.cycle .peekPc, .cycle .peekPc] ++
      Frame.program interrupt.stacksEntire).length ≤ 32 := by
    rw [List.length_append]
    exact Nat.le_trans (Nat.add_le_add_left fits 2) (by decide)
  have begun := occurs.eq_of_begins h.consistent begins
  have pending : d.schedule.pending =
      [.cycle .peekPc, .cycle .peekPc] ++ Frame.program interrupt.stacksEntire := by
    rw [begun, Move.schedule_landed]
    exact Schedule.pending_extend_of_dry h.consistent dry _ room
  have regs : d.regs = c.regs := by rw [begun, Move.landed]
  have phase : d.phase = .dispatch := by rw [begun, Move.landed]
  refine .steps (pending.trans (List.append_nil _).symm) ?_ ?_ (Or.inl ⟨rfl, phase⟩)
  · intro op mem
    rcases List.mem_append.1 mem with peek | frame
    · exact (by decide : ∀ op ∈ [MicroOp.cycle .peekPc, .cycle .peekPc],
        Frame.framing op = true) op peek
    · exact Frame.framing_program _ op frame
  · rw [regs]
    exact Frame.follow_program interrupt.stacksEntire [.read c.regs.pc, .read c.regs.pc] c.regs

/-- How an entry stands after all that happened since it began. -/
inductive Entered (whole : List Access) (goal : RegisterFile) (later : List Occurrence)
    (e : Processor) : Prop
  | underWay
      (entering : Stacking whole goal (accesses later) e ∨ Waiting whole goal (accesses later) e)
      (quiet : ∀ o ∈ later, o.Quiet)
  | served {first rest : List Occurrence} {o : Occurrence} {interrupt : HardwareInterrupt}
      (split : later = first ++ o :: rest) (serves : o.Serves interrupt)
      (regs : o.before.regs = goal) (idle : ∃ n, accesses first = whole ++ List.replicate n .idle)
      (quiet : ∀ o ∈ first, o.Quiet)

/-- **An entry runs its course.** Whatever the lines do, the frame is stacked access by
access; then the processor idles, if at all, until an interrupt is served. -/
theorem Path.entered {later : List Occurrence} {e : Processor} (path : Path allowed d later e)
    (drives : ∀ o ∈ later, o.event.CallsOnlyDrive) (consistent : d.schedule.Consistent)
    (start : Stacking whole goal [] d) : Entered whole goal later e := by
  induction path with
  | here => exact .underWay (Or.inl start) fun _ mem => nomatch mem
  | @on later e f event before occurs ih =>
    have here := before.consistent consistent
    have calls := drives _ (List.mem_append_right later List.mem_cons_self)
    cases ih fun o mem => drives o (List.mem_append_left _ mem) with
    | @served first rest o _ split serves regs idle quiet =>
      have longer : later ++ [⟨e, event⟩] = first ++ o :: (rest ++ [⟨e, event⟩]) := by
        rw [split, List.append_assoc]
        rfl
      exact .served longer serves regs idle quiet
    | underWay entering quiet =>
      rcases occurs.entering here calls entering with ⟨on, last⟩ | ⟨interrupt, serves, regs, idle⟩
      · exact .underWay on (List.forall_mem_append.2 ⟨quiet, List.forall_mem_singleton.2 last⟩)
      · exact .served rfl serves regs idle quiet

end Sim6809
