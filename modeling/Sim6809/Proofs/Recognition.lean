/-
Recognition: which interrupt is served, and when.

The lines are looked at twice, between two instructions and again once a frame is
stacked, and in between the inputs move on. What can be said of the two answers together
rests on what the inputs allow. An NMI that was recognised stays (`Path.entered_for` with
the latch), and so does every answer while the lines are steady; otherwise the second
answer stands on its own.

No path leads past the first look: an opcode fetch is only queued where nothing was
recognised, and until it is made nothing changes that the look depends on
(`FetchesUnasked`).
-/
import Sim6809.Proofs.NonMaskable
import Sim6809.Proofs.Vectoring

set_option autoImplicit false

namespace Sim6809

/-- The lines are driven, or a reset is asked for. -/
def linesAndReset : HostCall → Prop
  | .drive _ | .reset => True
  | _ => False

variable {c d : Processor} {allowed : HostCall → Prop} {event : Event}

/-! ## Before an opcode fetch -/

/-- The first opcode byte of an instruction is fetched only if no interrupt is
recognised. -/
def FetchesUnasked (c : Processor) : Prop :=
  .cycle .fetchOpcode ∈ c.schedule.pending → c.page = 0 →
    HardwareInterrupt.recognised c.inputs.active c.regs.cc = none

theorem FetchesUnasked.occurs (h : FetchesUnasked c) (orderly : Orderly c) (sourced : Sourced c)
    (occurs : Occurs linesAndReset c event d) : FetchesUnasked d := by
  intro fetch page
  cases occurs.beforeFetch orderly sourced fetch page with
  | announced pending clear =>
    rw [Processor.announce_eq]
    exact h pending clear
  | driven pending clear levels => exact h pending clear
  | unasked _ _ unasked => exact unasked
  | written _ _ _ | jump _ =>
    cases occurs with
    | call allow => exact allow.elim

/-- In a run, the look between two instructions is never passed by. -/
theorem Path.fetchesUnasked {past : List Occurrence} (path : History linesAndReset past c) :
    FetchesUnasked c :=
  (path.preserves (P := fun c => (Orderly c ∧ Sourced c) ∧ FetchesUnasked c)
    (fun ⟨⟨orderly, sourced⟩, kept⟩ occurs =>
      ⟨⟨occurs.orderly orderly, sourced.occurs orderly occurs⟩,
        kept.occurs orderly sourced occurs⟩)
    ⟨⟨Processor.orderly_powerOn, sourced_powerOn⟩, nofun⟩).2

/-! ## The interrupt whose frame is stacked -/

/-- If the inputs can only mean one interrupt, it is served as soon as its frame is
complete. -/
theorem Path.entered_for {Q : Inputs → Prop} {whole : List Access} {goal : RegisterFile}
    {interrupt : HardwareInterrupt} {later : List Occurrence} {e : Processor}
    (path : Path allowed d later e) (drives : ∀ o ∈ later, o.event.CallsOnlyDrive)
    (consistent : d.schedule.Consistent) (start : Stacking whole goal [] d) (holds : Q d.inputs)
    (certain : ∀ i, Q i → HardwareInterrupt.recognised i.active goal.cc = some interrupt)
    (driven : ∀ o ∈ later, ∀ levels, o.event = .call (.drive levels) →
      Q o.before.inputs → Q { o.before.inputs with live := levels })
    (sampled : ∀ o ∈ later, ∀ byte, o.event = .access byte →
      Q o.before.inputs → Q o.before.inputs.cycle) :
    (Stacking whole goal (accesses later) e ∧ Q e.inputs ∧ ∀ o ∈ later, o.Quiet) ∨
      ∃ first o rest, later = first ++ o :: rest ∧ o.Serves interrupt ∧ o.before.regs = goal ∧
        accesses first = whole ∧ ∀ o ∈ first, o.Quiet := by
  induction path with
  | here => exact Or.inl ⟨start, holds, fun _ mem => nomatch mem⟩
  | @on later e f event before occurs ih =>
    have here := before.consistent consistent
    have mem : (⟨e, event⟩ : Occurrence) ∈ later ++ [⟨e, event⟩] :=
      List.mem_append_right later List.mem_cons_self
    have earlier := fun o (mem : o ∈ later) => List.mem_append_left [(⟨e, event⟩ : Occurrence)] mem
    rcases ih (fun o mem => drives o (earlier o mem)) (fun o mem => driven o (earlier o mem))
        (fun o mem => sampled o (earlier o mem)) with
      ⟨stacking, holds, quiet⟩ | ⟨first, o, rest, split, served⟩
    · cases stacking.occurs here occurs (drives _ mem) with
      | stacking on last =>
        rw [← accesses_append] at on
        refine Or.inl ⟨on, ?_, List.forall_mem_append.2 ⟨quiet, List.forall_mem_singleton.2 last⟩⟩
        rcases stacking.inputs here occurs (drives _ mem) last with
          same | ⟨levels, call, same⟩ | ⟨byte, access, same⟩
        · rw [same]
          exact holds
        · rw [same]
          exact driven _ mem levels call holds
        · rw [same]
          exact sampled _ mem byte access holds
      | waiting regs unasked _ _ =>
        rw [regs, certain e.inputs holds] at unasked
        cases unasked
      | served serves complete regs _ =>
        have recognised := serves.recognised
        rw [show (⟨e, event⟩ : Occurrence).before = e from rfl, regs,
          certain e.inputs holds] at recognised
        cases recognised
        exact Or.inr ⟨later, _, [], rfl, serves, regs, complete, quiet⟩
    · refine Or.inr ⟨first, o, rest ++ [⟨e, event⟩], ?_, served⟩
      rw [split, List.append_assoc]
      rfl

/-! ## The second look -/

/-- The interrupt is eligible, and none that ranks before it is. -/
def HardwareInterrupt.Prevails (interrupt : HardwareInterrupt) (c : Processor) : Prop :=
  eligible c.inputs.active c.regs.cc interrupt = true ∧
    ∀ other, other.rank < interrupt.rank → eligible c.inputs.active c.regs.cc other = false

theorem HardwareInterrupt.prevails_iff {interrupt : HardwareInterrupt} :
    interrupt.Prevails c ↔ recognised c.inputs.active c.regs.cc = some interrupt :=
  recognised_eq_some_iff.symm

theorem HardwareInterrupt.recognised_of_nmi {active : Levels} {cc : ConditionCodes}
    (nmi : active.nmi = true) : recognised active cc = some .nmi :=
  recognised_eq_some_iff.2 ⟨nmi, fun _ less => nomatch less⟩

/-- If any interrupt is eligible, one prevails. -/
theorem HardwareInterrupt.exists_prevails {other : HardwareInterrupt}
    (eligible : eligible c.inputs.active c.regs.cc other = true) :
    ∃ interrupt : HardwareInterrupt, interrupt.Prevails c := by
  cases recognised : HardwareInterrupt.recognised c.inputs.active c.regs.cc with
  | some interrupt => exact ⟨interrupt, prevails_iff.2 recognised⟩
  | none =>
    rw [recognised_eq_none_iff.1 recognised other] at eligible
    cases eligible

namespace Processor

/-- Interrupts are looked for between two instructions. -/
structure AtArbitration (c : Processor) : Prop where
  phase : c.phase = .arbitration
  dry : c.schedule.pending = []

/-- A frame is stacked, and the interrupt to serve is chosen. -/
structure AtDispatch (c : Processor) : Prop where
  phase : c.phase = .dispatch ∨ c.phase = .cwaiWait ∧ c.inputs.active.halt = false
  dry : c.schedule.pending = []

end Processor

/-- Interrupts are served at dispatch only. -/
theorem Occurs.atDispatch_of_takes (occurs : Occurs allowed c event d) (orderly : Orderly c)
    (sourced : Sourced c) {interrupt : HardwareInterrupt}
    (takes : (⟨c, event⟩ : Occurrence).Takes interrupt.vector) : c.AtDispatch := by
  rcases occurs.takes orderly.consistent takes with
    ⟨rest, pending⟩ | ⟨other, _, dry, phase, _, rfl, _⟩
  · exact absurd rfl
      (sourced.ne_hardware orderly (by rw [pending]; exact List.mem_cons_self) interrupt)
  · refine ⟨?_, dry⟩
    have happens := (occurs.moveHappens orderly.consistent).1
    generalize c.serving other = m at happens
    cases happens with
    | act pending =>
      rw [pending] at dry
      cases dry
    | wake _ phase free _ => exact Or.inr ⟨phase, free⟩
    | phase _ goes =>
      rcases phase with dispatch | wait
      · exact Or.inl dispatch
      · cases goes with
        | reset other | release other _ | boundary other _ | asked other _ | unasked other _
        | retire other | served other _ | unserved other _ =>
          rw [wait] at other
          cases other

/-- At dispatch the interrupt that prevails is served, whichever it is. -/
theorem Occurs.takes_iff_prevails (occurs : Occurs allowed c event d) (orderly : Orderly c)
    (at_ : c.AtDispatch) (work : ∀ call, event ≠ .call call) (which : InterruptVector) :
    (⟨c, event⟩ : Occurrence).Takes which ↔
      ∃ interrupt : HardwareInterrupt, interrupt.Prevails c ∧ which = interrupt.vector := by
  have dry := at_.dry
  constructor
  · intro takes
    rcases occurs.takes orderly.consistent takes with
      ⟨rest, pending⟩ | ⟨interrupt, vector, _, _, recognised, _⟩
    · rw [dry] at pending
      cases pending
    · exact ⟨interrupt, HardwareInterrupt.prevails_iff.2 recognised, vector⟩
  · rintro ⟨interrupt, prevails, rfl⟩
    have recognised := HardwareInterrupt.prevails_iff.1 prevails
    have serves : event = .move (c.serving interrupt) →
        (⟨c, event⟩ : Occurrence).Takes interrupt.vector := by
      intro same
      refine Occurrence.Serves.takes ⟨dry, ?_, recognised, same⟩
      exact at_.phase.imp_right And.left
    have served : c.serve? = some (c.serving interrupt) := by
      rw [Processor.serve?_eq_map, recognised]
      rfl
    have due := Processor.due?_of_dry orderly.consistent dry
    cases occurs with
    | @move m due' =>
      apply serves
      rcases at_.phase with dispatch | ⟨wait, _⟩
      · rw [Processor.move?_of_dispatch orderly.consistent dry dispatch, served] at due'
        cases due'
        rfl
      · rw [Processor.move?_of_dry orderly.consistent dry] at due'
        simp [Processor.phaseMove?, wait] at due'
    | wake due' =>
      obtain ⟨_, _, _, again⟩ := Processor.wake?_eq_some due'
      rw [served] at again
      cases again
      exact serves rfl
    | announce asks =>
      rw [Processor.due?_of_asksFirst asks] at due
      cases due
    | cycle _ some _ =>
      rw [some] at due
      cases due
    | idle _ still asleep _ =>
      exfalso
      rcases at_.phase with dispatch | ⟨wait, free⟩
      · rw [Processor.move?_of_dispatch orderly.consistent dry dispatch] at still
        cases still
      · rw [Processor.wake?_of_wait orderly.consistent dry wait free, served] at asleep
        cases asleep
    | call _ => exact absurd rfl (work _)

/-! ## From the first look to the handler -/

/-- The bus cycles from the first look to the handler's first instruction. -/
def HardwareInterrupt.cycles : HardwareInterrupt → Nat
  | nmi | irq => 19
  | firq => 10

theorem HardwareInterrupt.length_entry (interrupt : HardwareInterrupt) (r : RegisterFile) :
    (interrupt.entry r).length + 4 = interrupt.cycles := by
  rw [entry, List.length_append, Frame.length_accesses]
  cases interrupt <;> rfl

/-- All stages of FIRQ and IRQ have these levels, and both stages of the NMI latch. -/
structure Inputs.Agree (i : Inputs) (levels : Levels) : Prop where
  firq : i.live.firq = levels.firq ∧ i.latched.firq = levels.firq ∧ i.active.firq = levels.firq
  irq : i.live.irq = levels.irq ∧ i.latched.irq = levels.irq ∧ i.active.irq = levels.irq
  nmi : i.latched.nmi = levels.nmi ∧ i.active.nmi = levels.nmi

/-- They agree with what is acted on; FIRQ and IRQ stay as they are driven, and no edge on
NMI is sampled. -/
structure Steady (c : Processor) (later : List Occurrence) : Prop where
  agree : c.inputs.Agree c.inputs.active
  driven : ∀ o ∈ later, ∀ levels, o.event = .call (.drive levels) →
    levels.firq = c.inputs.active.firq ∧ levels.irq = c.inputs.active.irq
  edge : ∀ o ∈ later, ¬o.SeesEdge

/-- Without an edge, a bus cycle changes nothing of it. -/
theorem Inputs.Agree.sampled {o : Occurrence} {levels : Levels} {byte : Byte}
    (h : o.before.inputs.Agree levels) (access : o.event = .access byte) (edge : ¬o.SeesEdge) :
    o.before.inputs.cycle.Agree levels := by
  have flat : (o.before.inputs.live.nmi && !o.before.inputs.nmiPrevious &&
      o.before.inputs.nmiArmed) = false := by
    refine Bool.eq_false_iff.2 fun rises => edge ?_
    simp only [Bool.and_eq_true, Bool.not_eq_true'] at rises
    exact ⟨⟨byte, access⟩, rises.1.1, rises.1.2, rises.2⟩
  have latch : o.before.inputs.cycle.latched.nmi = o.before.inputs.latched.nmi :=
    (congrArg (o.before.inputs.latched.nmi || ·) flat).trans (Bool.or_false _)
  exact ⟨⟨h.firq.1, h.firq.1, h.firq.2.1⟩, ⟨h.irq.1, h.irq.1, h.irq.2.1⟩,
    ⟨latch.trans h.nmi.1, h.nmi.1⟩⟩

/-- What follows when an interrupt is recognised between two instructions. -/
structure HardwareInterrupt.Enters (interrupt : HardwareInterrupt) (c : Processor)
    (later : List Occurrence) (e : Processor) : Prop where
  /-- Its frame is stacked, access by access. -/
  framed : accesses later <+: interrupt.entry c.regs ∨ interrupt.entry c.regs <+: accesses later
  /-- No opcode is fetched before all of it is. -/
  first : ∀ front o back byte, later = front ++ o :: back → o.event = .access byte →
    o.before.due? = some .fetchOpcode → interrupt.entry c.regs <+: accesses front
  /-- If it is NMI, then the next vector is its own, and is taken at once. -/
  nmi : interrupt = .nmi →
    (∀ front o back which, later = front ++ o :: back → (∀ o ∈ front, o.Quiet) →
      o.Takes which → which = .nmi ∧ accesses front = interrupt.entry c.regs) ∧
    ((interrupt.entry c.regs).length < (accesses later).length → ∃ o ∈ later, o.Takes .nmi)
  /-- If the lines are steady, the same holds of any, and PC comes from its vector. -/
  steady : Steady c later → (accesses later).length = interrupt.cycles →
    ∃ stacked first high low last,
      transfers later = stacked ++ [⟨.idle, first⟩, ⟨.read interrupt.vector.address, high⟩,
        ⟨.read (interrupt.vector.address + 1), low⟩, ⟨.idle, last⟩] ∧
      stacked.map (·.access) = interrupt.entry c.regs ∧
      e.regs = { Frame.stacked interrupt.stacksEntire c.regs with
        cc := (Frame.stacked interrupt.stacksEntire c.regs).cc.raise interrupt.vector.mask
        pc := Word.ofBytes high low } ∧
      e.cycles.count = c.cycles.count + UInt64.ofNat interrupt.cycles ∧
      (∃ o ∈ later, o.Takes interrupt.vector) ∧
      ∀ o ∈ later, ∀ which, o.Takes which → which = interrupt.vector

namespace Entered

variable {whole : List Access} {goal : RegisterFile} {later : List Occurrence} {e : Processor}

theorem comparable (h : Entered whole goal later e) :
    accesses later <+: whole ∨ whole <+: accesses later := by
  cases h with
  | underWay entering _ =>
    rcases entering with stacking | waiting
    · exact Or.inl stacking.isPrefix
    · obtain ⟨n, idle⟩ := waiting.idle
      rw [idle]
      exact Or.inr (List.prefix_append _ _)
  | served split _ _ idle _ =>
    obtain ⟨n, idle⟩ := idle
    rw [split, accesses_append, idle, List.append_assoc]
    exact Or.inr (List.prefix_append _ _)

/-- An opcode fetch does not come next before the frame is complete. -/
theorem prefix_of_fetch (h : Entered whole goal later e) (consistent : e.schedule.Consistent)
    (due : e.due? = some .fetchOpcode) : whole <+: accesses later := by
  cases h with
  | underWay entering _ =>
    rcases entering with stacking | waiting
    · exact absurd due (stacking.due_ne_fetchOpcode consistent)
    · rw [Processor.due?_of_dry consistent waiting.dry] at due
      cases due
  | served split _ _ idle _ =>
    obtain ⟨n, idle⟩ := idle
    rw [split, accesses_append, idle, List.append_assoc]
    exact List.prefix_append _ _

end Entered

namespace Path

variable {interrupt : HardwareInterrupt} {later : List Occurrence} {e : Processor}
  {r : RegisterFile}

/-- An NMI that was recognised stays recognised. -/
theorem entered_nmi (path : Path linesOnly d later e) (consistent : d.schedule.Consistent)
    (start : Stacking (HardwareInterrupt.nmi.entry r) (Frame.stacked true r) [] d)
    (active : d.inputs.active.nmi = true) (latched : d.inputs.latched.nmi = true) :
    Stacking (HardwareInterrupt.nmi.entry r) (Frame.stacked true r) (accesses later) e ∧
        e.inputs.active.nmi = true ∨
      ∃ first o rest, later = first ++ o :: rest ∧ o.Serves .nmi := by
  have certain : ∀ i : Inputs, i.active.nmi = true ∧ i.latched.nmi = true →
      HardwareInterrupt.recognised i.active (Frame.stacked true r).cc = some .nmi := by
    rintro i ⟨active, _⟩
    exact HardwareInterrupt.recognised_of_nmi active
  rcases path.entered_for (Q := fun i => i.active.nmi = true ∧ i.latched.nmi = true)
      path.callsOnlyDrive consistent start ⟨active, latched⟩ certain
      (fun _ _ _ _ holds => holds)
      (fun _ _ _ _ holds => ⟨holds.2, Bool.or_eq_true_iff.2 (Or.inl holds.2)⟩) with
    ⟨stacking, ⟨active, _⟩, _⟩ | ⟨first, o, rest, split, serves, _⟩
  · exact Or.inl ⟨stacking, active⟩
  · exact Or.inr ⟨first, o, rest, split, serves⟩

/-- So the next vector is NMI's, right after the frame. -/
theorem enters_nmi (path : Path linesOnly d later e) (orderly : Orderly d)
    (start : Stacking (HardwareInterrupt.nmi.entry r) (Frame.stacked true r) [] d)
    (active : d.inputs.active.nmi = true) (latched : d.inputs.latched.nmi = true) :
    (∀ front o back which, later = front ++ o :: back → (∀ o ∈ front, o.Quiet) →
      o.Takes which → which = .nmi ∧ accesses front = HardwareInterrupt.nmi.entry r) ∧
    ((HardwareInterrupt.nmi.entry r).length < (accesses later).length →
      ∃ o ∈ later, o.Takes .nmi) := by
  refine ⟨?_, fun longer => ?_⟩
  · rintro front o back which rfl quiet takes
    obtain ⟨before, _, occurs, _⟩ := path.split
    have orderly' := before.orderly orderly
    rcases before.entered_nmi orderly.consistent start active latched with
      ⟨stacking, active⟩ | ⟨first, o', rest, split, serves⟩
    · obtain ⟨interrupt, vector, dry, recognised⟩ :=
        occurs.served_of_entering orderly' (Or.inl stacking) takes
      rw [HardwareInterrupt.recognised_of_nmi active] at recognised
      cases recognised
      exact ⟨vector, (stacking.complete dry).2.1⟩
    · exact absurd serves.takes (quiet o' (by rw [split]; simp) _)
  · rcases path.entered_nmi orderly.consistent start active latched with
      ⟨stacking, _⟩ | ⟨first, o, rest, split, serves⟩
    · exact absurd stacking.isPrefix.length_le (Nat.not_le.2 longer)
    · exact ⟨o, by rw [split]; simp, serves.takes⟩

/-- While the lines are steady, what was recognised stays recognised. -/
theorem entered_steady (path : Path linesOnly d later e) (consistent : d.schedule.Consistent)
    (start : Stacking (interrupt.entry c.regs) (Frame.stacked interrupt.stacksEntire c.regs) [] d)
    (inputs : d.inputs = c.inputs) (prevails : interrupt.Prevails c) (steady : Steady c later) :
    Stacking (interrupt.entry c.regs) (Frame.stacked interrupt.stacksEntire c.regs)
        (accesses later) e ∨
      ∃ first o rest, later = first ++ o :: rest ∧ o.Serves interrupt ∧
        o.before.regs = Frame.stacked interrupt.stacksEntire c.regs ∧
        accesses first = interrupt.entry c.regs ∧ ∀ o ∈ first, o.Quiet := by
  have certain : ∀ i : Inputs, i.Agree c.inputs.active →
      HardwareInterrupt.recognised i.active (Frame.stacked interrupt.stacksEntire c.regs).cc =
        some interrupt := by
    intro i agree
    rw [← HardwareInterrupt.prevails_iff.1 prevails]
    exact HardwareInterrupt.recognised_congr agree.nmi.2 agree.firq.2.2 agree.irq.2.2 rfl rfl
  have driven : ∀ o ∈ later, ∀ levels, o.event = .call (.drive levels) →
      o.before.inputs.Agree c.inputs.active →
        ({ o.before.inputs with live := levels } : Inputs).Agree c.inputs.active := by
    intro o mem levels drive agree
    obtain ⟨firq, irq⟩ := steady.driven o mem levels drive
    exact ⟨⟨firq, agree.firq.2⟩, ⟨irq, agree.irq.2⟩, agree.nmi⟩
  have agree : d.inputs.Agree c.inputs.active := by
    rw [inputs]
    exact steady.agree
  exact (path.entered_for path.callsOnlyDrive consistent start agree certain driven
    fun o mem byte access agree => agree.sampled access (steady.edge o mem)).imp_left And.left

/-- So it is served, and its handler entered, in a fixed number of cycles. -/
theorem enters_steady (path : Path linesOnly d later e) (orderly : Orderly d)
    (start : Stacking (interrupt.entry c.regs) (Frame.stacked interrupt.stacksEntire c.regs) [] d)
    (inputs : d.inputs = c.inputs) (count : d.cycles = c.cycles)
    (prevails : interrupt.Prevails c) (steady : Steady c later)
    (cycles : (accesses later).length = interrupt.cycles) :
    ∃ stacked first high low last,
      transfers later = stacked ++ [⟨.idle, first⟩, ⟨.read interrupt.vector.address, high⟩,
        ⟨.read (interrupt.vector.address + 1), low⟩, ⟨.idle, last⟩] ∧
      stacked.map (·.access) = interrupt.entry c.regs ∧
      e.regs = { Frame.stacked interrupt.stacksEntire c.regs with
        cc := (Frame.stacked interrupt.stacksEntire c.regs).cc.raise interrupt.vector.mask
        pc := Word.ofBytes high low } ∧
      e.cycles.count = c.cycles.count + UInt64.ofNat interrupt.cycles ∧
      (∃ o ∈ later, o.Takes interrupt.vector) ∧
      ∀ o ∈ later, ∀ which, o.Takes which → which = interrupt.vector := by
  have length := interrupt.length_entry c.regs
  have time := path.cycles
  rw [cycles, count] at time
  rcases path.entered_steady orderly.consistent start inputs prevails steady with
    stacking | ⟨front, o, rest, split, serves, regs, complete, quiet⟩
  · have le := stacking.isPrefix.length_le
    omega
  · have whole : transfers later = transfers front ++ transfers rest := by
      obtain ⟨before, event⟩ := o
      obtain rfl : event = .move (before.serving interrupt) := serves.event
      rw [split, transfers_append]
      rfl
    rw [split] at path
    obtain ⟨before, d', occurs, after⟩ := path.split
    have orderly' := before.orderly orderly
    have four : (transfers rest).length = 4 := by
      have counted := congrArg List.length complete
      rw [accesses, List.length_map] at counted cycles
      rw [whole, List.length_append] at cycles
      omega
    obtain ⟨vectoring, quiet'⟩ := after.vectoring after.callsOnlyDrive (occurs.orderly orderly')
      (occurs.vectoring_of_serves orderly' serves) (by
        rw [accesses, List.length_map]
        exact Nat.le_of_eq four)
    obtain ⟨first, high, low, last, fetched, handler⟩ := vectoring.of_length four
    refine ⟨transfers front, first, high, low, last, by rw [whole, fetched], complete, ?_, time,
      ?_, ?_⟩
    · rw [handler, regs]
    · exact ⟨o, by rw [split]; simp, serves.takes⟩
    · rw [split]
      intro o' mem which takes
      rcases List.mem_append.1 mem with mem | mem
      · exact absurd takes (quiet o' mem which)
      · rcases List.mem_cons.1 mem with rfl | mem
        · exact serves.vector_eq takes
        · exact absurd takes (quiet' o' mem which)

/-- What follows when an interrupt is recognised. -/
theorem enters (path : Path linesOnly d later e) (orderly : Orderly c) (gated : c.inputs.Gated)
    (occurs : Occurs allowed c event d) (begins : (⟨c, event⟩ : Occurrence).Begins interrupt) :
    interrupt.Enters c later e := by
  have orderly' := occurs.orderly orderly
  have start := occurs.stacking_of_begins orderly begins
  have begun := occurs.eq_of_begins orderly.consistent begins
  have inputs : d.inputs = c.inputs := by rw [begun, Move.landed]
  have count : d.cycles = c.cycles := by rw [begun, Move.landed]
  have prevails := HardwareInterrupt.prevails_iff.2 begins.recognised
  refine ⟨?_, ?_, ?_, path.enters_steady orderly' start inputs count prevails⟩
  · exact (path.entered path.callsOnlyDrive orderly'.consistent start).comparable
  · rintro front o back byte rfl _ due
    obtain ⟨before, _⟩ := path.split
    exact (before.entered before.callsOnlyDrive orderly'.consistent start).prefix_of_fetch
      (before.consistent orderly'.consistent) due
  · rintro rfl
    have active : c.inputs.active.nmi = true := prevails.1
    rw [← inputs] at active gated
    exact path.enters_nmi orderly' start active (gated.acted active)

end Path

/-- **Interrupts are recognised exactly, and by priority.** At every boundary between two
instructions no interrupt is eligible. Where interrupts are looked for and one is eligible,
the one that prevails is entered: its frame is stacked before any opcode is fetched; an
NMI is then served; and if the lines are steady so is any other, in 19 cycles or, with the
short frame, in 10. At dispatch the interrupt that prevails then is served, none if none
is eligible, and interrupts are served nowhere else. -/
theorem interrupts_recognised :
    (∀ c, Reachable linesAndReset c → c.atBoundary = true → ∀ interrupt,
      HardwareInterrupt.eligible c.inputs.active c.regs.cc interrupt = false) ∧
    ∀ past c event d, History linesAndReset past c → Occurs linesAndReset c event d →
      (c.AtArbitration → (∃ m, event = .move m) →
        (∀ other, HardwareInterrupt.eligible c.inputs.active c.regs.cc other = true →
          ∃ interrupt : HardwareInterrupt, interrupt.Prevails c) ∧
        ∀ interrupt : HardwareInterrupt, interrupt.Prevails c →
          ∀ later e, Path linesOnly d later e → interrupt.Enters c later e) ∧
      (c.AtDispatch → (∀ call, event ≠ .call call) → ∀ which,
        (⟨c, event⟩ : Occurrence).Takes which ↔
          ∃ interrupt : HardwareInterrupt, interrupt.Prevails c ∧ which = interrupt.vector) ∧
      ∀ interrupt : HardwareInterrupt, (⟨c, event⟩ : Occurrence).Takes interrupt.vector →
        c.AtDispatch := by
  refine ⟨?_, ?_⟩
  · intro c reachable boundary
    obtain ⟨past, path⟩ := reachable.history
    simp only [Processor.atBoundary, Bool.and_eq_true, beq_iff_eq] at boundary
    obtain ⟨⟨_, page⟩, current⟩ := boundary
    have consistent := (path.orderly Processor.orderly_powerOn).consistent
    rw [Schedule.current_eq_head? consistent] at current
    obtain ⟨rest, pending⟩ := List.head?_eq_some_iff.1 current
    have fetch : .cycle .fetchOpcode ∈ c.schedule.pending := by
      rw [pending]
      exact List.mem_cons_self
    exact HardwareInterrupt.recognised_eq_none_iff.1 (path.fetchesUnasked fetch page)
  · intro past c event d path occurs
    obtain ⟨orderly, sourced, gated⟩ := path.gates
    refine ⟨fun look work => ⟨fun _ => HardwareInterrupt.exists_prevails, ?_⟩,
      occurs.takes_iff_prevails orderly, fun _ => occurs.atDispatch_of_takes orderly sourced⟩
    intro interrupt prevails later e after
    have begins : (⟨c, event⟩ : Occurrence).Begins interrupt :=
      ⟨look.dry, look.phase, HardwareInterrupt.prevails_iff.1 prevails, work⟩
    exact after.enters orderly gated occurs begins

/-- The loop, and a handler of its own for IRQ. -/
def handledLoop : Ram := waitingLoop.overlay 0xFFF8 [0x20, 0x40]

/-- The processor runs into the loop; then IRQ is asserted, and it comes to look for
interrupts. -/
def calledInLoop : List Occurrence × Processor :=
  Processor.followDriven handledLoop 30 { Levels.low with irq := true } 10 .powerOn

/-- What it does from there. -/
def fromLoop (n : Nat) : List Occurrence × Processor :=
  (calledInLoop.2.next 0).2.follow handledLoop n

/-- It comes to the handler in nineteen cycles, by way of dispatch. The last four of them read the
handler's address from the vector. -/
theorem interrupts_recognised_irq :
    (∃ c, Reachable linesAndReset c ∧ c.atBoundary = true ∧
      HardwareInterrupt.eligible c.inputs.active c.regs.cc .irq = false) ∧
    (∃ past c event d later e, History linesAndReset past c ∧
      Occurs linesAndReset c event d ∧ c.AtArbitration ∧ HardwareInterrupt.irq.Prevails c ∧
      Path linesOnly d later e ∧ Steady c later ∧ (accesses later).length = 19 ∧
      (∃ stacked, transfers later = stacked ++ [⟨.idle, 0x00⟩, ⟨.read 0xFFF8, 0x20⟩,
        ⟨.read 0xFFF9, 0x40⟩, ⟨.idle, 0x00⟩]) ∧
      e.regs.pc = 0x2040) ∧
    ∃ past c event d, History linesAndReset past c ∧ Occurs linesAndReset c event d ∧
      c.AtDispatch ∧ (⟨c, event⟩ : Occurrence).Takes .irq := by
  have path : History linesAndReset calledInLoop.1 calledInLoop.2 :=
    Processor.path_followDriven handledLoop 30 trivial 10 .powerOn
  have begins := Processor.occurs_next linesAndReset calledInLoop.2 0
  refine ⟨?_, ?_, ?_⟩
  · have reachable : Reachable linesAndReset
        (Board.clocks .silent (List.replicate 16 .low) ⟨.powerOn, handledLoop, ()⟩).cpu :=
      .clocks .silent (fun _ => trivial) _ _ .powerOn
    have boundary : (Board.clocks .silent (List.replicate 16 .low)
        (⟨.powerOn, handledLoop, ()⟩ : Board Ram Unit)).cpu.atBoundary = true := by decide +kernel
    exact ⟨_, reachable, boundary, interrupts_recognised.1 _ reachable boundary .irq⟩
  · have look : calledInLoop.2.AtArbitration := ⟨by decide +kernel, by decide +kernel⟩
    have work : ∃ m, (calledInLoop.2.next 0).1 = .move m := by
      have some : calledInLoop.2.move?.isSome = true := by decide +kernel
      obtain ⟨m, due⟩ := Option.isSome_iff_exists.1 some
      exact ⟨m, by rw [Processor.next, due]⟩
    have prevails : HardwareInterrupt.irq.Prevails calledInLoop.2 :=
      HardwareInterrupt.prevails_iff.2 (by decide +kernel)
    have later : Path linesOnly (calledInLoop.2.next 0).2 (fromLoop 22).1 (fromLoop 22).2 :=
      Processor.path_follow linesOnly handledLoop 22 _
    have inputs : calledInLoop.2.inputs =
        ⟨{ Levels.low with irq := true }, { Levels.low with irq := true },
          { Levels.low with irq := true }, true, false⟩ := by decide +kernel
    have low : ∀ o ∈ (fromLoop 22).1, o.before.inputs.live.nmi = false := by decide +kernel
    have steady : Steady calledInLoop.2 (fromLoop 22).1 := by
      refine ⟨by rw [inputs]; exact ⟨⟨rfl, rfl, rfl⟩, ⟨rfl, rfl, rfl⟩, ⟨rfl, rfl⟩⟩, ?_, ?_⟩
      · exact fun o mem _ drive =>
          absurd drive (Processor.follow_ne_call handledLoop 22 _ o mem _)
      · intro o mem edge
        have high := edge.high
        rw [low o mem] at high
        cases high
    have cycles : (accesses (fromLoop 22).1).length = 19 := by decide +kernel
    have enters := (((interrupts_recognised.2 _ _ _ _ path begins).1 look work).2 .irq prevails _ _
      later).steady steady cycles
    obtain ⟨stacked, first, high, low, last, fetched, _, regs, _⟩ := enters
    have seen : transfers (fromLoop 22).1 = (transfers (fromLoop 22).1).take 15 ++
        [⟨.idle, 0x00⟩, ⟨.read 0xFFF8, 0x20⟩, ⟨.read 0xFFF9, 0x40⟩, ⟨.idle, 0x00⟩] := by
      decide +kernel
    have ends := List.append_inj_right' (fetched.symm.trans seen) rfl
    simp only [List.cons.injEq, Transfer.mk.injEq] at ends
    obtain ⟨⟨_, rfl⟩, ⟨_, rfl⟩, ⟨_, rfl⟩, ⟨_, rfl⟩, _⟩ := ends
    exact ⟨_, _, _, _, _, _, path, begins, look, prevails, later, steady, cycles, ⟨_, fetched⟩,
      by rw [regs]; rfl⟩
  · have later := Processor.path_follow linesAndReset handledLoop 16 (calledInLoop.2.next 0).2
    have whole := (Path.on path begins).trans later
    have serves := Processor.occurs_next linesAndReset (fromLoop 16).2 0
    have dispatch : (fromLoop 16).2.AtDispatch := ⟨Or.inl (by decide +kernel), by decide +kernel⟩
    have work := Processor.next_ne_call (fromLoop 16).2 0
    have prevails : HardwareInterrupt.irq.Prevails (fromLoop 16).2 :=
      HardwareInterrupt.prevails_iff.2 (by decide +kernel)
    have takes := ((interrupts_recognised.2 _ _ _ _ whole serves).2.1 dispatch work .irq).2
      ⟨.irq, prevails, rfl⟩
    exact ⟨_, _, _, _, whole, serves, dispatch, takes⟩

end Sim6809
