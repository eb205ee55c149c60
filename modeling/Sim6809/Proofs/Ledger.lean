/-
The ledger: opcodes fetched, instructions announced and instructions retired, compared all
along a run.

A processor stands in one of three places between these numbers (`Ledger`). It is about to
fetch an opcode, and the announcement may have gone ahead; or it executes, and the
retirement is still to come; or it is between two instructions, where all three are the
same, whatever interrupts are served there. `Ledger.occurs` is the balance of a single piece
of work.

What makes the second place work is that an instruction retires exactly once, either when
nothing of it is left or with the step that leaves the instruction stream, which is its
last one (`Sourced.rest_eq_nil`).
-/
import Sim6809.Proofs.Provenance
import Sim6809.Proofs.Scratch

set_option autoImplicit false

namespace Sim6809

/-! ## What is counted -/

/-- The byte selects an opcode page. -/
def Instruction.selectsPage (byte : Byte) : Bool := byte == 0x10 || byte == 0x11

theorem Instruction.selectsPage_iff (page : Byte) {byte : Byte} :
    selectsPage byte = true ↔ ∃ selected, (decode page byte).op = .selectPage selected := by
  simp only [← Operation.selects?_eq_some_iff, selects?_decode, selectsPage, Bool.or_eq_true,
    beq_iff_eq]
  constructor
  · rintro (rfl | rfl)
    · exact ⟨2, rfl⟩
    · exact ⟨3, rfl⟩
  · rintro ⟨selected, selects⟩
    split at selects
    · next first => exact Or.inl first
    · split at selects
      · next second => exact Or.inr second
      · cases selects

/-- The report of an instruction that retires. -/
def Report.isRetirement : Report → Bool
  | .retired _ => true
  | .notice _ => false

/-- How many instructions are reported to retire. -/
def retirements (reports : List Report) : Nat := reports.countP (·.isRetirement)

namespace Occurrence

/-- The opcodes fetched here. -/
def opcodes (o : Occurrence) : Nat :=
  match o.event with
  | .access byte =>
    (o.before.due? == some .fetchOpcode && !Instruction.selectsPage byte).toNat
  | _ => 0

/-- The announcements made here. -/
def announcements (o : Occurrence) : Nat :=
  match o.event with
  | .announce => 1
  | _ => 0

end Occurrence

variable {c d : Processor} {event : Event}

/-! ## Beyond the fetch -/

/-- No opcode fetch is pending or announced. -/
structure Fetched (c : Processor) : Prop where
  orderly : Orderly c
  sourced : Sourced c
  page : c.page = 0
  unannounced : c.announced = false
  fetch : .cycle .fetchOpcode ∉ c.schedule.pending

namespace Fetched

theorem due?_ne (h : Fetched c) : c.due? ≠ some .fetchOpcode := by
  intro due
  obtain ⟨rest, pending⟩ := (Processor.due?_eq_some_iff h.orderly.consistent).1 due
  have fetch := h.fetch
  rw [pending] at fetch
  exact fetch List.mem_cons_self

theorem not_announces {allowed : HostCall → Prop} (h : Fetched c) :
    ¬Occurs allowed c .announce d := by
  rintro (_ | _ | asks)
  exact h.due?_ne (Processor.due?_of_asksFirst asks)

/-- Nothing is announced, and no opcode is fetched. -/
theorem uncounted {allowed : HostCall → Prop} (h : Fetched c) (occurs : Occurs allowed c event d) :
    (⟨c, event⟩ : Occurrence).opcodes = 0 ∧ (⟨c, event⟩ : Occurrence).announcements = 0 := by
  cases event with
  | announce => exact absurd occurs h.not_announces
  | access byte =>
    have other := beq_eq_false_iff_ne.2 h.due?_ne
    refine ⟨?_, rfl⟩
    rw [Occurrence.opcodes, other]
    rfl
  | move m => exact ⟨rfl, rfl⟩
  | call call => exact ⟨rfl, rfl⟩

/-- Nothing but an opcode fetch touches what belongs to it. -/
theorem latches (h : Fetched c) (occurs : Occurs linesOnly c event d) :
    d.page = 0 ∧ d.announced = false := by
  have same : d.page = c.page → d.announced = c.announced → d.page = 0 ∧ d.announced = false :=
    fun page announced => ⟨page.trans h.page, announced.trans h.unannounced⟩
  cases event with
  | move m =>
    obtain ⟨happens, rfl⟩ := occurs.moveHappens h.orderly.consistent
    cases happens with
    | act pending =>
      refine same ?_ ?_ <;> rw [Move.landed, Processor.act_eq]
    | phase dry goes =>
      cases goes with
      | reset _ => exact ⟨rfl, rfl⟩
      | served _ _ => exact same (c.page_serving _) (c.announced_serving _)
      | _ => exact same rfl rfl
    | wake _ _ _ _ => exact same (c.page_serving _) (c.announced_serving _)
  | announce => exact absurd occurs h.not_announces
  | access byte =>
    cases occurs with
    | @cycle cycle _ due _ =>
      have other : cycle ≠ .fetchOpcode := by
        rintro rfl
        exact h.due?_ne due
      refine same ?_ ?_ <;>
        rw [Processor.carryOut, Move.landed, Processor.absorb_eq_of_ne_fetchOpcode _ byte other] <;>
        rfl
    | idle _ _ _ _ => refine same ?_ ?_ <;> rw [Processor.idled_eq]
  | call call =>
    obtain ⟨levels, rfl, rfl⟩ := occurs.drives
    exact same rfl rfl

/-- So it stays, until the next fetch is queued where no interrupt is recognised. -/
theorem occurs (h : Fetched c) (occurs : Occurs linesOnly c event d) :
    Fetched d ∨ c.phase = .arbitration ∧ d.AtOpcode 0 ∧ d.announced = false := by
  have orderly := occurs.orderly h.orderly
  have sourced := h.sourced.occurs h.orderly occurs
  obtain ⟨page, unannounced⟩ := h.latches occurs
  by_cases fetch : .cycle .fetchOpcode ∈ d.schedule.pending
  · cases occurs.beforeFetch h.orderly h.sourced fetch page with
    | announced pending _ | driven pending _ _ | written pending _ _ =>
      exact absurd pending h.fetch
    | unasked _ phase _ =>
      have pending := sourced.fetch_alone orderly fetch
      exact Or.inr ⟨phase, ⟨orderly.consistent, pending, rfl, page⟩, unannounced⟩
    | jump pc =>
      obtain ⟨_, other, _⟩ := occurs.drives
      cases other
  · exact Or.inl ⟨orderly, sourced, page, unannounced, fetch⟩

end Fetched

/-! ## Leaving the execution -/

namespace Processor

/-- An action is not reported as a retirement, unless it leaves. -/
theorem retirements_act (c : Processor) {action : Action} (stays : ∀ phase, action ≠ .enter phase) :
    retirements (c.act action).reports = 0 := by
  cases action with
  | enter phase => exact absurd rfl (stays phase)
  | _ => rfl

theorem retirements_idled (c : Processor) : retirements c.idled.reports = 0 := by
  unfold idled
  dsimp only
  split
  · split
    · rfl
    · split <;> rfl
  · rfl
  · rfl

theorem phase_idled_ne_execution (other : c.phase ≠ .execution) :
    c.idled.state.phase ≠ .execution := by
  unfold idled
  dsimp only
  split
  · split
    · exact nofun
    · split
      · exact nofun
      · exact other
  · split
    · exact other
    · exact nofun
  · exact other

/-- A processor that executes and has no move to make has something left to do. -/
theorem pending_ne_nil_of_execution (h : c.schedule.Consistent) (still : c.move? = none)
    (phase : c.phase = .execution) : c.schedule.pending ≠ [] := by
  intro dry
  rw [move?_of_execution h dry phase] at still
  cases still

theorem pending_complete (h : c.schedule.Consistent) (still : c.move? = none) (byte : Byte)
    (phase : (c.complete byte).state.phase = .execution) :
    (c.complete byte).state.schedule.pending ≠ [] := by
  cases due : c.due? with
  | some cycle =>
    have carried := consistent_carryOut h cycle byte
    rw [complete, due] at phase ⊢
    exact pending_ne_nil_of_execution (consistent_settle carried) (move?_settle carried) phase
  | none =>
    have waits : c.phase ≠ .execution := fun executes =>
      pending_ne_nil_of_execution h still executes (pending_of_idle h still due)
    rw [complete, due] at phase
    exact absurd phase (phase_idled_ne_execution waits)

end Processor

/-- An instruction under way stays so, or retires once and for all. -/
theorem Fetched.executes (h : Fetched c) (phase : c.phase = .execution)
    (occurs : Occurs linesOnly c event d) :
    (d.phase = .execution ∧ retirements (⟨c, event⟩ : Occurrence).reports = 0) ∨
      d.phase ≠ .execution ∧ d.schedule.pending = [] ∧
        retirements (⟨c, event⟩ : Occurrence).reports = 1 := by
  have consistent := h.orderly.consistent
  cases event with
  | move m =>
    have landed := occurs.pending_landed h.orderly
    obtain ⟨happens, rfl⟩ := occurs.moveHappens consistent
    cases happens with
    | @act action rest pending =>
      by_cases stays : ∀ phase, action ≠ .enter phase
      · exact Or.inl ⟨(Processor.phase_act _ stays).trans phase,
          Processor.retirements_act _ stays⟩
      · obtain ⟨wait, rfl⟩ := by simpa using stays
        have three := h.sourced.enters h.orderly (by rw [pending]; exact List.mem_cons_self)
        have last := h.sourced.rest_eq_nil h.orderly pending rfl
        refine Or.inr ⟨?_, ?_, rfl⟩
        · rintro rfl
          revert three
          decide
        · rw [landed, pending, last]
          rfl
    | phase dry goes =>
      rw [dry] at landed
      cases goes with
      | retire _ => exact Or.inr ⟨nofun, landed, rfl⟩
      | reset other | release other _ | boundary other _ | asked other _ | unasked other _
      | served other _ | unserved other _ =>
        rw [phase] at other
        cases other
    | wake _ other _ _ =>
      rw [phase] at other
      cases other
  | announce => exact absurd occurs h.not_announces
  | access byte =>
    cases occurs with
    | cycle _ due _ =>
      refine Or.inl ⟨(c.phase_carryOut _ byte).trans phase, ?_⟩
      rw [Occurrence.reports_of_due due]
      rfl
    | idle _ still _ idle =>
      have dry := Processor.pending_of_idle consistent still idle
      exact absurd dry (Processor.pending_ne_nil_of_execution consistent still phase)
  | call call =>
    obtain ⟨levels, rfl, rfl⟩ := occurs.drives
    exact Or.inl ⟨phase, rfl⟩

/-! ## Between two instructions -/

namespace Processor

theorem queued_of_plain (c : Processor) {action : Action}
    (plain : (MicroOp.action action).queues c.instruction = false) :
    (c.act action).queued = [] := by
  by_cases quiet : (c.act action).queued = []
  · exact quiet
  · rw [queues_of_act quiet] at plain
    cases plain

theorem carryOut_of_plain {cycle : BusCycle} (h : Orderly c) (due : c.due? = some cycle)
    (plain : (MicroOp.cycle cycle).queues c.instruction = false) (byte : Byte) :
    (c.carryOut cycle byte).instruction = c.instruction ∧
      (c.carryOut cycle byte).schedule.pending = c.schedule.pending.tail := by
  have pending := pending_carryOut h due byte
  cases cycle with
  | fetchOpcode | fetchPostbyte => cases plain
  | _ => exact ⟨rfl, pending.trans (List.append_nil _)⟩

end Processor

/-- What is pending neither queues anything nor leaves, as in a frame or the fetch of a
vector. -/
def Sequence (c : Processor) : Prop :=
  ∀ op ∈ c.schedule.pending, op.queues c.instruction = false ∧ op.leaves = false

namespace Sequence

theorem of_pending {ops : List MicroOp} (pending : d.schedule.pending = ops)
    (plain : Plain d.instruction ops) (stays : ∀ op ∈ ops, op.leaves = false) : Sequence d := by
  intro op mem
  rw [pending] at mem
  exact ⟨plain op mem, stays op mem⟩

theorem of_dry (dry : d.schedule.pending = []) : Sequence d :=
  .of_pending dry nofun nofun

theorem of_suffix (h : Sequence c) (instruction : d.instruction = c.instruction)
    (pending : d.schedule.pending <:+ c.schedule.pending) : Sequence d := by
  intro op mem
  rw [instruction]
  exact h op (pending.subset mem)

theorem of_same (h : Sequence c) (instruction : d.instruction = c.instruction)
    (schedule : d.schedule = c.schedule) : Sequence d :=
  h.of_suffix instruction (schedule ▸ List.suffix_refl _)

theorem of_vector (pending : d.schedule.pending = .cycle .dummy :: vectorFetch) : Sequence d :=
  .of_pending pending plain_takeVector leaves_takeVector

/-- Whatever is done between two instructions, nothing retires, and unless a phase goes on
to an opcode fetch it stays that way. -/
theorem occurs (h : Sequence c) (fetched : Fetched c) (phase : c.phase ≠ .execution)
    (occurs : Occurs linesOnly c event d) :
    retirements (⟨c, event⟩ : Occurrence).reports = 0 ∧
      (Fetched d → d.phase ≠ .execution ∧ Sequence d) := by
  have consistent := fetched.orderly.consistent
  cases event with
  | move m =>
    have landed := occurs.pending_landed fetched.orderly
    obtain ⟨happens, rfl⟩ := occurs.moveHappens consistent
    cases happens with
    | @act action rest pending =>
      obtain ⟨plain, stays⟩ := h (.action action) (by rw [pending]; exact List.mem_cons_self)
      have quiet := Processor.queued_of_plain { c with schedule := c.schedule.advance } plain
      have leaves : ∀ phase, action ≠ .enter phase := by
        rintro other rfl
        cases stays
      refine ⟨Processor.retirements_act _ leaves, fun _ => ⟨?_, ?_⟩⟩
      · rw [Processor.phase_act _ leaves]
        exact phase
      · rw [quiet, List.append_nil] at landed
        refine h.of_suffix (Processor.instruction_act _ _) ?_
        rw [landed]
        exact List.tail_suffix _
    | phase dry goes =>
      rw [dry] at landed
      cases goes with
      | reset _ =>
        exact ⟨rfl, fun _ => ⟨(by decide : Phase.resetHold ≠ .execution), .of_dry landed⟩⟩
      | release _ _ =>
        refine ⟨rfl, fun _ => ⟨(by decide : Phase.boundary ≠ .execution), ?_⟩⟩
        exact .of_pending landed plain_vectorFetch
          fun op mem => leaves_takeVector op (List.mem_cons_of_mem _ mem)
      | boundary _ _ =>
        exact ⟨rfl, fun _ => ⟨(by decide : Phase.arbitration ≠ .execution), .of_dry landed⟩⟩
      | @asked interrupt _ _ =>
        have plain : Plain c.instruction
            ([.cycle .peekPc, .cycle .peekPc] ++ Frame.program interrupt.stacksEntire) :=
          Plain.append (by simp [Plain, MicroOp.queues]) (plain_frame _)
        refine ⟨rfl, fun _ => ⟨(by decide : Phase.dispatch ≠ .execution), ?_⟩⟩
        exact .of_pending landed plain (leaves_entry interrupt)
      | unasked _ _ =>
        refine ⟨rfl, fun later => absurd ?_ later.fetch⟩
        rw [landed]
        exact List.mem_cons_self
      | retire execution => exact absurd execution phase
      | served _ _ =>
        exact ⟨rfl, fun _ => ⟨(by decide : Phase.boundary ≠ .execution), .of_vector landed⟩⟩
      | unserved _ _ =>
        exact ⟨rfl, fun _ => ⟨(by decide : Phase.cwaiWait ≠ .execution), .of_dry landed⟩⟩
    | wake dry _ _ _ =>
      rw [dry] at landed
      exact ⟨rfl, fun _ => ⟨(by decide : Phase.boundary ≠ .execution), .of_vector landed⟩⟩
  | announce => exact absurd occurs fetched.not_announces
  | access byte =>
    cases occurs with
    | @cycle cycle _ due _ =>
      obtain ⟨rest, pending⟩ := (Processor.due?_eq_some_iff consistent).1 due
      have plain := (h (.cycle cycle) (by rw [pending]; exact List.mem_cons_self)).1
      refine ⟨?_, fun _ => ⟨?_, ?_⟩⟩
      · rw [Occurrence.reports_of_due due]
        rfl
      · rw [Processor.phase_carryOut]
        exact phase
      · obtain ⟨instruction, used⟩ := Processor.carryOut_of_plain fetched.orderly due plain byte
        refine h.of_suffix instruction ?_
        rw [used]
        exact List.tail_suffix _
    | idle _ _ _ idle =>
      refine ⟨?_, fun _ => ⟨Processor.phase_idled_ne_execution phase, ?_⟩⟩
      · rw [Occurrence.reports_of_idle idle]
        exact c.retirements_idled
      · exact h.of_same (by rw [Processor.idled_eq]) (Processor.schedule_idled c)
  | call call =>
    obtain ⟨levels, rfl, rfl⟩ := occurs.drives
    exact ⟨rfl, fun _ => ⟨phase, h⟩⟩

end Sequence

/-! ## Before an opcode fetch -/

namespace Processor

/-- The fetch is announced, or made, or the lines are driven. -/
inductive FetchGoes (c : Processor) : Event → Processor → Prop
  | announce (asks : c.asksFirst = true) : FetchGoes c .announce c.announce
  | fetch (byte : Byte) (told : c.asksFirst = false) :
      FetchGoes c (.access byte) (c.carryOut .fetchOpcode byte)
  | drive (levels : Levels) : FetchGoes c (.call (.drive levels)) (c.withLevels levels)

/-- Before the fetch there is nothing to be done but to announce it and to make it. -/
theorem AtOpcode.goes {page : Byte} (fetch : c.AtOpcode page)
    (occurs : Occurs linesOnly c event d) : FetchGoes c event d := by
  have due := due?_of_cycle fetch.consistent fetch.pending
  cases event with
  | move m =>
    obtain ⟨happens, _⟩ := occurs.moveHappens fetch.consistent
    have pending := fetch.pending
    cases happens with
    | act other =>
      rw [pending] at other
      cases other
    | phase dry _ | wake dry _ _ _ =>
      rw [pending] at dry
      cases dry
  | announce =>
    cases occurs with
    | announce asks => exact .announce asks
  | access byte =>
    cases occurs with
    | @cycle cycle _ due' told =>
      obtain rfl : .fetchOpcode = cycle := Option.some.inj (due.symm.trans due')
      exact .fetch byte told
    | idle _ _ _ idle =>
      rw [due] at idle
      cases idle
  | call call =>
    obtain ⟨levels, rfl, rfl⟩ := occurs.drives
    exact .drive levels

theorem AtOpcode.announce {page : Byte} (fetch : c.AtOpcode page) : c.announce.AtOpcode page := by
  rw [announce_eq]
  exact ⟨fetch.consistent, fetch.pending, fetch.phase, fetch.page⟩

theorem AtOpcode.withLevels {page : Byte} (fetch : c.AtOpcode page) (levels : Levels) :
    (c.withLevels levels).AtOpcode page :=
  ⟨fetch.consistent, fetch.pending, fetch.phase, fetch.page⟩

/-- An opcode is counted if it selects no page. -/
theorem AtOpcode.opcodes {page : Byte} (fetch : c.AtOpcode page) (byte : Byte) :
    (⟨c, .access byte⟩ : Occurrence).opcodes = (!Instruction.selectsPage byte).toNat := by
  simp only [Occurrence.opcodes, due?_of_cycle fetch.consistent fetch.pending,
    beq_self_eq_true, Bool.true_and]

end Processor

/-! ## The balance -/

/-- Where a processor stands in a run, with so many opcodes fetched, instructions announced
and instructions retired. -/
inductive Ledger (c : Processor) : Nat → Nat → Nat → Prop
  /-- An opcode is to be fetched. Behind a page selection it has been announced. -/
  | fetching {n : Nat} {page : Byte} (fetch : c.AtOpcode page)
      (announced : page ≠ 0 → c.announced = true) : Ledger c n (n + c.announced.toNat) n
  /-- An instruction is executed, and has yet to retire. -/
  | executing {n : Nat} (fetched : Fetched c) (phase : c.phase = .execution) :
      Ledger c (n + 1) (n + 1) n
  /-- No instruction is executed. -/
  | between {n : Nat} (fetched : Fetched c) (phase : c.phase ≠ .execution)
      (sequence : Sequence c) : Ledger c n n n

namespace Ledger

variable {opcodes announcements retired n : Nat} {page : Byte}

theorem consistent (ledger : Ledger c opcodes announcements retired) :
    c.schedule.Consistent := by
  cases ledger with
  | fetching fetch _ => exact fetch.consistent
  | executing fetched _ => exact fetched.orderly.consistent
  | between fetched _ _ => exact fetched.orderly.consistent

/-- Once it is decoded, an instruction is executed. -/
theorem fetched_carryOut (fetch : c.AtOpcode page) {byte : Byte}
    (final : ∀ selected, (Instruction.decode page byte).op ≠ .selectPage selected) :
    Fetched (c.carryOut .fetchOpcode byte) ∧
      (c.carryOut .fetchOpcode byte).phase = .execution := by
  have decoded := Processor.decoded_carryOut fetch final
  have noFetch : .cycle .fetchOpcode ∉ (c.carryOut .fetchOpcode byte).schedule.pending := by
    rw [decoded.pending]
    exact fun mem => fetchOpcode_not_mem_decode page byte (List.mem_append_left _ mem)
  have orderly : Orderly (c.carryOut .fetchOpcode byte) := by
    refine (Tidy.fetch fetch.consistent fetch.pending byte).2.orderly fun alone => noFetch ?_
    rw [alone]
    exact List.mem_cons_self
  have sourced : Sourced (c.carryOut .fetchOpcode byte) :=
    .of_eq .program (by rw [decoded.pending, decoded.instruction])
  refine ⟨⟨orderly, sourced, decoded.page, ?_, noFetch⟩, decoded.phase⟩
  obtain rfl := fetch.page
  rw [Processor.carryOut, Processor.absorb, Processor.absorbOpcode_of_final
    { c.clocked with schedule := c.schedule.advance } final]
  rfl

/-- A page selection leaves the announcement as it is. -/
theorem announced_carryOut (fetch : c.AtOpcode page) {byte selected : Byte}
    (selects : (Instruction.decode page byte).op = .selectPage selected) :
    (c.carryOut .fetchOpcode byte).announced = c.announced := by
  obtain rfl := fetch.page
  rw [Processor.carryOut, Processor.absorb, Processor.absorbOpcode_of_select
    { c.clocked with schedule := c.schedule.advance } selects]
  rfl

/-- The byte of an opcode fetch begins an instruction, or selects a page. -/
theorem of_byte (fetch : c.AtOpcode page) (announced : c.announced = true) (byte : Byte) :
    Ledger (c.carryOut .fetchOpcode byte) (n + (!Instruction.selectsPage byte).toNat) (n + 1)
      n := by
  cases selects : Instruction.selectsPage byte with
  | true =>
    obtain ⟨selected, operation⟩ := (Instruction.selectsPage_iff page).1 selects
    have kept := (announced_carryOut fetch operation).trans announced
    have later : Ledger (c.carryOut .fetchOpcode byte) n
        (n + (c.carryOut .fetchOpcode byte).announced.toNat) n :=
      .fetching (Processor.atOpcode_carryOut fetch operation).1 fun _ => kept
    rw [kept] at later
    exact later
  | false =>
    have final : ∀ selected, (Instruction.decode page byte).op ≠ .selectPage selected := by
      intro selected operation
      rw [(Instruction.selectsPage_iff page).2 ⟨selected, operation⟩] at selects
      cases selects
    obtain ⟨fetched, phase⟩ := fetched_carryOut fetch final
    exact .executing fetched phase

/-- The announcement and the fetch are counted as they are made. -/
theorem occurs_fetching (fetch : c.AtOpcode page) (announced : page ≠ 0 → c.announced = true)
    (occurs : Occurs linesOnly c event d) :
    Ledger d (n + (⟨c, event⟩ : Occurrence).opcodes)
      (n + c.announced.toNat + (⟨c, event⟩ : Occurrence).announcements)
      (n + retirements (⟨c, event⟩ : Occurrence).reports) := by
  have due := Processor.due?_of_cycle fetch.consistent fetch.pending
  cases fetch.goes occurs with
  | announce asks =>
    have first : page = 0 ∧ c.announced = false := by
      simp only [Processor.asksFirst, Bool.and_eq_true, beq_iff_eq, Bool.not_eq_true'] at asks
      exact ⟨fetch.page.symm.trans asks.1.2, asks.2⟩
    have told := fetch.announce
    rw [Processor.announce_of_asked asks] at told ⊢
    rw [first.2]
    exact .fetching told fun _ => rfl
  | fetch byte unasked =>
    have told : c.announced = true := by
      by_cases first : page = 0
      · simpa [Processor.asksFirst, due, fetch.page.trans first] using unasked
      · exact announced first
    rw [fetch.opcodes, Occurrence.reports_of_due due, told]
    exact of_byte fetch told byte
  | drive levels => exact .fetching (fetch.withLevels levels) announced

/-- **One piece of work.** Whatever happens, the numbers go on as what happens is counted. -/
theorem occurs (ledger : Ledger c opcodes announcements retired)
    (occurs : Occurs linesOnly c event d) :
    Ledger d (opcodes + (⟨c, event⟩ : Occurrence).opcodes)
      (announcements + (⟨c, event⟩ : Occurrence).announcements)
      (retired + retirements (⟨c, event⟩ : Occurrence).reports) := by
  cases ledger with
  | fetching fetch announced => exact occurs_fetching fetch announced occurs
  | executing fetched phase =>
    obtain ⟨fetches, announces⟩ := fetched.uncounted occurs
    rw [fetches, announces]
    rcases fetched.occurs occurs with later | ⟨other, _⟩
    · rcases fetched.executes phase occurs with ⟨still, none⟩ | ⟨ended, dry, one⟩
      · rw [none]
        exact .executing later still
      · rw [one]
        exact .between later ended (.of_dry dry)
    · rw [phase] at other
      cases other
  | between fetched phase sequence =>
    obtain ⟨fetches, announces⟩ := fetched.uncounted occurs
    obtain ⟨none, on⟩ := sequence.occurs fetched phase occurs
    rw [fetches, announces, none]
    rcases fetched.occurs occurs with later | ⟨_, fetch, unannounced⟩
    · exact .between later (on later).1 (on later).2
    · have next : Ledger d opcodes (opcodes + d.announced.toNat) opcodes :=
        .fetching fetch fun selected => absurd rfl selected
      rw [unannounced] at next
      exact next

end Ledger

/-! ## What the numbers say -/

/-- An instruction is in flight: its opcode is fetched, and something of it is left. -/
def Processor.inFlight (c : Processor) : Bool :=
  c.phase == .execution &&
    match c.schedule.current with
    | some op => op != .cycle .fetchOpcode
    | none => false

theorem Processor.inFlight_of_pending (h : c.schedule.Consistent) {op : MicroOp}
    {rest : List MicroOp} (pending : c.schedule.pending = op :: rest) :
    c.inFlight = (c.phase == .execution && op != .cycle .fetchOpcode) := by
  rw [inFlight, Schedule.current_eq_head? h, pending]
  rfl

/-- With nothing left to be done before the next access, the place in the ledger shows from
outside. -/
theorem Ledger.closed {opcodes announcements retired : Nat}
    (ledger : Ledger c opcodes announcements retired)
    (busy : c.phase = .execution → c.schedule.pending ≠ []) :
    announcements = opcodes + (if c.announced then 1 else 0) ∧
      if c.inFlight then retired + 1 = opcodes else retired = opcodes := by
  cases ledger with
  | fetching fetch _ =>
    have resting : c.inFlight = false := by
      rw [Processor.inFlight_of_pending fetch.consistent fetch.pending, bne_self_eq_false,
        Bool.and_false]
    rw [resting]
    refine ⟨?_, rfl⟩
    cases c.announced <;> rfl
  | executing fetched phase =>
    obtain ⟨op, rest, pending⟩ := List.exists_cons_of_ne_nil (busy phase)
    have other : op ≠ .cycle .fetchOpcode := by
      rintro rfl
      exact fetched.fetch (pending ▸ List.mem_cons_self)
    have flying : c.inFlight = true := by
      rw [Processor.inFlight_of_pending fetched.orderly.consistent pending, phase, beq_self_eq_true,
        bne_iff_ne.2 other]
      rfl
    rw [flying, fetched.unannounced]
    exact ⟨rfl, rfl⟩
  | between fetched phase _ =>
    have resting : c.inFlight = false := by
      rw [Processor.inFlight, beq_eq_false_iff_ne.2 phase, Bool.false_and]
    rw [resting, fetched.unannounced]
    exact ⟨rfl, rfl⟩

end Sim6809
