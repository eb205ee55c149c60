/-
Watchpoints: the hooks for reads and writes see the operand of every instruction, and nothing
else.

Which accesses an instruction makes to its operand is settled in `OperandAccesses.lean`, for its
steps alone. Here they are followed through a run, in which lines change, interrupts are stacked
and served, and the hook for instructions may hold the processor. What has been seen and what is
still to be seen make up the whole at any time (`Account`). Whatever happens takes its share from
the one to the other (`Fetched.operandsAhead_occurs`), since only two things can be queued that
hold an operand: the program of a decoded instruction, and what a postbyte makes of it. Frames,
vectors, register lists and opcode fetches hold none (`MoveHappens.unmarked`). The account is
opened where an instruction is fetched (`Account.start`) and closed where the next one is
(`Account.closed`); in between it is kept as any other statement is (`Board.Keeps`).

The hooks installed here see all notes of the monitor and keep others of their own
(`Monitor.installing`). That they have no influence is another case of `Monitor.Extends`.
-/
import Sim6809.Proofs.HookCounts
import Sim6809.Proofs.OperandAccesses
import Sim6809.Proofs.Status

set_option autoImplicit false

namespace Sim6809

/-! ## Operands ahead -/

/-- The operands moved by some steps, and by those that a postbyte among them queues behind
them. -/
def operandsFrom (ops : List MicroOp) (sight : Processor × Ram) : List Transfer :=
  operandsIn ops sight ++
    if .cycle .fetchPostbyte ∈ ops then
      operandsIn (IndexForm.program (enactAll ops sight).1.postbyte ++ sight.1.instruction.body)
        (enactAll ops sight)
    else []

/-- The operands that are still to be moved by what is pending. -/
def Processor.operandsAhead (c : Processor) (ram : Ram) : List Transfer :=
  operandsFrom c.schedule.pending (c, ram)

namespace MicroOp

/-- The step moves no operand, and no postbyte in it queues steps that do. -/
def unmarked (op : MicroOp) : Bool := !op.isOperand && op != .cycle .fetchPostbyte

theorem isOperand_of_unmarked {op : MicroOp} (h : op.unmarked = true) : op.isOperand = false := by
  rw [unmarked, Bool.and_eq_true, Bool.not_eq_true'] at h
  exact h.1

theorem ne_fetchPostbyte_of_unmarked {op : MicroOp} (h : op.unmarked = true) :
    op ≠ .cycle .fetchPostbyte := by
  rw [unmarked, Bool.and_eq_true, bne_iff_ne] at h
  exact h.2

end MicroOp

theorem operandsFrom_of_not_mem {ops : List MicroOp} (plain : .cycle .fetchPostbyte ∉ ops)
    (sight : Processor × Ram) : operandsFrom ops sight = operandsIn ops sight := by
  rw [operandsFrom, if_neg plain, List.append_nil]

theorem operandsFrom_of_unmarked {ops : List MicroOp} (h : ∀ op ∈ ops, op.unmarked = true)
    (sight : Processor × Ram) : operandsFrom ops sight = [] := by
  have noPostbyte : .cycle .fetchPostbyte ∉ ops := fun mem =>
    MicroOp.ne_fetchPostbyte_of_unmarked (h _ mem) rfl
  rw [operandsFrom_of_not_mem noPostbyte]
  exact operandsIn_of_unmarked (fun op mem => MicroOp.isOperand_of_unmarked (h op mem)) sight

/-- The first step takes its share. -/
theorem operandsFrom_cons {op : MicroOp} (ops : List MicroOp) (sight : Processor × Ram)
    (other : op ≠ .cycle .fetchPostbyte)
    (same : (op.enact sight).1.instruction = sight.1.instruction) :
    operandsFrom (op :: ops) sight = op.operands sight ++ operandsFrom ops (op.enact sight) := by
  have mem : .cycle .fetchPostbyte ∈ op :: ops ↔ .cycle .fetchPostbyte ∈ ops :=
    List.mem_cons.trans (or_iff_right (Ne.symm other))
  rw [operandsFrom, operandsFrom, operandsIn, List.append_assoc, same]
  simp only [mem]
  rfl

/-- Those behind a postbyte are what it queues. -/
theorem operandsFrom_postbyte (c : Processor) (ram : Ram) :
    operandsFrom [.cycle .fetchPostbyte] (c, ram) =
      operandsIn (IndexForm.program (ram c.regs.pc) ++ c.instruction.body)
        (MicroOp.enact (.cycle .fetchPostbyte) (c, ram)) := rfl

/-- Steps that fetch no opcode move the same operands. -/
theorem Alike.operandsFrom {ops : List MicroOp} {sight sight' : Processor × Ram}
    (h : Alike sight sight') (ne : .cycle .fetchOpcode ∉ ops)
    (body : .cycle .fetchOpcode ∉ sight.1.instruction.body) :
    Sim6809.operandsFrom ops sight = Sim6809.operandsFrom ops sight' := by
  have after := h.enactAll_of_ne ne
  have queued := fetchOpcode_not_mem_indexed body (Sim6809.enactAll ops sight).1.postbyte
  rw [Sim6809.operandsFrom, Sim6809.operandsFrom, h.operandsIn ne, after.operandsIn queued,
    h.latches.1, after.latches.2]

/-! ## What happens to them -/

namespace Occurrence

/-- The operand moved here. -/
def operands (o : Occurrence) : List Transfer :=
  match o.event with
  | .access byte => if o.before.operandDue then [⟨o.before.access, byte⟩] else []
  | _ => []

/-- What memory holds after it. -/
def contents (o : Occurrence) (ram : Ram) : Ram :=
  match o.event with
  | .access _ => (o.before.access.perform ram).2
  | _ => ram

/-- If it is an access, its byte is that of memory. -/
def Meets (o : Occurrence) (ram : Ram) : Prop :=
  ∀ byte, o.event = .access byte → byte = (o.before.access.perform ram).1

end Occurrence

variable {c d : Processor} {event : Event} {ram : Ram}

/-- No move queues a step that moves an operand, or a postbyte. -/
theorem Processor.MoveHappens.unmarked {m : Move} (happens : c.MoveHappens m) {op : MicroOp}
    (mem : op ∈ m.queued) : op.unmarked = true := by
  have vector : ∀ op ∈ .cycle .dummy :: vectorFetch, op.unmarked = true := by decide
  cases happens with
  | @act action _ pending =>
    cases action with
    | operate =>
      obtain ⟨cycle, rfl, idle⟩ := mem_growth mem
      cases cycle <;> first | rfl | cases idle
    | vector _ => exact vector op mem
    | _ => cases mem
  | phase dry goes =>
    cases goes with
    | release _ _ => exact vector op (List.mem_cons_of_mem _ mem)
    | @asked interrupt _ _ =>
      have entry : ∀ op ∈ interrupt.entrySteps, op.unmarked = true := by
        cases interrupt <;> decide
      exact entry op mem
    | unasked _ _ =>
      obtain rfl := List.mem_singleton.1 mem
      rfl
    | served _ _ => exact vector op mem
    | reset _ | boundary _ _ | retire _ | unserved _ _ => cases mem
  | wake _ _ _ _ => exact vector op mem

/-- With nothing pending none are ahead. -/
theorem Processor.operandsAhead_of_dry (dry : c.schedule.pending = []) :
    c.operandsAhead ram = [] := by
  rw [operandsAhead, dry]
  rfl

namespace Fetched

/-- What makes no difference to the steps makes none to their operands. -/
theorem operandsAhead_alike (h : Fetched c) {ops : List MicroOp} {ram' : Ram}
    {sight : Processor × Ram} (suffix : ops <:+ c.schedule.pending)
    (alike : Alike (d, ram') sight) (instruction : d.instruction = c.instruction) :
    operandsFrom ops (d, ram') = operandsFrom ops sight :=
  alike.operandsFrom (fun mem => h.fetch (suffix.subset mem)) (by
    rw [instruction]
    exact h.orderly.fetchOpcode_not_mem_body)

/-- A move takes no operand away, and adds none. -/
theorem operandsAhead_move {m : Move} (h : Fetched c) (happens : c.MoveHappens m)
    (landed : m.landed.schedule.pending = c.schedule.pending.tail ++ m.queued) :
    m.landed.operandsAhead ram = c.operandsAhead ram := by
  have queued := operandsFrom_of_unmarked (fun _ mem => happens.unmarked mem) (m.landed, ram)
  cases happens with
  | @act action rest pending =>
    rw [pending, List.tail_cons] at landed
    rw [Processor.operandsAhead, Processor.operandsAhead, landed, pending]
    by_cases quiet : ({ c with schedule := c.schedule.advance }.act action).queued = []
    · have other : MicroOp.action action ≠ .cycle .fetchPostbyte := nofun
      rw [quiet, List.append_nil, operandsFrom_cons rest (c, ram) other (c.instruction_act action)]
      refine h.operandsAhead_alike ?_ (c.alike_act ram action) (Processor.instruction_act _ _)
      rw [pending]
      exact List.suffix_cons _ _
    · have queues := Processor.queues_of_act quiet
      have last := h.orderly.last
      rw [pending] at last
      rw [last.rest_eq_nil queues, List.nil_append, queued]
      rfl
  | phase dry _ | wake dry _ _ _ =>
    rw [dry, List.tail_nil, List.nil_append] at landed
    rw [Processor.operandsAhead_of_dry dry, Processor.operandsAhead, landed]
    exact queued

/-- A postbyte is the last step pending, and what it queues fetches neither an opcode nor
another postbyte. -/
theorem postbyte (h : Fetched c) (due : c.due? = some .fetchPostbyte) (byte : Byte) :
    c.schedule.pending = [.cycle .fetchPostbyte] ∧
      (c.carryOut .fetchPostbyte byte).schedule.pending =
        IndexForm.program byte ++ c.instruction.body ∧
      .cycle .fetchOpcode ∉ IndexForm.program byte ++ c.instruction.body ∧
      .cycle .fetchPostbyte ∉ IndexForm.program byte ++ c.instruction.body := by
  obtain ⟨rest, pending⟩ := (Processor.due?_eq_some_iff h.orderly.consistent).1 due
  have carried := Processor.pending_carryOut h.orderly due byte
  have last := h.orderly.last
  rw [pending] at last
  obtain rfl := last.rest_eq_nil rfl
  rw [pending, List.tail_cons, List.nil_append] at carried
  refine ⟨pending, carried,
    fetchOpcode_not_mem_indexed h.orderly.fetchOpcode_not_mem_body byte, fun mem => ?_⟩
  rcases List.mem_append.1 mem with address | later
  · have plain : Plain c.instruction (IndexForm.program byte) := plain_indexProgram byte
    cases plain _ address
  · obtain ⟨page, opcode, decoded⟩ := h.orderly.decoded
    have laid := Instruction.laidOut_decode page opcode
    rw [decoded] at laid
    exact laid.noPostbyte later

/-- An access takes its share. -/
theorem operandsAhead_carryOut {cycle : BusCycle} (h : Fetched c) (due : c.due? = some cycle) :
    c.operandsAhead ram = (MicroOp.cycle cycle).operands (c, ram) ++
      (c.carryOut cycle ((cycle.access c).perform ram).1).operandsAhead
        ((cycle.access c).perform ram).2 := by
  have other : cycle ≠ .fetchOpcode := by
    rintro rfl
    exact h.due?_ne due
  have alike := c.alike_carryOut ram other
  by_cases indexed : cycle = .fetchPostbyte
  · subst indexed
    obtain ⟨pending, queued, noOpcode, noPostbyte⟩ := h.postbyte due (ram c.regs.pc)
    rw [Processor.operandsAhead, Processor.operandsAhead, pending, operandsFrom_postbyte]
    rw [← Sim6809.Alike.operandsIn alike noOpcode, ← operandsFrom_of_not_mem noPostbyte, ← queued]
    rfl
  · have plain : (MicroOp.cycle cycle).queues c.instruction = false := by
      cases cycle with
      | fetchOpcode => exact absurd rfl other
      | fetchPostbyte => exact absurd rfl indexed
      | _ => rfl
    obtain ⟨rest, pending⟩ := (Processor.due?_eq_some_iff h.orderly.consistent).1 due
    obtain ⟨instruction, used⟩ := Processor.carryOut_of_plain h.orderly due plain
      ((cycle.access c).perform ram).1
    have suffix : rest <:+ c.schedule.pending := by
      rw [pending]
      exact List.suffix_cons _ _
    rw [Processor.operandsAhead, Processor.operandsAhead, used, pending, List.tail_cons,
      h.operandsAhead_alike suffix alike instruction]
    exact operandsFrom_cons rest (c, ram) (mt MicroOp.cycle.inj indexed)
      (alike.latches.1.symm.trans instruction)

/-- **What is moved is no longer ahead**, and nothing else changes what is. -/
theorem operandsAhead_occurs (h : Fetched c) (occurs : Occurs linesOnly c event d)
    (meets : (⟨c, event⟩ : Occurrence).Meets ram) :
    c.operandsAhead ram = (⟨c, event⟩ : Occurrence).operands ++
      d.operandsAhead ((⟨c, event⟩ : Occurrence).contents ram) := by
  cases event with
  | move m =>
    have landed := occurs.pending_landed h.orderly
    obtain ⟨happens, rfl⟩ := occurs.moveHappens h.orderly.consistent
    exact (h.operandsAhead_move happens landed).symm
  | announce => exact absurd occurs h.not_announces
  | access byte =>
    have answer := meets byte rfl
    cases occurs with
    | @cycle cycle _ due _ =>
      have access : c.access = cycle.access c := by rw [Processor.access, due]
      have marked : c.operandDue = cycle.isOperand := by rw [Processor.operandDue, due]
      have share : c.operandsAhead ram = _ := h.operandsAhead_carryOut due
      dsimp only at answer
      rw [Occurrence.operands, Occurrence.contents]
      dsimp only
      rw [answer, marked, access]
      exact share
    | idle _ still _ idle =>
      have dry := Processor.pending_of_idle h.orderly.consistent still idle
      have after : c.idled.state.schedule.pending = [] := by
        rw [Processor.schedule_idled]
        exact dry
      have unmarked : c.operandDue = false := by rw [Processor.operandDue, idle]
      rw [Occurrence.operands, Processor.operandsAhead_of_dry dry,
        Processor.operandsAhead_of_dry after]
      dsimp only
      rw [unmarked]
      rfl
  | call call =>
    obtain ⟨levels, rfl, rfl⟩ := occurs.drives
    exact (h.operandsAhead_alike (List.suffix_refl _)
      (⟨rfl, rfl⟩ : Alike (c.withLevels levels, ram) (c, ram)) rfl).symm

end Fetched

/-- Of a decoded instruction everything is ahead. -/
theorem Processor.Decoded.operandsAhead {i : Instruction} {regs : RegisterFile}
    (decoded : c.Decoded i regs) (source : ∃ page opcode, Instruction.decode page opcode = i)
    (ram : Ram) :
    c.operandsAhead ram = i.operandTransfers ram regs regs.pc := by
  obtain rfl := decoded.instruction
  obtain rfl := decoded.regs
  have steps := operandsIn_steps source ram
  rw [← steps, Processor.operandsAhead, decoded.pending]
  by_cases indexed : c.instruction.mode = .indexed
  · rw [Instruction.steps, if_pos indexed, Instruction.program, indexed]
    exact operandsFrom_postbyte c ram
  · obtain ⟨page, opcode, same⟩ := source
    have laid := Instruction.laidOut_decode page opcode
    rw [same] at laid
    rw [Instruction.steps, if_neg indexed, operandsFrom_of_not_mem (mt laid.indexed indexed)]

/-! ## The account -/

/-- The next opcode to be fetched begins an instruction with these operand accesses. -/
def Processor.Expects (c : Processor) (ram : Ram) (page : Byte) (expected : List Transfer) : Prop :=
  ∃ n i, Encodes ram page c.regs.pc n i ∧
    i.operandTransfers ram c.regs (c.regs.pc + UInt16.ofNat n) = expected

/-- Where a processor stands in an instruction with these operand accesses, after so many
opcodes and calls. -/
inductive Account (expected : List Transfer) (c : Processor) (ram : Ram) :
    Nat → List Transfer → Prop
  /-- It is not yet decided that the instruction comes next, but it will be. -/
  | released (consistent : c.schedule.Consistent) (page : c.page = 0) (released : c.Released)
      (unasked : HardwareInterrupt.recognised c.inputs.active c.regs.cc = none)
      (expects : c.Expects ram 0 expected) : Account expected c ram 0 []
  | fetching {page : Byte} (fetch : c.AtOpcode page) (expects : c.Expects ram page expected) :
      Account expected c ram 0 []
  /-- What has been seen and what is ahead make up the whole. -/
  | begun {calls : List Transfer} (fetched : Fetched c)
      (whole : calls ++ c.operandsAhead ram = expected) : Account expected c ram 1 calls
  | next {page : Byte} (fetch : c.AtOpcode page) : Account expected c ram 1 expected
  | beyond {opcodes : Nat} (later : 1 < opcodes) (calls : List Transfer) :
      Account expected c ram opcodes calls

namespace Account

variable {expected calls : List Transfer} {page : Byte} {opcodes : Nat}

/-- What is released goes on to the fetch. -/
theorem occurs_released (consistent : c.schedule.Consistent) (page : c.page = 0)
    (released : c.Released)
    (unasked : HardwareInterrupt.recognised c.inputs.active c.regs.cc = none)
    (expects : c.Expects ram 0 expected) (occurs : Occurs linesOnly c event d) :
    Account expected d ((⟨c, event⟩ : Occurrence).contents ram)
      (0 + (⟨c, event⟩ : Occurrence).opcodes) ([] ++ (⟨c, event⟩ : Occurrence).operands) := by
  have later := occurs.consistent consistent
  have idle := Processor.due?_of_dry consistent released.1
  cases event with
  | move m =>
    obtain ⟨happens, rfl⟩ := occurs.moveHappens consistent
    obtain ⟨dry, phase⟩ := released
    cases happens with
    | act pending =>
      rw [dry] at pending
      cases pending
    | phase _ goes =>
      cases goes with
      | boundary _ _ => exact .released later page ⟨dry, Or.inl rfl⟩ unasked expects
      | unasked _ _ =>
        have drained := (Schedule.isDrained_iff_pending consistent).2 dry
        have pending := Schedule.pending_extend_of_isDrained consistent drained
          [.cycle .fetchOpcode] (by decide)
        exact .fetching ⟨later, pending, rfl, page⟩ expects
      | asked _ recognised =>
        rw [unasked] at recognised
        cases recognised
      | reset other | release other _ | retire other | served other _ | unserved other _ =>
        rw [other] at phase
        rcases phase with phase | ⟨phase, _⟩ <;> cases phase
    | wake _ other _ _ =>
      rw [other] at phase
      rcases phase with phase | ⟨phase, _⟩ <;> cases phase
  | announce =>
    cases occurs with
    | announce asks =>
      have due := Processor.due?_of_asksFirst asks
      rw [idle] at due
      cases due
  | access byte =>
    cases occurs with
    | cycle _ due _ =>
      rw [idle] at due
      cases due
    | idle _ still _ _ => exact absurd still (released.moves consistent)
  | call call =>
    obtain ⟨levels, rfl, rfl⟩ := occurs.drives
    exact .released later page released unasked expects

/-- The byte of an opcode fetch is no operand, and comes from memory. -/
theorem opcode_read (fetch : c.AtOpcode page) {byte : Byte}
    (meets : (⟨c, .access byte⟩ : Occurrence).Meets ram) :
    byte = ram c.regs.pc ∧ (⟨c, .access byte⟩ : Occurrence).contents ram = ram ∧
      (⟨c, .access byte⟩ : Occurrence).operands = [] := by
  have due := Processor.due?_of_cycle fetch.consistent fetch.pending
  have access : c.access = .read c.regs.pc := by rw [Processor.access, due]; rfl
  have unmarked : c.operandDue = false := by rw [Processor.operandDue, due]; rfl
  have answer := meets byte rfl
  dsimp only at answer
  rw [access] at answer
  refine ⟨answer, ?_, ?_⟩
  · rw [Occurrence.contents]
    dsimp only
    rw [access]
    rfl
  · rw [Occurrence.operands]
    dsimp only
    rw [unmarked]
    rfl

/-- A page selection leads to the next one, or to the opcode. -/
theorem occurs_fetching (fetch : c.AtOpcode page) (expects : c.Expects ram page expected)
    (occurs : Occurs linesOnly c event d) (meets : (⟨c, event⟩ : Occurrence).Meets ram) :
    Account expected d ((⟨c, event⟩ : Occurrence).contents ram)
      (0 + (⟨c, event⟩ : Occurrence).opcodes) ([] ++ (⟨c, event⟩ : Occurrence).operands) := by
  cases fetch.goes occurs with
  | announce _ =>
    refine .fetching fetch.announce ?_
    rw [Processor.announce_eq]
    exact expects
  | drive levels => exact .fetching (fetch.withLevels levels) expects
  | fetch byte _ =>
    obtain ⟨rfl, contents, operands⟩ := opcode_read fetch meets
    rw [contents, operands, fetch.opcodes]
    obtain ⟨n, i, encodes, whole⟩ := expects
    cases encodes with
    | opcode final =>
      have plain : Instruction.selectsPage (ram c.regs.pc) = false := by
        cases selects : Instruction.selectsPage (ram c.regs.pc) with
        | false => rfl
        | true =>
          obtain ⟨selected, operation⟩ := (Instruction.selectsPage_iff page).1 selects
          exact absurd operation (final selected)
      have decoded := Processor.decoded_carryOut fetch final
      have ahead := decoded.operandsAhead ⟨_, _, rfl⟩ ram
      rw [Instruction.operandTransfers_withPc] at ahead
      rw [plain]
      exact .begun (Ledger.fetched_carryOut fetch final).1 (ahead.trans whole)
    | @select _ _ _ n _ selects more =>
      have selection := (Instruction.selectsPage_iff page).2 ⟨_, selects⟩
      obtain ⟨later, regs⟩ := Processor.atOpcode_carryOut fetch selects
      rw [selection]
      refine .fetching later ⟨n, i, ?_, ?_⟩
      · rw [regs]
        exact more
      · rw [regs, Instruction.operandTransfers_withPc, ← whole, Nat.add_comm n 1,
          UInt16.ofNat_add, ← UInt16.add_assoc]
        rfl

/-- Behind the instruction the next one is fetched, and that is no longer of interest. -/
theorem occurs_next (fetch : c.AtOpcode page) (occurs : Occurs linesOnly c event d)
    (meets : (⟨c, event⟩ : Occurrence).Meets ram) :
    Account expected d ((⟨c, event⟩ : Occurrence).contents ram)
      (1 + (⟨c, event⟩ : Occurrence).opcodes)
      (expected ++ (⟨c, event⟩ : Occurrence).operands) := by
  cases fetch.goes occurs with
  | announce _ =>
    rw [Occurrence.operands, List.append_nil]
    exact .next fetch.announce
  | drive levels =>
    rw [Occurrence.operands, List.append_nil]
    exact .next (fetch.withLevels levels)
  | fetch byte _ =>
    obtain ⟨_, _, operands⟩ := opcode_read fetch meets
    rw [operands, List.append_nil, fetch.opcodes]
    cases selects : Instruction.selectsPage byte with
    | true =>
      obtain ⟨selected, operation⟩ := (Instruction.selectsPage_iff page).1 selects
      exact .next (Processor.atOpcode_carryOut fetch operation).1
    | false => exact .beyond (by decide) _

/-- **Whatever happens, the account stays right.** -/
theorem occurs (account : Account expected c ram opcodes calls)
    (occurs : Occurs linesOnly c event d) (meets : (⟨c, event⟩ : Occurrence).Meets ram) :
    Account expected d ((⟨c, event⟩ : Occurrence).contents ram)
      (opcodes + (⟨c, event⟩ : Occurrence).opcodes)
      (calls ++ (⟨c, event⟩ : Occurrence).operands) := by
  cases account with
  | released consistent page released unasked expects =>
    exact occurs_released consistent page released unasked expects occurs
  | fetching fetch expects => exact occurs_fetching fetch expects occurs meets
  | begun fetched whole =>
    have share := fetched.operandsAhead_occurs occurs meets
    rw [share, ← List.append_assoc] at whole
    rw [(fetched.uncounted occurs).1]
    rcases fetched.occurs occurs with later | ⟨_, fetch, _⟩
    · exact .begun later whole
    · have none : d.operandsAhead ((⟨c, event⟩ : Occurrence).contents ram) = [] := by
        rw [Processor.operandsAhead, fetch.pending]
        rfl
      rw [none, List.append_nil] at whole
      rw [whole]
      exact .next fetch
  | next fetch => exact occurs_next fetch occurs meets
  | beyond later calls => exact .beyond (Nat.lt_add_right _ later) _

/-- Before the second opcode nothing has been seen but operands of the first instruction. -/
theorem isPrefix (account : Account expected c ram opcodes calls) (first : opcodes ≤ 1) :
    calls <+: expected := by
  cases account with
  | released _ _ _ _ _ | fetching _ _ => exact List.nil_prefix
  | begun _ whole => exact ⟨_, whole⟩
  | next _ => exact List.prefix_rfl
  | beyond later _ => exact absurd first (Nat.not_le.2 later)

/-- Where a fetch comes next, the account is opened. -/
theorem start (reachable : Reachable anyCall c) (fetches : c.FetchesNext)
    (expects : c.Expects ram 0 expected) : Account expected c ram 0 [] := by
  rcases reachable.fetchesNext_iff.1 fetches with boundary | ⟨released, unasked⟩
  · exact .fetching (Processor.atOpcode_of_reachable reachable boundary) expects
  · have page := reachable.staged.selecting.resolve_right (by rw [released.1]; exact nofun)
    exact .released reachable.consistent page released unasked expects

/-- And where the next one comes, it is closed. -/
theorem closed (account : Account expected c ram 1 calls) (reachable : Reachable anyCall c)
    (fetches : c.FetchesNext) : calls = expected := by
  cases account with
  | begun fetched whole =>
    rcases reachable.fetchesNext_iff.1 fetches with boundary | ⟨released, _⟩
    · have fetch := fetched.fetch
      rw [(Processor.atOpcode_of_reachable reachable boundary).pending] at fetch
      exact absurd List.mem_cons_self fetch
    · rw [Processor.operandsAhead_of_dry released.1, List.append_nil] at whole
      exact whole
  | next _ => rfl
  | beyond later _ => exact absurd later (Nat.lt_irrefl 1)

end Account

/-! ## Memory -/

/-- The bus is memory with these contents, and nothing else. -/
structure Bus.IsRam {β : Type} [Bus β] (contents : β → Ram) : Prop where
  answer : ∀ (access : Access) (bus : β),
    (access.perform bus).1 = (access.perform (contents bus)).1
  kept : ∀ (access : Access) (bus : β),
    contents (access.perform bus).2 = (access.perform (contents bus)).2

theorem Ram.isRam : Bus.IsRam fun ram : Ram => ram := ⟨fun _ _ => rfl, fun _ _ => rfl⟩

/-- Flat memory is that, whatever it counts. -/
theorem Memory.isRam : Bus.IsRam Memory.peek :=
  ⟨fun access mem => (mem.perform_peek access).1, fun access mem => (mem.perform_peek access).2⟩

/-- A recorder in front of it makes no difference. -/
theorem Bus.IsRam.recorded {β : Type} [Bus β] {contents : β → Ram} (h : Bus.IsRam contents) :
    Bus.IsRam fun bus : Recorded β => contents bus.bus := by
  refine ⟨fun access bus => ?_, fun access bus => ?_⟩
  · rw [Recorded.perform]
    exact h.answer access bus.bus
  · rw [Recorded.perform]
    exact h.kept access bus.bus

/-! ## The hooks -/

namespace Monitor

variable {σ τ : Type} (m : Monitor σ)

/-- The same monitor with other hooks for reads and writes. They see all notes and take their
own. -/
def installing (read write : Option (Word → Byte → σ × τ → τ)) : Monitor (σ × τ) where
  hooks :=
    { instruction := m.hooks.instruction.map fun hook regs notes =>
        let answer := hook regs notes.1
        (answer.1, (answer.2, notes.2))
      retired := m.hooks.retired.map fun hook regs notes => (hook regs notes.1, notes.2)
      read := read.map fun hook address byte notes => (notes.1, hook address byte notes)
      write := write.map fun hook address value notes => (notes.1, hook address value notes) }
  log := fun notice notes => (m.log notice notes.1, notes.2)

/-- The same monitor without any hook for reads or writes. -/
def unwatched : Monitor σ :=
  { m with hooks := { m.hooks with read := none, write := none } }

/-- The same monitor with hooks that list the accesses they are called for. -/
def watched : Monitor (σ × List Transfer) :=
  m.installing (some fun address byte notes => notes.2 ++ [⟨.read address, byte⟩])
    (some fun address value notes => notes.2 ++ [.writing address value])

theorem extends_installing (read write : Option (Word → Byte → σ × τ → τ)) :
    (m.installing read write).Extends m.unwatched Prod.fst := by
  obtain ⟨⟨instruction, retired, _, _⟩, log⟩ := m
  refine ⟨fun regs notes => ?_, fun regs notes => ?_, fun notes report => ?_,
    fun access byte notes => ?_⟩
  · cases instruction <;> rfl
  · cases instruction <;> rfl
  · cases report with
    | notice _ => rfl
    | retired _ => cases retired <;> rfl
  · cases access with
    | read _ => cases read <;> rfl
    | write _ _ => cases write <;> rfl

theorem ask_watched (regs : RegisterFile) (notes : σ × List Transfer) :
    (m.watched.ask regs notes).2.2 = notes.2 := by
  obtain ⟨⟨instruction, _, _, _⟩, _⟩ := m
  cases instruction <;> rfl

theorem hearAll_watched (notes : σ × List Transfer) (reports : List Report) :
    (m.watched.hearAll notes reports).2 = notes.2 := by
  induction reports generalizing notes with
  | nil => rfl
  | cons report reports ih =>
    rw [hearAll, List.foldl_cons]
    refine (ih _).trans ?_
    obtain ⟨⟨_, retired, _, _⟩, _⟩ := m
    cases report with
    | notice _ => rfl
    | retired _ => cases retired <;> rfl

theorem watch_watched {β : Type} [Bus β] (access : Access) (bus : β)
    (notes : σ × List Transfer) :
    (m.watched.watch access (access.perform bus).1 notes).2 =
      notes.2 ++ [⟨access, (access.perform bus).1⟩] := by
  cases access <;> rfl

/-- What is listed is the operand that is moved. -/
theorem follow_watched {β : Type} [Bus β] {b : Board β (σ × List Transfer)} {event : Event}
    (answers : b.Answers event) :
    (m.watched.follow b.notes ⟨b.cpu, event⟩).2 =
      b.notes.2 ++ (⟨b.cpu, event⟩ : Occurrence).operands := by
  cases event with
  | announce => exact (m.ask_watched _ _).trans (List.append_nil _).symm
  | move _ | call _ => exact (m.hearAll_watched _ _).trans (List.append_nil _).symm
  | access byte =>
    obtain rfl := answers byte rfl
    refine (m.hearAll_watched _ _).trans ?_
    rw [Occurrence.operands]
    dsimp only
    split
    · exact m.watch_watched _ _ _
    · exact (List.append_nil _).symm

end Monitor

namespace Board

variable {β σ : Type} [Bus β]

/-- **One clock.** What is listed is the access of that clock, if it moves an operand. -/
theorem listed_clock (m : Monitor σ) (b : Board (Recorded β) (σ × List Transfer)) :
    ∃ made, (clock m.watched b).2.bus.transfers.toList = b.bus.transfers.toList ++ made ∧
      made.length = (clock m.watched b).1.accesses ∧
      (clock m.watched b).2.notes.2 = b.notes.2 ++ if b.cpu.ready.operandDue then made else [] := by
  have unlisted : (readied m.watched b).notes.2 = b.notes.2 := by
    have prepared := m.hearAll_watched b.notes b.cpu.prepare.reports
    rw [readied, asked]
    dsimp only
    split
    · exact (m.ask_watched _ _).trans prepared
    · exact prepared
  rw [clock_eq]
  split
  · refine ⟨[], (List.append_nil _).symm, rfl, ?_⟩
    rw [ite_self, List.append_nil]
    exact unlisted
  · refine ⟨_, Recorded.transfers_perform b.cpu.ready.access b.bus, rfl, ?_⟩
    refine (m.hearAll_watched _ _).trans ?_
    rw [← unlisted]
    split
    · exact m.watch_watched _ _ _
    · exact (List.append_nil _).symm

/-- The account is kept along a run, with the calls listed behind the earlier ones. -/
theorem keeps_account {contents : β → Ram} (ram : Bus.IsRam contents) (m : Monitor σ)
    (earlier expected : List Transfer) :
    Keeps m.watched fun opcodes (b : Board β (σ × List Transfer)) =>
      ∃ calls, b.notes.2 = earlier ++ calls ∧
        Account expected b.cpu (contents b.bus) opcodes calls := by
  rintro opcodes b event d ⟨calls, listed, account⟩ occurs answers
  have meets : (⟨b.cpu, event⟩ : Occurrence).Meets (contents b.bus) := fun byte access =>
    (answers byte access).trans (ram.answer _ _)
  have after : contents (b.follow m.watched event d).bus =
      (⟨b.cpu, event⟩ : Occurrence).contents (contents b.bus) := by
    cases event with
    | access byte => exact ram.kept _ _
    | _ => rfl
  refine ⟨calls ++ (⟨b.cpu, event⟩ : Occurrence).operands, ?_, ?_⟩
  · rw [← List.append_assoc, ← listed]
    exact m.follow_watched answers
  · rw [after]
    exact account.occurs occurs meets

end Board

/-- **Hooks for reads and writes see the operands, and nothing else.** Each call is made in the
clock of the access it is about, with its address and its byte. From the fetch of an instruction
to the fetch of the next, whichever instruction it is, however its address is formed, whatever the
lines do and whether the processor is held on the way or an interrupt is entered behind it, the
calls are its operand accesses in order. Whatever hooks are installed, the run is the same. -/
theorem watch_hooks_see_operands :
    (∀ {β σ : Type} [Bus β] (m : Monitor σ) (b : Board (Recorded β) (σ × List Transfer)),
      let after := Board.clock m.watched b
      ∃ made, after.2.bus.transfers.toList = b.bus.transfers.toList ++ made ∧
        made.length = after.1.accesses ∧
        after.2.notes.2 = b.notes.2 ++ if b.cpu.ready.operandDue then made else []) ∧
    (∀ {β σ : Type} [Bus β] {contents : β → Ram}, Bus.IsRam contents →
      ∀ (m : Monitor σ) (b : Board β (σ × List Transfer)) (n : Nat) (i : Instruction),
        Reachable anyCall b.cpu → b.cpu.FetchesNext →
        Encodes (contents b.bus) 0 b.cpu.regs.pc n i →
        ∀ lines : List Levels,
          let expected := i.operandTransfers (contents b.bus) b.cpu.regs
            (b.cpu.regs.pc + UInt16.ofNat n)
          let fetched := Board.opcodesFetched m.watched lines b
          let after := Board.clocks m.watched lines b
          ∃ calls, after.notes.2 = b.notes.2 ++ calls ∧
            (fetched ≤ 1 → calls <+: expected) ∧
            (fetched = 1 → after.cpu.FetchesNext → calls = expected)) ∧
    ∀ {β σ τ : Type} [Bus β] (m : Monitor σ) (read write : Option (Word → Byte → σ × τ → τ))
      (lines : List Levels) (b : Board β (σ × τ)),
      let after := Board.clocks (m.installing read write) lines b
      let unwatched := Board.clocks m.unwatched lines ⟨b.cpu, b.bus, b.notes.1⟩
      after.cpu = unwatched.cpu ∧ after.bus = unwatched.bus ∧ after.notes.1 = unwatched.notes := by
  refine ⟨fun m b => Board.listed_clock m b, ?_, ?_⟩
  · intro β σ _ contents ram m b n i reachable fetches encodes lines
    have start : Account _ b.cpu (contents b.bus) 0 [] :=
      .start reachable fetches ⟨n, i, encodes, rfl⟩
    obtain ⟨calls, listed, account⟩ := (Board.keeps_account ram m b.notes.2 _).clocks lines
      reachable.consistent ⟨[], (List.append_nil _).symm, start⟩
    have later := Reachable.clocks m.watched (fun _ => trivial) lines b reachable
    rw [Nat.zero_add] at account
    refine ⟨calls, listed, account.isPrefix, fun one next => ?_⟩
    rw [one] at account
    exact account.closed later next
  · intro β σ τ _ m read write lines b
    have same := (m.extends_installing read write).clocks lines b
    exact ⟨congrArg Board.cpu same, congrArg Board.bus same, congrArg Board.notes same⟩

/-- `INC ,X` is next, and interrupts are not masked. -/
def incrementing : Processor :=
  { Processor.powerOn.setPc 0x1000 with
    regs := { RegisterFile.powerOn with pc := 0x1000, x := 0x2000, s := 0x8000, cc := .none } }

/-- It is in memory, where there is nothing else to be executed but instructions of one byte. -/
def incrementingBoard : Board (Recorded Ram) (Unit × List Transfer) :=
  ⟨incrementing, ⟨Ram.overlay (fun _ => 0x12) 0x1000 [0x6C, 0x84], #[]⟩, ((), [])⟩

/-- An interrupt is asked for from the start. Twenty-five clocks later it has been entered, with
the instruction behind it. -/
def incrementedBoard : Board (Recorded Ram) (Unit × List Transfer) :=
  Board.clocks Monitor.silent.watched (.replicate 25 { Levels.low with irq := true })
    incrementingBoard

/-- Of all the accesses, those to the frame and the vector among them, two are seen: the byte is
read and written back. -/
theorem watch_hooks_see_operands_incrementing :
    incrementedBoard.cpu.regs.s = 0x8000 - 12 ∧ incrementedBoard.cpu.regs.pc = 0x1212 ∧
      incrementedBoard.bus.transfers.size = 25 ∧
      incrementedBoard.notes.2 = [⟨.read 0x2000, 0x12⟩, ⟨.write 0x2000 0x13, 0x13⟩] := by
  have reachable : Reachable anyCall incrementing :=
    .call (.registers incrementing.regs) trivial (.call (.setPc 0x1000) trivial .powerOn)
  have fetches : incrementing.FetchesNext := ⟨by decide +kernel, by decide +kernel⟩
  have encodes : Encodes incrementingBoard.bus.bus 0 0x1000 1 ⟨.unary .inc .memory, .indexed⟩ :=
    .of_decode (by decide +kernel) nofun
  obtain ⟨calls, listed, _, closed⟩ := watch_hooks_see_operands.2.1 Ram.isRam.recorded .silent
    incrementingBoard 1 _ reachable fetches encodes
    (.replicate 25 { Levels.low with irq := true })
  have same := closed (by decide +kernel) ⟨by decide +kernel, by decide +kernel⟩
  refine ⟨by decide +kernel, by decide +kernel, by decide +kernel, ?_⟩
  rw [incrementedBoard, listed, same]
  decide +kernel

end Sim6809
