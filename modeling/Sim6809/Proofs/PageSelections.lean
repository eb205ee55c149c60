/-
Page selections: any row of them acts as its first one.

Two bytes select an opcode page, and they do so on every page, so that a row of them may stand
before an opcode. The first selects; each of the others costs the cycle of its fetch and is
forgotten. One clock is one byte (`fetched_tick`), and between two of them the processor is at an
opcode fetch again, now with a page selected. That alone keeps the hook quiet, which is asked on
page 0 only, and keeps interrupts and HALT waiting, which are looked at when nothing is pending.
So the invariant of the row is that the next byte is due (`Fetched`), and rows are put together
with `Fetched.trans`.

The byte that ends the row is decoded on the page of the first one, and the page is forgotten.
What the opcode queued is all that is pending then. It starts with a bus cycle, and the clock ends
there, unless the opcode is one of those that lock the processor at once.
-/
import Sim6809.Proofs.Execution
import Sim6809.Proofs.Ledger

set_option autoImplicit false

namespace Sim6809

namespace Instruction

/-- The page that a selection selects. -/
def selected (byte : Byte) : Byte := if byte = 0x10 then 2 else 3

theorem op_of_selectsPage (page : Byte) {byte : Byte} (selects : selectsPage byte = true) :
    (decode page byte).op = .selectPage (selected byte) := by
  rw [← Operation.selects?_eq_some_iff, selects?_decode]
  rw [selectsPage, Bool.or_eq_true, beq_iff_eq, beq_iff_eq] at selects
  rcases selects with rfl | rfl <;> rfl

theorem op_ne_of_not_selectsPage (page : Byte) {byte : Byte} (other : selectsPage byte = false)
    (page' : Byte) : (decode page byte).op ≠ .selectPage page' := by
  intro selects
  have found := (selectsPage_iff page).2 ⟨page', selects⟩
  rw [other] at found
  cases found

theorem selected_byte_ne_zero (byte : Byte) : selected byte ≠ 0 := by
  unfold selected
  split <;> decide

/-- A slot that the page does not define is the one of page 0. -/
theorem decode_selected_of_undefined {first opcode : Byte}
    (undefined : (if first = 0x10 then page2 opcode else page3 opcode) = none) :
    decode (selected first) opcode = decode 0 opcode := by
  unfold selected
  split
  · next select =>
    rw [if_pos select] at undefined
    change (page2 opcode).getD (page0 opcode) = page0 opcode
    rw [undefined, Option.getD_none]
  · next select =>
    rw [if_neg select] at undefined
    change (page3 opcode).getD (page0 opcode) = page0 opcode
    rw [undefined, Option.getD_none]

/-- Every opcode queues a bus cycle first, but for those that lock the processor. -/
theorem program_starts (page opcode : Byte) (unlocked : (decode page opcode).op ≠ .lock) :
    ∃ cycle rest, (decode page opcode).program = .cycle cycle :: rest := by
  have table : (decode page opcode).op = .lock ∨
      (decode page opcode).program.head?.any (·.usesBus) = true :=
    decode_induction (P := fun i => i.op = .lock ∨ i.program.head?.any (·.usesBus) = true)
      (by decide +kernel) (by decide +kernel) (by decide +kernel) page opcode
  have starts := table.resolve_left unlocked
  cases program : (decode page opcode).program with
  | nil =>
    rw [program] at starts
    cases starts
  | cons op rest =>
    rw [program] at starts
    cases op with
    | cycle cycle => exact ⟨cycle, rest, rfl⟩
    | action action => cases starts

end Instruction

open Instruction

theorem Ram.Holds.front {ram : Ram} {base : Word} {front back : List Byte}
    (h : ram.Holds base (front ++ back)) : ram.Holds base front := by
  intro k inside
  rw [h k (List.length_append ▸ Nat.lt_add_right back.length inside),
    List.getElem_append_left inside]

theorem Ram.Holds.last {ram : Ram} {base : Word} {front : List Byte} {byte : Byte}
    (h : ram.Holds base (front ++ [byte])) : ram (base + UInt16.ofNat front.length) = byte := by
  rw [h front.length (by simp), List.getElem_concat_length rfl]

theorem RegisterFile.past_past (r : RegisterFile) (n k : Nat) :
    (r.past n).past k = r.past (n + k) := by
  simp only [past, UInt16.ofNat_add, UInt16.add_assoc]

/-- The reads that fetch these bytes. -/
def fetches : Word → List Byte → List Transfer
  | _, [] => []
  | pc, byte :: bytes => ⟨.read pc, byte⟩ :: fetches (pc + 1) bytes

theorem fetches_append (pc : Word) (front back : List Byte) :
    fetches pc (front ++ back) =
      fetches pc front ++ fetches (pc + UInt16.ofNat front.length) back := by
  induction front generalizing pc with
  | nil => exact congrArg (fetches · back) (UInt16.add_zero pc).symm
  | cons byte front ih =>
    have far : pc + 1 + UInt16.ofNat front.length = pc + UInt16.ofNat (front.length + 1) := by
      rw [UInt16.ofNat_add, UInt16.add_assoc, UInt16.add_comm 1]
      rfl
    rw [List.cons_append, fetches, ih, far]
    rfl

namespace Board

variable {σ : Type} {m : Monitor σ} {page : Byte} {b c d : Board (Recorded Memory) σ}

/-- The hook is asked on page 0 only. -/
theorem asksFirst_of_selected (selected : page ≠ 0) (h : b.cpu.AtOpcode page) :
    b.cpu.asksFirst = false := by
  have other : (b.cpu.page == 0) = false := by
    rw [h.page]
    exact beq_eq_false_iff_ne.2 selected
  rw [Processor.asksFirst, other, Bool.and_false, Bool.false_and]

theorem passes_of_selected (selected : page ≠ 0) (h : b.cpu.AtOpcode page) :
    b.cpu.asksFirst = true → (m.ask b.cpu.regs b.notes).1 = .proceed := by
  intro asks
  rw [asksFirst_of_selected selected h] at asks
  cases asks

/-- These bytes were fetched one after the other, and nothing else has happened: PC has moved,
and the hook was asked before the first of them if it was to be. -/
structure Passed (m : Monitor σ) (bytes : List Byte) (b c : Board (Recorded Memory) σ) :
    Prop where
  regs : c.cpu.regs = b.cpu.regs.past bytes.length
  notes : c.notes = asked m b.cpu b.notes
  ram : c.bus.bus.peek = b.bus.bus.peek
  transfers : c.bus.transfers.toList = b.bus.transfers.toList ++ fetches b.cpu.regs.pc bytes

theorem Passed.trans {front back : List Byte} (first : Passed m front b c)
    (unasked : c.cpu.asksFirst = false) (second : Passed m back c d) :
    Passed m (front ++ back) b d where
  regs := by rw [second.regs, first.regs, RegisterFile.past_past, List.length_append]
  notes := by rw [second.notes, asked, unasked, if_neg Bool.false_ne_true, first.notes]
  ram := second.ram.trans first.ram
  transfers := by
    rw [second.transfers, first.transfers, first.regs, fetches_append, List.append_assoc]

/-- These bytes were fetched, and another opcode fetch is due with this page selected. -/
structure Fetched (m : Monitor σ) (page : Byte) (bytes : List Byte)
    (b c : Board (Recorded Memory) σ) : Prop extends Passed m bytes b c where
  atOpcode : c.cpu.AtOpcode page

namespace Fetched

theorem refl (selected : page ≠ 0) (h : b.cpu.AtOpcode page) : Fetched m page [] b b where
  regs := by simp [RegisterFile.past]
  notes := by rw [asked, asksFirst_of_selected selected h, if_neg Bool.false_ne_true]
  ram := rfl
  transfers := (List.append_nil _).symm
  atOpcode := h

theorem trans {page' : Byte} {front back : List Byte} (first : Fetched m page front b c)
    (selected : page ≠ 0) (second : Fetched m page' back c d) :
    Fetched m page' (front ++ back) b d where
  toPassed := first.toPassed.trans (asksFirst_of_selected selected first.atOpcode) second.toPassed
  atOpcode := second.atOpcode

end Fetched

/-- These bytes were fetched, and the last of them is decoded as the opcode of an instruction of
which nothing is done. -/
structure Opened (m : Monitor σ) (i : Instruction) (bytes : List Byte)
    (b d : Board (Recorded Memory) σ) : Prop extends Passed m bytes b d where
  decoded : d.cpu.Decoded i d.cpu.regs
  announced : d.cpu.announced = false

/-- Where the opcode does not lock the processor, a bus cycle is due, and no work before it. -/
theorem Opened.settled_eq {opcode : Byte} {bytes : List Byte}
    (h : Opened m (decode page opcode) bytes b d) (unlocked : (decode page opcode).op ≠ .lock) :
    settled m d = d := by
  obtain ⟨cycle, rest, program⟩ := program_starts page opcode unlocked
  exact settled_of_rest
    (Processor.move?_of_cycle h.decoded.consistent (h.decoded.pending.trans program))

/-! ### One byte -/

/-- The clock of an opcode fetch. -/
theorem tick_of_due (h : b.cpu.AtOpcode page)
    (passes : b.cpu.asksFirst = true → (m.ask b.cpu.regs b.notes).1 = .proceed)
    (levels : Levels) :
    ∃ e, tick m (b.withLevels levels) = settled m ⟨Processor.carryOut e .fetchOpcode
        (b.bus.bus.peek b.cpu.regs.pc), (Bus.read b.bus b.cpu.regs.pc).2, asked m b.cpu b.notes⟩ ∧
      e.AtOpcode page ∧ e.regs = b.cpu.regs := by
  have driven : (b.cpu.withLevels levels).AtOpcode page :=
    ⟨h.consistent, h.pending, h.phase, h.page⟩
  have passes' : (b.cpu.withLevels levels).asksFirst = true →
      (m.ask (b.cpu.withLevels levels).regs b.notes).1 = .proceed := passes
  obtain ⟨announced, made⟩ := clock_of_fetch b.bus passes' driven
  refine ⟨{ b.cpu.withLevels levels with announced := announced }, ?_, ?_, rfl⟩
  · exact congrArg Prod.snd made
  · exact ⟨h.consistent, h.pending, h.phase, h.page⟩

/-- A read is recorded, and memory stays. -/
theorem read_recorded (bus : Recorded Memory) (address : Word) :
    (Bus.read bus address).2.bus.peek = bus.bus.peek ∧
      (Bus.read bus address).2.transfers.toList =
        bus.transfers.toList ++ fetches address [bus.bus.peek address] :=
  ⟨rfl, Recorded.transfers_perform (.read address) bus⟩

/-- A selection that is due is fetched, and another byte is due. -/
theorem fetched_tick (h : b.cpu.AtOpcode page)
    (passes : b.cpu.asksFirst = true → (m.ask b.cpu.regs b.notes).1 = .proceed) {byte : Byte}
    (here : b.bus.bus.peek b.cpu.regs.pc = byte) (selects : selectsPage byte = true)
    (levels : Levels) :
    Fetched m (if page = 0 then selected byte else page) [byte] b
      (tick m (b.withLevels levels)) := by
  obtain ⟨e, made, start, same⟩ := tick_of_due h passes levels
  obtain ⟨next, moved⟩ := Processor.atOpcode_carryOut start (op_of_selectsPage page selects)
  obtain ⟨ram, transfers⟩ := read_recorded b.bus b.cpu.regs.pc
  rw [here] at made transfers
  rw [settled_of_rest (Processor.move?_of_cycle next.consistent next.pending)] at made
  rw [made]
  exact ⟨⟨moved.trans (by rw [same]; rfl), rfl, ram, transfers⟩, next⟩

/-- Once a page is selected, a row of selections is passed over. -/
theorem fetched_clocks (selected : page ≠ 0) {bytes : List Byte}
    (selections : ∀ byte ∈ bytes, selectsPage byte = true) (h : b.cpu.AtOpcode page)
    (stored : Ram.Holds b.bus.bus.peek b.cpu.regs.pc bytes) {lines : List Levels}
    (length : lines.length = bytes.length) : Fetched m page bytes b (clocks m lines b) := by
  induction bytes generalizing b lines with
  | nil =>
    rw [List.length_eq_zero_iff.1 length]
    exact .refl selected h
  | cons byte bytes ih =>
    obtain ⟨levels, lines, rfl⟩ := List.exists_cons_of_length_eq_add_one length
    obtain ⟨first, rest⟩ := List.forall_mem_cons.1 selections
    have now := fetched_tick (m := m) h (passes_of_selected selected h) stored.head first levels
    rw [if_neg selected] at now
    have later := ih rest now.atOpcode (by rw [now.ram, now.regs]; exact stored.tail)
      (Nat.succ.inj length)
    exact now.trans selected later

/-- Any other byte that is due is the opcode. -/
theorem opened_tick (h : b.cpu.AtOpcode page)
    (passes : b.cpu.asksFirst = true → (m.ask b.cpu.regs b.notes).1 = .proceed) {opcode : Byte}
    (here : b.bus.bus.peek b.cpu.regs.pc = opcode) (final : selectsPage opcode = false)
    (levels : Levels) :
    ∃ d, tick m (b.withLevels levels) = settled m d ∧
      Opened m (decode page opcode) [opcode] b d := by
  obtain ⟨e, made, start, same⟩ := tick_of_due h passes levels
  have decoded := Processor.decoded_carryOut start (op_ne_of_not_selectsPage page final)
  obtain ⟨ram, transfers⟩ := read_recorded b.bus b.cpu.regs.pc
  rw [here] at made transfers
  have regs := decoded.regs
  rw [← regs] at decoded
  rw [same] at regs
  refine ⟨_, made, ⟨regs, rfl, ram, transfers⟩, decoded, ?_⟩
  obtain rfl := start.page
  rw [Processor.carryOut, Processor.absorb, Processor.absorbOpcode_of_final
    { e.clocked with schedule := e.schedule.advance } (op_ne_of_not_selectsPage e.page final)]
  rfl

/-! ### The row -/

/-- The first selection selects, and the others are passed over. -/
theorem fetched_row (start : b.cpu.AtOpcode 0)
    (passes : b.cpu.asksFirst = true → (m.ask b.cpu.regs b.notes).1 = .proceed)
    {first : Byte} {others : List Byte}
    (selections : ∀ byte ∈ first :: others, selectsPage byte = true)
    (stored : Ram.Holds b.bus.bus.peek b.cpu.regs.pc (first :: others))
    {lines : List Levels} (length : lines.length = others.length + 1) :
    Fetched m (selected first) (first :: others) b (clocks m lines b) := by
  obtain ⟨levels, lines, rfl⟩ := List.exists_cons_of_length_eq_add_one length
  obtain ⟨selects, rest⟩ := List.forall_mem_cons.1 selections
  have now : Fetched m (selected first) [first] b (tick m (b.withLevels levels)) :=
    fetched_tick start passes stored.head selects levels
  have later := fetched_clocks (m := m) (selected_byte_ne_zero first) rest now.atOpcode
    (by rw [now.ram, now.regs]; exact stored.tail) (Nat.succ.inj length)
  exact now.trans (selected_byte_ne_zero first) later

/-- **A row of page selections acts as its first one.** At a boundary (`atOpcode_of_reachable`)
where the hook does not hold the processor, let bytes that select a page lie in memory with
another byte behind them. Whatever is driven on the lines, every clock fetches the next byte; PC
alone moves, and the hook is asked before the first fetch at most. Up to the last selection an
opcode fetch is due, on the page that the first one selected. With the byte behind them the
instruction of this page is decoded, no page is selected any more, the next instruction is still
to be announced, and the steps of this one are all that is pending. What takes no time follows at
once; there is nothing of that kind unless the instruction locks the processor. A slot that the
page leaves undefined is the one of page 0. -/
theorem first_selection_counts (start : b.cpu.AtOpcode 0)
    (passes : b.cpu.asksFirst = true → (m.ask b.cpu.regs b.notes).1 = .proceed)
    {first opcode : Byte} {others : List Byte}
    (selections : ∀ byte ∈ first :: others, selectsPage byte = true)
    (final : selectsPage opcode = false)
    (stored : Ram.Holds b.bus.bus.peek b.cpu.regs.pc (first :: others ++ [opcode]))
    {lines : List Levels} (length : lines.length = others.length + 2) :
    let page := selected first
    let i := decode page opcode
    (∀ k, 0 < k → k ≤ others.length + 1 →
      Fetched m page ((first :: others).take k) b (clocks m (lines.take k) b)) ∧
    (∃ d, clocks m lines b = settled m d ∧ Opened m i (first :: others ++ [opcode]) b d ∧
      (i.op ≠ .lock → clocks m lines b = d)) ∧
    ((if first = 0x10 then page2 opcode else page3 opcode) = none → i = decode 0 opcode) := by
  intro page i
  refine ⟨?rows, ?opcode, decode_selected_of_undefined⟩
  case rows =>
    intro k pos bound
    obtain ⟨k, rfl⟩ := Nat.exists_eq_add_one_of_ne_zero (Nat.ne_of_gt pos)
    have before : Ram.Holds b.bus.bus.peek b.cpu.regs.pc (first :: others.take k) := by
      have parts : first :: others = first :: others.take k ++ others.drop k := by
        rw [List.cons_append, List.take_append_drop]
      have row := stored.front
      rw [parts] at row
      exact row.front
    refine fetched_row start passes ?_ before ?_
    · intro byte mem
      exact selections byte (List.mem_of_mem_take (i := k + 1) mem)
    · rw [List.length_take, List.length_take, length]
      omega
  case opcode =>
    obtain ⟨front, back, rfl, front_length, back_length⟩ :=
      exists_append_of_length (n := others.length + 1) (k := 1) length
    obtain ⟨levels, rfl⟩ := List.length_eq_one_iff.1 back_length
    have row := fetched_row (m := m) start passes selections stored.front front_length
    have here : (clocks m front b).bus.bus.peek (clocks m front b).cpu.regs.pc = opcode := by
      rw [row.ram, row.regs]
      exact stored.last
    have selected := selected_byte_ne_zero first
    obtain ⟨d, made, opened⟩ := opened_tick row.atOpcode (passes_of_selected selected row.atOpcode)
      here final levels
    have all : clocks m (front ++ [levels]) b = settled m d :=
      (clocks_append m front _ b).trans made
    have whole : Opened m i (first :: others ++ [opcode]) b d :=
      ⟨row.toPassed.trans (asksFirst_of_selected selected row.atOpcode) opened.toPassed,
        opened.decoded, opened.announced⟩
    exact ⟨d, all, whole, fun unlocked => all.trans (whole.settled_eq unlocked)⟩

/-- A hook that lets the first fetch pass and no other, and counts how often it is asked. -/
def passingOnce : Monitor Nat where
  hooks := { Hooks.none with
    instruction := some fun _ asked => (if asked = 0 then .proceed else .hold, asked + 1) }
  log := fun _ asked => asked

/-- Page 2 is selected and then page 3, with every line driven, and what is decoded is `CMPY`. -/
theorem first_selection_counts_cmpy :
    ∃ (b d : Board (Recorded Memory) Nat),
      Ram.Holds b.bus.bus.peek 0x1000 [0x10, 0x11, 0x8C] ∧
      b.cpu = Processor.powerOn.setPc 0x1000 ∧ b.notes = 0 ∧
      d = clocks passingOnce [.low, ⟨true, true, true, true⟩, .low] b ∧
      d.cpu.instruction = ⟨.word .cmp .y, .immediate⟩ ∧ d.cpu.regs.pc = 0x1003 ∧ d.cpu.page = 0 ∧
      d.notes = 1 := by
  let mem := ((Memory.blank.poke 0x1000 0x10).poke 0x1001 0x11).poke 0x1002 0x8C
  have bytes : mem.peek 0x1000 = 0x10 ∧ mem.peek 0x1001 = 0x11 ∧ mem.peek 0x1002 = 0x8C := by
    simp only [mem, Memory.peek_poke]
    decide
  let b : Board (Recorded Memory) Nat := ⟨Processor.powerOn.setPc 0x1000, ⟨mem, #[]⟩, 0⟩
  have start : b.cpu.AtOpcode 0 := Processor.atOpcode_setPc _ _
  have stored : Ram.Holds b.bus.bus.peek b.cpu.regs.pc (0x10 :: [0x11] ++ [0x8C]) := by
    intro k inside
    match k, inside with
    | 0, _ => exact bytes.1
    | 1, _ => exact bytes.2.1
    | 2, _ => exact bytes.2.2
  have length : [Levels.low, ⟨true, true, true, true⟩, .low].length = [0x11].length + 2 := rfl
  obtain ⟨-, ⟨d, -, opened, unlocked⟩, -⟩ := first_selection_counts (m := passingOnce) start
    (fun _ => rfl) (by decide +kernel) (by decide) stored length
  have decoded := opened.decoded
  refine ⟨b, d, stored, rfl, rfl, (unlocked (by decide)).symm, ?_, ?_, decoded.page, opened.notes⟩
  · exact decoded.instruction.trans (by decide)
  · rw [opened.regs]
    decide

end Board

end Sim6809
