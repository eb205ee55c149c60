/-
Register lists: what a push leaves in memory, and what a pull takes back.

PSH and PUL name registers by the bits of a byte, and each has a table of its own that says in
which order the bytes go. Here a list is read the way a programmer reads it, once for memory
(`image`) and once for registers (`restored`). The two tables are the reverse of each other, and
so both instructions are about the image.

A list of parts is copied part by part (`RegisterFile.copied`), and what a bit stands for is
copied whole: that is one lemma for each kind of register, and the registers after a pull are put
together from them.
-/
import Sim6809.Proofs.Execution

set_option autoImplicit false

namespace Sim6809

namespace RegisterList

/-- The first if the list has a bit, the second otherwise. -/
def pick {α : Type} (list bit : Byte) (chosen other : α) : α :=
  if list &&& bit != 0 then chosen else other

/-- The bytes that a list pushes, lowest address first. -/
def image (stack : Stack) (list : Byte) (r : RegisterFile) : List Byte :=
  let word (bit : Byte) (w : Word) := pick list bit [Word.high w, Word.low w] []
  pick list 0x01 [r.cc.toByte] [] ++ pick list 0x02 [r.a] [] ++ pick list 0x04 [r.b] [] ++
    pick list 0x08 [r.dp] [] ++ word 0x10 r.x ++ word 0x20 r.y ++
    word 0x40 (r.word stack.other) ++ word 0x80 r.pc

/-- The registers after a pull. Those in the list, and the pointer to the stack, are as they were
when they were pushed; the others are kept. -/
def restored (stack : Stack) (list : Byte) (pushed kept : RegisterFile) : RegisterFile where
  d := Word.ofBytes (pick list 0x02 pushed.a kept.a) (pick list 0x04 pushed.b kept.b)
  x := pick list 0x10 pushed.x kept.x
  y := pick list 0x20 pushed.y kept.y
  u := match stack with
    | .s => pick list 0x40 pushed.u kept.u
    | .u => pushed.u
  s := match stack with
    | .s => pushed.s
    | .u => pick list 0x40 pushed.s kept.s
  pc := pick list 0x80 pushed.pc kept.pc
  dp := pick list 0x08 pushed.dp kept.dp
  cc := pick list 0x01 pushed.cc kept.cc

/-! ## The two tables -/

theorem pushOrder_eq_reverse (stack : Stack) : pushOrder stack = (pullOrder stack).reverse := by
  cases stack <;> rfl

/-- What is pulled first was pushed last. -/
theorem selected_pushOrder (stack : Stack) (list : Byte) :
    selected (pushOrder stack) list = (selected (pullOrder stack) list).reverse := by
  rw [selected, selected, pushOrder_eq_reverse, List.filter_reverse, List.map_reverse]

theorem map_pick {α β : Type} (f : α → β) (list bit : Byte) (chosen : List α) :
    (pick list bit chosen []).map f = pick list bit (chosen.map f) [] := by
  unfold pick
  split <;> rfl

theorem selected_cons (bit : Byte) (part : Part) (order : List (Byte × Part)) (list : Byte) :
    selected ((bit, part) :: order) list = pick list bit [part] [] ++ selected order list := by
  by_cases has : (list &&& bit != 0) = true <;> simp [selected, pick, has]

/-- Both halves of a word go together. -/
theorem selected_word (bit : Byte) (high low : Part) (order : List (Byte × Part)) (list : Byte) :
    selected ((bit, high) :: (bit, low) :: order) list =
      pick list bit [high, low] [] ++ selected order list := by
  by_cases has : (list &&& bit != 0) = true <;> simp [selected, pick, has]

/-- The pulls of a list, bit by bit. -/
theorem selected_pullOrder (stack : Stack) (list : Byte) :
    let byte (bit : Byte) (part : Part) := pick list bit [part] []
    let word (bit : Byte) (register : Pointer) :=
      pick list bit [Part.high register, Part.low register] []
    selected (pullOrder stack) list =
      byte 0x01 .cc ++ (byte 0x02 .a ++ (byte 0x04 .b ++ (byte 0x08 .dp ++ (word 0x10 .x ++
        (word 0x20 .y ++ (word 0x40 (otherPointer stack) ++ word 0x80 .pc)))))) := by
  simp only [pullOrder, selected_cons 0x01, selected_cons 0x02, selected_cons 0x04,
    selected_cons 0x08, selected_word]
  rw [show selected [] list = [] from rfl, List.append_nil]

theorem image_eq (stack : Stack) (list : Byte) (r : RegisterFile) :
    image stack list r = (selected (pullOrder stack) list).map r.part := by
  have other : r.pointer (otherPointer stack) = r.word stack.other := by
    cases stack <;> rfl
  simp only [selected_pullOrder, List.map_append, map_pick, image, List.append_assoc,
    List.map_cons, List.map_nil, RegisterFile.part, other]
  rfl

theorem length_image (stack : Stack) (list : Byte) (r : RegisterFile) :
    (image stack list r).length = bytes list := by
  rw [image_eq, List.length_map, length_selected (Or.inr rfl)]

/-- The full list leaves a full frame, but for E, which is not set. -/
theorem image_full (r : RegisterFile) :
    image .s 0xFF r = r.cc.toByte :: (Frame.image true r).tail := by
  rfl

/-- A stack does not stack its own pointer. -/
theorem apart_of_selected {stack : Stack} {list : Byte} {part : Part}
    (mem : part ∈ selected (pullOrder stack) list) : part.Apart stack := by
  have table : ∀ entry ∈ pullOrder stack, entry.2.Apart stack := by
    cases stack <;> decide
  obtain ⟨entry, chosen, rfl⟩ := List.mem_map.1 mem
  exact table entry (List.mem_filter.1 chosen).1

/-! ## What a pull copies -/

section

variable (q pushed : RegisterFile) (list : Byte)

theorem copied_append (front back : List Part) :
    q.copied pushed (front ++ back) = (q.copied pushed front).copied pushed back :=
  List.foldl_append

theorem copied_flags (bit : Byte) :
    q.copied pushed (pick list bit [.cc] []) = { q with cc := pick list bit pushed.cc q.cc } := by
  unfold pick
  split
  · simp [RegisterFile.copied, RegisterFile.setPart, RegisterFile.part]
  · rfl

theorem copied_page (bit : Byte) :
    q.copied pushed (pick list bit [.dp] []) = { q with dp := pick list bit pushed.dp q.dp } := by
  unfold pick
  split <;> rfl

theorem copied_a (bit : Byte) :
    q.copied pushed (pick list bit [.a] []) = q.setA (pick list bit pushed.a q.a) := by
  unfold pick
  split
  · rfl
  · exact (RegisterFile.setPart_part q .a).symm

theorem copied_b (bit : Byte) :
    q.copied pushed (pick list bit [.b] []) = q.setB (pick list bit pushed.b q.b) := by
  unfold pick
  split
  · rfl
  · exact (RegisterFile.setPart_part q .b).symm

theorem copied_word (bit : Byte) (register : Pointer) :
    q.copied pushed (pick list bit [.high register, .low register] []) =
      q.setPointer register (pick list bit (pushed.pointer register) (q.pointer register)) := by
  unfold pick
  split
  · cases register <;>
      simp [RegisterFile.copied, RegisterFile.setPart, RegisterFile.part,
        RegisterFile.setPointer, RegisterFile.pointer, Word.withHigh, Word.withLow]
  · cases register <;> rfl

end

/-- The parts of a list copied one by one, and the stack pointer back where it was. -/
theorem copied_selected (stack : Stack) (list : Byte) (pushed kept : RegisterFile) :
    (kept.copied pushed (selected (pullOrder stack) list)).setStack stack (pushed.stack stack) =
      restored stack list pushed kept := by
  simp only [selected_pullOrder, copied_append, copied_flags, copied_page, copied_a, copied_b,
    copied_word]
  cases stack <;>
    simp [restored, otherPointer, Stack.other, RegisterFile.setPointer, RegisterFile.pointer,
      RegisterFile.setStack, RegisterFile.stack, RegisterFile.setA, RegisterFile.setB,
      RegisterFile.b, RegisterFile.a, Word.withHigh, Word.withLow]

end RegisterList

/-! ## The two instructions -/

open RegisterList

section

variable (stack : Stack) (list : Byte) (c : Processor) (ram : Ram)

/-- The list is fetched first. What comes before the transfers only looks around. -/
theorem enact_listOperand (rest : List MicroOp)
    (idle : ∀ d : Processor, enactAll rest (d, ram) = (d, ram)) :
    ∃ d : Processor, enactAll (.cycle .fetchOperand :: rest) (c, ram) = (d, ram) ∧
      d.instruction = c.instruction ∧ d.regs = { c.regs with pc := c.regs.pc + 1 } ∧
      Word.low d.data = ram c.regs.pc := by
  obtain ⟨data, fetched, latched⟩ := enact_byteOperand c ram
  rw [← List.singleton_append, enactAll_append, fetched, idle]
  exact ⟨_, rfl, rfl, rfl, latched⟩

/-- A push lays the image below the stack pointer. -/
theorem enact_pushProgram :
    enactAll (pushProgram stack list) (c, ram) =
      ({ c with regs := c.regs.setStack stack (c.regs.stack stack - UInt16.ofNat (bytes list)) },
        ram.overlay (c.regs.stack stack - UInt16.ofNat (bytes list))
          (image stack list c.regs)) := by
  have off : ∀ part ∈ selected (pushOrder stack) list, part.Apart stack := by
    intro part mem
    rw [selected_pushOrder] at mem
    exact apart_of_selected (List.mem_reverse.1 mem)
  have pushed := enact_pushes stack off c ram []
  have laid : ((selected (pushOrder stack) list).map c.regs.part).reverse ++ [] =
      image stack list c.regs := by
    rw [List.append_nil, selected_pushOrder, List.map_reverse, List.reverse_reverse, image_eq]
  rw [length_selected (Or.inl rfl), laid, Ram.overlay_nil] at pushed
  exact pushed

/-- A pull that finds the image puts the registers back that are in it. -/
theorem enact_pullProgram {pushed : RegisterFile}
    (bottom : c.regs.stack stack = pushed.stack stack - UInt16.ofNat (bytes list))
    (found : ram.Holds (c.regs.stack stack) (image stack list pushed)) :
    seen (enactAll (pullProgram stack list) (c, ram)) =
      (restored stack list pushed c.regs, ram) := by
  rw [image_eq] at found
  obtain ⟨inputs, pulled⟩ :=
    enact_pulls stack (fun _ => apart_of_selected) c ram pushed found
  have top : c.regs.stack stack + UInt16.ofNat (bytes list) = pushed.stack stack := by
    rw [bottom, UInt16.sub_add_cancel]
  rw [length_selected (Or.inr rfl), top, copied_selected] at pulled
  rw [pullProgram, enactAll_append, pulled]
  rfl

end

section

open Board

variable {σ : Type} {m : Monitor σ} {b : Board Memory σ} {n : Nat} {stack : Stack}

theorem Encodes.executes_push
    (encoded : Encodes b.bus.peek 0 b.cpu.regs.pc n ⟨.push stack, .immediate⟩)
    (proceeds : m.Proceeds) (start : b.cpu.AtOpcode 0) {list : Byte}
    (operand : b.bus.peek (b.cpu.regs.past n).pc = list) {r : RegisterFile}
    (next : b.cpu.regs.past (n + 1) = r) :
    b.Executes m (n + (4 + bytes list))
      (r.setStack stack (r.stack stack - UInt16.ofNat (bytes list)))
      (Ram.overlay b.bus.peek (r.stack stack - UInt16.ofNat (bytes list))
        (image stack list r)) := by
  refine encoded.executes_grown proceeds start
    [.cycle .fetchOperand, .cycle .dummy, .cycle .dummy, .cycle (.peekStack stack)] rfl
    (by simp [Straight, MicroOp.straight, MicroOp.queues]) ?_
  intro c instruction regs
  obtain ⟨d, fetched, op, regs', latched⟩ := enact_listOperand c b.bus.peek
    [.cycle .dummy, .cycle .dummy, .cycle (.peekStack stack)] (fun _ => rfl)
  rw [regs, RegisterFile.past_succ, next] at regs'
  rw [regs, operand] at latched
  have push : d.instruction.op = .push stack := by rw [op, instruction]
  have growth : d.growth = pushProgram stack list := by rw [Processor.growth, push, ← latched]
  have effect : d.effect = d := by rw [Processor.effect, push]
  refine ⟨d, b.bus.peek, fetched, ?_, ?_⟩
  · rw [growth, pushProgram, List.length_map, length_selected (Or.inl rfl)]
    rfl
  · rw [growth, effect, enact_pushProgram, regs']
    rfl

theorem Encodes.executes_pull
    (encoded : Encodes b.bus.peek 0 b.cpu.regs.pc n ⟨.pull stack, .immediate⟩)
    (proceeds : m.Proceeds) (start : b.cpu.AtOpcode 0) {list : Byte}
    (operand : b.bus.peek (b.cpu.regs.past n).pc = list) {pushed : RegisterFile}
    (bottom : b.cpu.regs.stack stack = pushed.stack stack - UInt16.ofNat (bytes list))
    (found : Ram.Holds b.bus.peek (b.cpu.regs.stack stack) (image stack list pushed)) :
    b.Executes m (n + (4 + bytes list))
      (restored stack list pushed (b.cpu.regs.past (n + 1))) b.bus.peek := by
  refine encoded.executes_grown proceeds start
    [.cycle .fetchOperand, .cycle .dummy, .cycle .dummy] rfl
    (by simp [Straight, MicroOp.straight, MicroOp.queues]) ?_
  intro c instruction regs
  obtain ⟨d, fetched, op, regs', latched⟩ := enact_listOperand c b.bus.peek
    [.cycle .dummy, .cycle .dummy] (fun _ => rfl)
  rw [regs, RegisterFile.past_succ] at regs'
  rw [regs, operand] at latched
  have pull : d.instruction.op = .pull stack := by rw [op, instruction]
  have growth : d.growth = pullProgram stack list := by rw [Processor.growth, pull, ← latched]
  have effect : d.effect = d := by rw [Processor.effect, pull]
  have same : d.regs.stack stack = b.cpu.regs.stack stack := by
    rw [regs']
    cases stack <;> rfl
  refine ⟨d, b.bus.peek, fetched, ?_, ?_⟩
  · rw [growth, pullProgram, List.length_append, List.length_map, length_selected (Or.inr rfl),
      List.length_singleton]
    change 3 + (bytes list + 1) = _
    omega
  · rw [growth, effect, enact_pullProgram stack list d b.bus.peek (same.trans bottom)
      (by rw [same]; exact found), regs']

/-- **What is pushed can be pulled.** From a boundary, with any registers and memory, PSH leaves the
bytes of its list below the stack pointer, moves the pointer down by their number, and changes
nothing else; with the full list on the hardware stack they lie as in a frame. From any later
boundary at which the stack pointer and these bytes are the same, PUL with the same list puts the
registers of the list back as they were, with PC right behind the PSH, and the pointer as well; the
other registers it keeps. The lines do not matter, in either of the two. -/
theorem push_pull_round_trip {σ : Type} {m : Monitor σ} (proceeds : m.Proceeds)
    (b : Board Memory σ) (start : b.cpu.AtOpcode 0) {n : Nat} {i : Instruction}
    (encoded : Encodes b.bus.peek 0 b.cpu.regs.pc n i) {stack : Stack} (push : i.op = .push stack) :
    let list := b.bus.peek (b.cpu.regs.past n).pc
    let r := b.cpu.regs.past (n + 1)
    let bottom := r.stack stack - UInt16.ofNat (bytes list)
    b.Executes m (n + (4 + bytes list)) (r.setStack stack bottom)
        (Ram.overlay b.bus.peek bottom (image stack list r)) ∧
      (image stack list r).length = bytes list ∧
      (stack = .s → list = 0xFF →
        image stack list r = r.cc.toByte :: (Frame.image true r).tail) ∧
      ∀ {τ : Type} {w : Monitor τ} (later : Board Memory τ) {k : Nat} {j : Instruction},
        w.Proceeds → later.cpu.AtOpcode 0 →
        Encodes later.bus.peek 0 later.cpu.regs.pc k j → j.op = .pull stack →
        later.bus.peek (later.cpu.regs.past k).pc = list →
        later.cpu.regs.stack stack = bottom →
        Ram.Holds later.bus.peek bottom (image stack list r) →
        later.Executes w (k + (4 + bytes list))
          (restored stack list r (later.cpu.regs.past (k + 1))) later.bus.peek := by
  intro list r bottom
  obtain rfl := encoded.eq_of_modes push rfl
  refine ⟨encoded.executes_push proceeds start rfl rfl, length_image stack list r, ?_, ?_⟩
  · rintro rfl full
    rw [full]
    exact image_full r
  · intro τ w later k j proceeds' start' encoded' pull same top found
    obtain rfl := encoded'.eq_of_modes pull rfl
    exact encoded'.executes_pull proceeds' start' same top (by rw [top]; exact found)

/-- Registers of which no two bytes are the same. -/
def beforePush : RegisterFile :=
  { d := 0x1122, x := 0x3344, y := 0x5566, u := 0x7780, s := 0x99AA, pc := 0x1000, dp := 0xBB
    cc := .ofByte 0x51 }

/-- Others, of which only U is where the push leaves it. -/
def beforePull : RegisterFile :=
  { d := 0xA1B2, x := 0xC3D4, y := 0xE5F6, u := 0x777D, s := 0x0708, pc := 0x1002, dp := 0x09
    cc := .ofByte 0x0A }

/-- `PSHU A,S`, and with all registers changed `PULU A,S`. A, U and S come back, and B stays as it
was before the pull. -/
theorem push_pull_round_trip_pshu :
    ∃ (mem : Memory) (before pushed after : Board Memory Unit),
      (mem.peek 0x1000 = 0x36 ∧ mem.peek 0x1001 = 0x42 ∧ mem.peek 0x1002 = 0x37 ∧
        mem.peek 0x1003 = 0x42) ∧
      before = ⟨{ Processor.powerOn with regs := beforePush }.setPc 0x1000, mem, ()⟩ ∧
      pushed = Board.clocks .silent (lows 8) before ∧
      pushed.cpu.regs = { beforePush with pc := 0x1002, u := 0x777D } ∧
      Ram.Holds pushed.bus.peek 0x777D [0x11, 0x99, 0xAA] ∧
      after = Board.clocks .silent (lows 8)
        { pushed with cpu := { pushed.cpu with regs := beforePull } } ∧
      after.cpu.regs = { beforePull with d := 0x11B2, u := 0x7780, s := 0x99AA, pc := 0x1004 } ∧
      after.bus.peek = pushed.bus.peek := by
  let mem := (((Memory.blank.poke 0x1000 0x36).poke 0x1001 0x42).poke 0x1002 0x37).poke 0x1003 0x42
  obtain ⟨first, second, third, fourth⟩ : mem.peek 0x1000 = 0x36 ∧ mem.peek 0x1001 = 0x42 ∧
      mem.peek 0x1002 = 0x37 ∧ mem.peek 0x1003 = 0x42 := by
    simp [mem, Memory.peek_poke]
  let b : Board Memory Unit := ⟨{ Processor.powerOn with regs := beforePush }.setPc 0x1000, mem, ()⟩
  have start : b.cpu.AtOpcode 0 := Processor.atOpcode_setPc _ _
  have pushes : Instruction.decode 0 (mem.peek 0x1000) = ⟨.push .u, .immediate⟩ := by
    rw [first]
    decide
  obtain ⟨executes, _, _, pulls⟩ := push_pull_round_trip (m := .silent) (fun _ _ => rfl) b
    start (.of_decode pushes (by rintro _ ⟨⟩)) rfl
  have list : b.bus.peek (b.cpu.regs.past 1).pc = 0x42 := second
  have registers : b.cpu.regs = beforePush := by decide
  have bottom : (beforePush.past 2).stack .u - UInt16.ofNat (bytes 0x42) = 0x777D := by decide
  have content : image .u 0x42 (beforePush.past 2) = [0x11, 0x99, 0xAA] := by decide
  rw [list] at executes pulls
  rw [registers, bottom, content] at executes pulls
  have done := executes (lows 8) rfl
  have boundary : (Board.clocks .silent (lows 8) b).cpu.AtOpcode 0 :=
    executes.atOpcode ⟨rfl, rfl, rfl⟩
  generalize reached : Board.clocks .silent (lows 8) b = pushed at done boundary
  have below : Ram.Holds pushed.bus.peek 0x777D [0x11, 0x99, 0xAA] := by
    rw [done.ram]
    exact Ram.Holds.overlay _ _ (by decide)
  have kept (address : Word) (outside : 3 ≤ (address - 0x777D).toNat) :
      pushed.bus.peek address = mem.peek address := by
    rw [done.ram]
    exact Ram.overlay_of_outside _ outside
  -- The host changes the registers in between, and PUL starts from these.
  let later : Board Memory Unit := { pushed with cpu := { pushed.cpu with regs := beforePull } }
  have pulling : Instruction.decode 0 (later.bus.peek later.cpu.regs.pc) =
      ⟨.pull .u, .immediate⟩ := by
    change Instruction.decode 0 (pushed.bus.peek 0x1002) = _
    rw [kept _ (by decide), third]
    decide
  have ready : later.cpu.AtOpcode 0 :=
    ⟨boundary.consistent, boundary.pending, boundary.phase, boundary.page⟩
  have operand : later.bus.peek (later.cpu.regs.past 1).pc = 0x42 := by
    change pushed.bus.peek 0x1003 = _
    rw [kept _ (by decide), fourth]
  have found : Ram.Holds later.bus.peek 0x777D [0x11, 0x99, 0xAA] := below
  have pulled := pulls (w := .silent) later (fun _ _ => rfl) ready
    (.of_decode pulling (by rintro _ ⟨⟩)) rfl operand rfl found (lows 8) rfl
  have moved : (beforePush.past 2).setStack .u 0x777D =
      { beforePush with pc := 0x1002, u := 0x777D } := by
    decide
  have both : restored .u 0x42 (beforePush.past 2) (beforePull.past 2) =
      { beforePull with d := 0x11B2, u := 0x7780, s := 0x99AA, pc := 0x1004 } := by
    decide
  exact ⟨mem, b, pushed, Board.clocks .silent (lows 8) later, ⟨first, second, third, fourth⟩, rfl,
    reached.symm, done.regs.trans moved, below, rfl, pulled.regs.trans both, pulled.ram⟩

end

end Sim6809
