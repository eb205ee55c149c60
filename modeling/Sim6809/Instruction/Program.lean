/-
The cycles of an instruction: which bus cycles and actions follow its opcode.

A program is the address cycles of its mode and then the body of its operation.
Cycle totals, opcode fetch included:

| Instruction      | Imm | Dir | Ext | Idx |
|------------------|-----|-----|-----|-----|
| LDA/ADDA/...     | 2   | 4   | 5   | 4+  |
| STA              | -   | 4   | 5   | 4+  |
| LDD/LDX/LDU      | 3   | 5   | 6   | 5+  |
| SUBD/ADDD/CMPX   | 4   | 6   | 7   | 6+  |
| NEG/INC/CLR/...  | -   | 6   | 7   | 6+  |
| TST              | -   | 6   | 7   | 6+  |
| JMP              | -   | 3   | 4   | 3+  |
| JSR              | -   | 7   | 8   | 7+  |

Each page selection adds one cycle. Four kinds of instruction grow while they run,
once what they depend on is known: a taken long branch, the register lists of PSH
and PUL, and RTI, whose frame is told by the flags it pulls first. Those lists are
here as well, so that what is pushed and what is pulled stand side by side.
-/
import Sim6809.IndexedMode
import Sim6809.Instruction

set_option autoImplicit false

namespace Sim6809

/-! ## Stack frames

Bytes are listed in the order they are moved. A push moves downward, so that what
lies in memory, read upward, is the reverse of the push list and the pull list
itself. -/

namespace Frame

/-- Registers below PC in a full frame, as pushed. -/
def entirePushed : List Part :=
  [.low .u, .high .u, .low .y, .high .y, .low .x, .high .x, .dp, .b, .a]

/-- The same registers as pulled. -/
def entirePulled : List Part :=
  [.a, .b, .dp, .high .x, .low .x, .high .y, .low .y, .high .u, .low .u]

/-- Everything an interrupt stacks: PC, the other registers if the frame is entire,
and the flags last, with E telling which it is. -/
def program (entire : Bool) : List MicroOp :=
  -- E is marked first, since the flags are stacked with it.
  [.action (.markEntire entire), .cycle .dummy,
    .cycle (.push .s (.low .pc)), .cycle (.push .s (.high .pc))] ++
  (if entire then entirePushed.map fun part => .cycle (.push .s part) else []) ++
  [.cycle (.push .s .cc)]

/-- What RTI pulls once the flags are back and E is known. -/
def unwind (entire : Bool) : List MicroOp :=
  (if entire then entirePulled.map fun part => .cycle (.pull .s part) else []) ++
  [.cycle (.pull .s (.high .pc)), .cycle (.pull .s (.low .pc)), .cycle .dummy]

end Frame

/-- The fetch of a handler's address, and the jump through it. -/
def vectorFetch : List MicroOp :=
  [.cycle (.readPointer 0), .cycle (.readPointer 1), .action .jump, .cycle .dummy]

/-! ## Register lists -/

namespace RegisterList

/-- The pointer that bit 6 of a list stands for. -/
def otherPointer (stack : Stack) : Pointer :=
  match stack.other with
  | .s => .s
  | _ => .u

/-- The bits of a list and the bytes each moves, in the order PSH moves them: PC
first and the flags last, so that the result has the layout of a frame. -/
def pushOrder (stack : Stack) : List (Byte × Part) :=
  let other := otherPointer stack
  [(0x80, .low .pc), (0x80, .high .pc), (0x40, .low other), (0x40, .high other),
    (0x20, .low .y), (0x20, .high .y), (0x10, .low .x), (0x10, .high .x),
    (0x08, .dp), (0x04, .b), (0x02, .a), (0x01, .cc)]

/-- The same for PUL: the flags first and PC last. -/
def pullOrder (stack : Stack) : List (Byte × Part) :=
  let other := otherPointer stack
  [(0x01, .cc), (0x02, .a), (0x04, .b), (0x08, .dp),
    (0x10, .high .x), (0x10, .low .x), (0x20, .high .y), (0x20, .low .y),
    (0x40, .high other), (0x40, .low other), (0x80, .high .pc), (0x80, .low .pc)]

/-- The bytes of an order that a list selects. -/
def selected (order : List (Byte × Part)) (list : Byte) : List Part :=
  (order.filter fun entry => list &&& entry.1 != 0).map (·.2)

/-- What PSH adds once its list is known. -/
def pushProgram (stack : Stack) (list : Byte) : List MicroOp :=
  (selected (pushOrder stack) list).map fun part => .cycle (.push stack part)

/-- What PUL adds once its list is known: the pulls, and one read at the address
where the stack pointer ends up. -/
def pullProgram (stack : Stack) (list : Byte) : List MicroOp :=
  (selected (pullOrder stack) list).map (fun part => .cycle (.pull stack part)) ++
  [.cycle (.peekStack stack)]

end RegisterList

/-! ## Bodies -/

namespace Instruction

/-- The cycles that deliver a byte operand. -/
def byteOperand (mode : AddressMode) : List MicroOp :=
  if mode = .immediate then [.cycle .fetchOperand] else [.cycle (.read 0)]

/-- The cycles that deliver a word operand. -/
def wordOperand (mode : AddressMode) : List MicroOp :=
  if mode = .immediate then [.cycle .fetchOperand, .cycle .fetchOperand]
  else [.cycle (.read 0), .cycle (.read 1)]

/-- The end of every call: the target is looked at, and PC goes onto the hardware
stack before it is replaced. -/
def callTail : List MicroOp :=
  [.cycle .peekEa, .cycle .dummy, .cycle (.push .s (.low .pc)), .cycle (.push .s (.high .pc)),
    .action .operate]

/-- The cycles an instruction makes once its address is known. -/
def body (instruction : Instruction) : List MicroOp :=
  match instruction.op with
  -- A page selection never gets this far: it fetches the next opcode instead.
  | .selectPage _ | .nop => [.cycle .peekPc]
  -- A test takes the time of a write and makes none.
  | .unary .tst .memory => [.cycle (.read 0), .cycle .dummy, .cycle .dummy, .action .operate]
  | .unary _ .memory => [.cycle (.read 0), .cycle .dummy, .action .operate, .cycle .writeByte]
  | .unary _ (.accumulator _) | .daa | .sex => [.cycle .peekPc, .action .operate]
  | .byte .. => byteOperand instruction.mode ++ [.action .operate]
  | .store _ => [.action .operate, .cycle .writeByte]
  | .storeImmediate _ => [.cycle .fetchOperand, .action .operate]
  | .word .. => wordOperand instruction.mode ++ [.cycle .dummy, .action .operate]
  | .loadWord _ => wordOperand instruction.mode ++ [.action .operate]
  | .storeWord _ => [.action .operate, .cycle .writeHigh, .cycle .writeLow]
  -- The first operand byte is skipped and the second one overwritten.
  | .storeWordImmediate _ => [.cycle .fetchOperand, .action .operate, .cycle .writePc]
  | .jmp => [.action .operate]
  | .jsr => callTail
  | .bsr => [.cycle .fetchOperand, .action .branchTarget8, .cycle .dummy] ++ callTail
  | .lbsr =>
    [.cycle .fetchOperand, .cycle .fetchOperand, .action .branchTarget16,
      .cycle .dummy, .cycle .dummy] ++ callTail
  | .lbra =>
    [.cycle .fetchOperand, .cycle .fetchOperand, .cycle .dummy, .cycle .dummy, .action .operate]
  | .branch _ => [.cycle .fetchOperand, .cycle .dummy, .action .operate]
  | .longBranch _ =>
    [.cycle .fetchOperand, .cycle .fetchOperand, .cycle .dummy, .action .operate]
  | .lea _ => [.cycle .dummy, .action .operate]
  | .push stack =>
    [.cycle .fetchOperand, .cycle .dummy, .cycle .dummy, .cycle (.peekStack stack),
      .action .operate]
  | .pull _ => [.cycle .fetchOperand, .cycle .dummy, .cycle .dummy, .action .operate]
  | .rts =>
    [.cycle .peekPc, .cycle (.pull .s (.high .pc)), .cycle (.pull .s (.low .pc)), .cycle .dummy]
  | .abx => [.cycle .peekPc, .cycle .dummy, .action .operate]
  -- E in the flags pulled here tells how much of a frame there is to unwind.
  | .rti => [.cycle .peekPc, .cycle (.pull .s .cc), .action .operate]
  -- The frame is stacked before the wait, so that the interrupt is served at once.
  | .cwai =>
    [.cycle .fetchOperand, .action .operate, .cycle .peekPc] ++ Frame.program true ++
      [.action (.enter .dispatch)]
  | .mul =>
    [.cycle .peekPc] ++ List.replicate 8 (.cycle .dummy) ++ [.action .operate, .cycle .dummy]
  | .software kind =>
    [.cycle .peekPc] ++ Frame.program true ++ [.action (.vector kind.vector)]
  | .sync => [.cycle .peekPc, .action (.enter .syncWait)]
  | .orcc | .andcc => [.cycle .fetchOperand, .action .operate, .cycle .peekPc]
  | .andccSlow => [.cycle .fetchOperand, .action .operate, .cycle .peekPc, .cycle .dummy]
  | .exg => [.cycle .fetchOperand] ++ List.replicate 6 (.cycle .dummy) ++ [.action .operate]
  | .tfr => [.cycle .fetchOperand] ++ List.replicate 4 (.cycle .dummy) ++ [.action .operate]
  | .shiftFlags => [.cycle .peekPc, .action .operate, .cycle .dummy]
  | .lock => [.action (.enter .locked)]

/-- Everything after the opcode. An indexed instruction goes no further than its
postbyte, which decides how it goes on. -/
def program (instruction : Instruction) : List MicroOp :=
  match instruction.mode with
  | .direct => [.cycle .fetchDirect, .cycle .dummy] ++ instruction.body
  | .extended => [.cycle .fetchAddress, .cycle .fetchAddress, .cycle .dummy] ++ instruction.body
  | .indexed => [.cycle .fetchPostbyte]
  | .inherent | .immediate | .relative => instruction.body

end Instruction

end Sim6809
