/-
The instruction set, for data instructions: what each does in one step.

This is the programmer's view, in which there are registers and memory and nothing in
between: no latches, no bus cycles, no inputs. An instruction has an address
(`effectiveAddress`), takes up a number of bytes (`operandLength`), may step an index
register (`addressed`), and then computes (`execute`). Nothing here refers to a
micro-operation, so that the definitions can be read beside a table of the
instruction set; `DataInstructions.lean` shows that the processor keeps to them.

Nor do they refer to the functions by which the processor reads and writes a register
or forms an indexed address. A register is a field of the record here, a write is a
record update, and a postbyte is looked up in the table of a programmer's reference
(`Postbyte`). What is shared with the processor is the arithmetic unit, and the opcode
map. That the processor's own functions come to the same is said at the end, in one
lemma for each.
-/
import Sim6809.Instruction.Decode
import Sim6809.IndexedMode
import Sim6809.Proofs.Straight

set_option autoImplicit false

namespace Sim6809

open Arithmetic

/-- The word at an address, high byte first. The second byte of a word at the top of
memory is the first one of memory. -/
def Ram.word (ram : Ram) (address : Word) : Word :=
  Word.ofBytes (ram address) (ram (address + 1))

/-- Replaces the word at an address. -/
def Ram.putWord (ram : Ram) (address value : Word) : Ram :=
  (ram.put address (Word.high value)).put (address + 1) (Word.low value)

/-! ## Indexed addresses

The table gives, for each postbyte, the address, what becomes of the register, and the number
of bytes that follow. -/

namespace Postbyte

/-- The low bits of a byte, read as a two's-complement number. -/
def signed (bits : Nat) (byte : Byte) : Word :=
  .ofBitVec ((byte.toBitVec.setWidth bits).signExtend 16)

/-- The register that bits 6 and 5 pick. -/
def base (p : Byte) (r : RegisterFile) : Word :=
  match p.toNat / 32 % 4 with
  | 0 => r.x
  | 1 => r.y
  | 2 => r.u
  | _ => r.s

/-- The address before a pointer is followed. PC is the address behind the postbyte. -/
def direct (p : Byte) (ram : Ram) (r : RegisterFile) (pc : Word) : Word :=
  if p < 0x80 then base p r + signed 5 p
  else
    match p &&& 0x0F with
    | 0x0 => base p r
    | 0x1 => base p r
    | 0x2 => base p r - 1
    | 0x3 => base p r - 2
    | 0x4 => base p r
    | 0x5 => base p r + signed 8 (Word.low r.d)
    | 0x6 => base p r + signed 8 (Word.high r.d)
    | 0x7 => base p r + signed 8 (Word.high r.d)
    | 0x8 => base p r + signed 8 (ram pc)
    | 0x9 => base p r + ram.word pc
    | 0xA => pc ||| 0x00FF
    | 0xB => base p r + r.d
    | 0xC => pc + 1 + signed 8 (ram pc)
    | 0xD => pc + 2 + ram.word pc
    | 0xE => 0xFFFF
    | _ => ram.word pc

/-- Bits 7 and 4 ask for the pointer that is stored there. -/
def isPointer (p : Byte) : Bool := p.toNat.testBit 7 && p.toNat.testBit 4

/-- The effective address. -/
def address (p : Byte) (ram : Ram) (r : RegisterFile) (pc : Word) : Word :=
  if isPointer p then ram.word (direct p ram r pc) else direct p ram r pc

/-- What becomes of the register. -/
def changed (p : Byte) (value : Word) : Word :=
  if p < 0x80 then value
  else
    match p &&& 0x0F with
    | 0x0 => value + 1
    | 0x1 => value + 2
    | 0x2 => value - 1
    | 0x3 => value - 2
    | _ => value

/-- Bytes behind the postbyte. -/
def operandBytes (p : Byte) : Nat :=
  if p < 0x80 then 0
  else
    match p &&& 0x0F with
    | 0x8 | 0xC => 1
    | 0x9 | 0xD | 0xF => 2
    | _ => 0

/-- The registers with the one that the postbyte picks changed. -/
def stepped (p : Byte) (r : RegisterFile) : RegisterFile :=
  match p.toNat / 32 % 4 with
  | 0 => { r with x := changed p r.x }
  | 1 => { r with y := changed p r.y }
  | 2 => { r with u := changed p r.u }
  | _ => { r with s := changed p r.s }

/-- All registers once the address is formed. -/
def registers (p : Byte) (r : RegisterFile) (pc : Word) : RegisterFile :=
  { stepped p r with pc := pc + UInt16.ofNat (operandBytes p) }

end Postbyte

/-! ## Registers -/

namespace RegisterFile

/-- The byte in an accumulator, which is a half of D. -/
def byteIn (r : RegisterFile) : Accumulator → Byte
  | .a => Word.high r.d
  | .b => Word.low r.d

/-- A byte goes into an accumulator, and the flags with it. -/
def putByte (r : RegisterFile) (register : Accumulator) (value : Byte) (cc : ConditionCodes) :
    RegisterFile :=
  match register with
  | .a => { r with d := Word.ofBytes value (Word.low r.d), cc := cc }
  | .b => { r with d := Word.ofBytes (Word.high r.d) value, cc := cc }

/-- The word in a register. -/
def wordIn (r : RegisterFile) : WordRegister → Word
  | .d => r.d
  | .x => r.x
  | .y => r.y
  | .u => r.u
  | .s => r.s

/-- A word goes into a register, and the flags with it. -/
def putWord (r : RegisterFile) (register : WordRegister) (value : Word) (cc : ConditionCodes) :
    RegisterFile :=
  match register with
  | .d => { r with d := value, cc := cc }
  | .x => { r with x := value, cc := cc }
  | .y => { r with y := value, cc := cc }
  | .u => { r with u := value, cc := cc }
  | .s => { r with s := value, cc := cc }

end RegisterFile

/-! ## Operations -/

namespace Operation

/-- Computes on the operand at `ea`. Only data instructions do anything here. A comparison or a
bit test keeps no result, and a test of memory writes none back. -/
def execute (op : Operation) (ea : Word) (r : RegisterFile) (ram : Ram) : RegisterFile × Ram :=
  match op with
  | byte op register =>
    let out := op.apply r.cc (r.byteIn register) (ram ea)
    (if op = .cmp ∨ op = .bit then { r with cc := out.cc }
      else r.putByte register out.value out.cc, ram)
  | word op register =>
    let out := op.apply r.cc (r.wordIn register) (ram.word ea)
    (if op = .cmp then { r with cc := out.cc } else r.putWord register out.value out.cc, ram)
  | loadWord register =>
    let value := ram.word ea
    (r.putWord register value (passWord r.cc value).cc, ram)
  | unary op .memory =>
    let out := op.apply r.cc (ram ea)
    ({ r with cc := out.cc }, if op = .tst then ram else ram.put ea out.value)
  | store register =>
    let value := r.byteIn register
    ({ r with cc := (passByte r.cc value).cc }, ram.put ea value)
  | storeWord register =>
    let value := r.wordIn register
    ({ r with cc := (passWord r.cc value).cc }, ram.putWord ea value)
  | _ => (r, ram)

/-- The data instructions: arithmetic on bytes and words, loads, stores, and what reads
and writes one byte of memory. -/
def isData : Operation → Bool
  | byte .. | word .. | loadWord _ | store _ | storeWord _ | unary _ .memory => true
  | _ => false

/-- Those that can have an immediate operand. -/
def hasImmediate : Operation → Bool
  | byte .. | word .. | loadWord _ => true
  | _ => false

/-- Bytes of an immediate operand. -/
def immediateBytes : Operation → Nat
  | word .. | loadWord _ => 2
  | _ => 1

end Operation

/-! ## Instructions -/

namespace Instruction

/-- Bytes behind the opcode, which is the one before `pc`. -/
def operandLength (i : Instruction) (ram : Ram) (pc : Word) : Nat :=
  match i.mode with
  | .immediate => i.op.immediateBytes
  | .direct => 1
  | .extended => 2
  | .indexed => 1 + Postbyte.operandBytes (ram pc)
  | .inherent | .relative => 0

/-- The address of the operand. An immediate operand is a part of the instruction. -/
def effectiveAddress (i : Instruction) (ram : Ram) (r : RegisterFile) (pc : Word) : Word :=
  match i.mode with
  | .direct => Word.ofBytes r.dp (ram pc)
  | .extended => ram.word pc
  | .indexed => Postbyte.address (ram pc) ram r (pc + 1)
  | .immediate | .inherent | .relative => pc

/-- The registers an operation finds: PC is past the instruction, and an index register
has been stepped. -/
def addressed (i : Instruction) (ram : Ram) (r : RegisterFile) (pc : Word) : RegisterFile :=
  let r := if i.mode = .indexed then Postbyte.stepped (ram pc) r else r
  { r with pc := pc + UInt16.ofNat (i.operandLength ram pc) }

/-- The instruction as one step, its opcode right before `pc`. -/
def execute (i : Instruction) (ram : Ram) (r : RegisterFile) (pc : Word) : RegisterFile × Ram :=
  i.op.execute (i.effectiveAddress ram r pc) (i.addressed ram r pc) ram

end Instruction

/-! ## The processor's registers are these -/

namespace RegisterFile

variable (r : RegisterFile) (cc : ConditionCodes)

theorem accumulator_eq (register : Accumulator) : r.accumulator register = r.byteIn register := by
  cases register <;> rfl

theorem setAccumulator_eq (register : Accumulator) (value : Byte) :
    ({ r with cc := cc }).setAccumulator register value = r.putByte register value cc := by
  cases register <;> rfl

theorem word_eq (register : WordRegister) : r.word register = r.wordIn register := by
  cases register <;> rfl

theorem setWord_eq (register : WordRegister) (value : Word) :
    ({ r with cc := cc }).setWord register value = r.putWord register value cc := by
  cases register <;> rfl

end RegisterFile

/-! With its registers in place of the fields, and its own account of which operations keep their
result, the processor computes the same. -/

namespace Operation

variable (ea : Word) (r : RegisterFile) (ram : Ram)

theorem execute_byte (op : ByteOp) (register : Accumulator) :
    (byte op register).execute ea r ram =
      let out := op.apply r.cc (r.accumulator register) (ram ea)
      let flagged := { r with cc := out.cc }
      (if op.keepsResult then flagged.setAccumulator register out.value else flagged, ram) := by
  simp only [execute, RegisterFile.accumulator_eq, RegisterFile.setAccumulator_eq]
  cases op <;> rfl

theorem execute_word (op : WordOp) (register : WordRegister) :
    (word op register).execute ea r ram =
      let out := op.apply r.cc (r.word register) (ram.word ea)
      let flagged := { r with cc := out.cc }
      (if op.keepsResult then flagged.setWord register out.value else flagged, ram) := by
  simp only [execute, RegisterFile.word_eq, RegisterFile.setWord_eq]
  cases op <;> rfl

theorem execute_loadWord (register : WordRegister) :
    (loadWord register).execute ea r ram =
      let out := passWord r.cc (ram.word ea)
      (({ r with cc := out.cc }).setWord register out.value, ram) := by
  simp only [execute, RegisterFile.setWord_eq]
  rfl

theorem execute_store (register : Accumulator) :
    (store register).execute ea r ram =
      let out := passByte r.cc (r.accumulator register)
      ({ r with cc := out.cc }, ram.put ea out.value) := by
  rw [execute, RegisterFile.accumulator_eq]
  rfl

theorem execute_storeWord (register : WordRegister) :
    (storeWord register).execute ea r ram =
      let out := passWord r.cc (r.word register)
      ({ r with cc := out.cc }, ram.putWord ea out.value) := by
  rw [execute, RegisterFile.word_eq]
  rfl

end Operation

/-! ## The processor's forms are in the table -/

namespace IndexForm

/-- Bytes of a form behind the postbyte. -/
def extraBytes : IndexForm → Nat
  | offset8 | pcOffset8 => 1
  | offset16 | pcOffset16 | absolute => 2
  | _ => 0

/-- The address of a form whose postbyte lies right before `next`. -/
def target (form : IndexForm) (postbyte : Byte) (ram : Ram) (r : RegisterFile) (next : Word) :
    Word :=
  let base := r.index (.ofPostbyte postbyte)
  match form with
  | shortOffset => base + Word.signExtend5 postbyte
  | plain | postIncrement1 | postIncrement2 => base
  | preDecrement1 => base - 1
  | preDecrement2 => base - 2
  | accumulatorA => base + Word.signExtend r.a
  | accumulatorB => base + Word.signExtend r.b
  | accumulatorD => base + r.d
  | offset8 => base + Word.signExtend (ram next)
  | offset16 => base + ram.word next
  | pcOffset8 => next + 1 + Word.signExtend (ram next)
  | pcOffset16 => next + 2 + ram.word next
  | pageTop => next ||| 0x00FF
  | allOnes => 0xFFFF
  | absolute => ram.word next

end IndexForm

namespace Postbyte

theorem signed_eq (byte : Byte) :
    Word.signExtend byte = signed 8 byte ∧ Word.signExtend5 byte = signed 5 byte :=
  Byte.of_table byte (by decide +kernel)

theorem isPointer_eq (p : Byte) : IndexForm.isIndirect p = isPointer p :=
  Byte.of_table p (by decide +kernel)

/-- The register that is picked, by its number. -/
theorem ofPostbyte_eq (p : Byte) : IndexRegister.ofPostbyte p =
    match p.toNat / 32 % 4 with
    | 0 => .x
    | 1 => .y
    | 2 => .u
    | _ => .s :=
  Byte.of_table p (by decide +kernel)

theorem index_eq (p : Byte) (r : RegisterFile) : r.index (.ofPostbyte p) = base p r := by
  rw [ofPostbyte_eq, base]
  split <;> rfl

theorem extraBytes_eq (p : Byte) : (IndexForm.ofPostbyte p).extraBytes = operandBytes p :=
  Byte.of_table p (by decide +kernel)

/-- Every change is an addition. -/
theorem changed_eq (p : Byte) (value : Word) : changed p value = value + changed p 0 := by
  unfold changed
  split
  · exact (UInt16.add_zero value).symm
  · split
    · rw [UInt16.zero_add]
    · rw [UInt16.zero_add]
    · exact UInt16.sub_eq_add_neg value 1
    · exact UInt16.sub_eq_add_neg value 2
    · exact (UInt16.add_zero value).symm

theorem step_eq (p : Byte) : (IndexForm.ofPostbyte p).step = changed p 0 :=
  Byte.of_table p (by decide +kernel)

theorem nibble_eq (p : Byte) : p &&& 0x0F = UInt8.ofNat (p.toNat % 16) :=
  Byte.of_table p (by decide +kernel)

theorem target_eq (p : Byte) (ram : Ram) (r : RegisterFile) (pc : Word) :
    (IndexForm.ofPostbyte p).target p ram r pc = direct p ram r pc := by
  unfold IndexForm.ofPostbyte direct
  rw [← index_eq, ← (signed_eq p).2, ← (signed_eq (Word.high r.d)).1,
    ← (signed_eq (Word.low r.d)).1, ← (signed_eq (ram pc)).1]
  by_cases short : p < 0x80
  · rw [if_pos short, if_pos short]
    rfl
  · rw [if_neg short, if_neg short]
    have small : p.toNat % 16 < 16 := Nat.mod_lt _ (by decide)
    rw [nibble_eq]
    generalize p.toNat % 16 = n at small
    match n, small with
    | 0, _ | 1, _ | 2, _ | 3, _ | 4, _ | 5, _ | 6, _ | 7, _ | 8, _ | 9, _ | 10, _ | 11, _
    | 12, _ | 13, _ | 14, _ | 15, _ => rfl
    | n + 16, _ => omega

/-- The step that a form adds to its register is the change in the table. -/
theorem stepped_eq (p : Byte) (r : RegisterFile) :
    r.setIndex (.ofPostbyte p) (r.index (.ofPostbyte p) + (IndexForm.ofPostbyte p).step) =
      stepped p r := by
  rw [step_eq, ← changed_eq, ofPostbyte_eq, stepped]
  split <;> rfl

/-- A form that steps no register changes none. -/
theorem stepped_of_still {p : Byte} (still : (IndexForm.ofPostbyte p).step = 0)
    (r : RegisterFile) : stepped p r = r := by
  rw [← stepped_eq, still, UInt16.add_zero]
  cases IndexRegister.ofPostbyte p <;> rfl

/-! What PC holds is not looked at. -/

theorem base_withPc (p : Byte) (r : RegisterFile) (pc : Word) :
    base p { r with pc := pc } = base p r := by
  unfold base
  split <;> rfl

theorem address_withPc (p : Byte) (ram : Ram) (r : RegisterFile) (pc next : Word) :
    address p ram { r with pc := pc } next = address p ram r next := by
  simp only [address, direct, base_withPc]

theorem stepped_withPc (p : Byte) (r : RegisterFile) (pc : Word) :
    stepped p { r with pc := pc } = { stepped p r with pc := pc } := by
  unfold stepped
  split <;> rfl

end Postbyte

end Sim6809
