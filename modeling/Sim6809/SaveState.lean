/-
Save-states: how a processor is written down.

The written form is a record of everything in a `Processor`, and every part of one
has a codec of its own here, from the registers to the slots of the schedule. The
names are those of the save-state format. What was read is a processor in form
only; whether it can be resumed from is `Processor.restore`.
-/
import Sim6809.Json.Codec
import Sim6809.Processor

set_option autoImplicit false

namespace Sim6809

open Codec

/-! ## Names of single things -/

instance : Codec Accumulator where
  encode
    | .a => .string "A"
    | .b => .string "B"
  decode := choose [plain "A" .a, plain "B" .b]
  decode_encode value := by cases value <;> rfl

instance : Codec WordRegister where
  encode
    | .d => .string "D"
    | .x => .string "X"
    | .y => .string "Y"
    | .u => .string "U"
    | .s => .string "S"
  decode := choose [plain "D" .d, plain "X" .x, plain "Y" .y, plain "U" .u, plain "S" .s]
  decode_encode value := by cases value <;> rfl

instance : Codec Stack where
  encode
    | .s => .string "S"
    | .u => .string "U"
  decode := choose [plain "S" .s, plain "U" .u]
  decode_encode value := by cases value <;> rfl

instance : Codec Part where
  encode
    | .cc => .string "Cc"
    | .a => .string "A"
    | .b => .string "B"
    | .dp => .string "Dp"
    | .high .x => .string "XHi"
    | .low .x => .string "XLo"
    | .high .y => .string "YHi"
    | .low .y => .string "YLo"
    | .high .u => .string "UHi"
    | .low .u => .string "ULo"
    | .high .s => .string "SHi"
    | .low .s => .string "SLo"
    | .high .pc => .string "PcHi"
    | .low .pc => .string "PcLo"
  decode := choose
    [plain "Cc" .cc, plain "A" .a, plain "B" .b, plain "Dp" .dp,
      plain "XHi" (.high .x), plain "XLo" (.low .x), plain "YHi" (.high .y),
      plain "YLo" (.low .y), plain "UHi" (.high .u), plain "ULo" (.low .u),
      plain "SHi" (.high .s), plain "SLo" (.low .s), plain "PcHi" (.high .pc),
      plain "PcLo" (.low .pc)]
  decode_encode value := by
    cases value with
    | high register => cases register <;> rfl
    | low register => cases register <;> rfl
    | _ => rfl

instance : Codec AddressMode where
  encode
    | .inherent => .string "Inherent"
    | .immediate => .string "Immediate"
    | .direct => .string "Direct"
    | .indexed => .string "Indexed"
    | .extended => .string "Extended"
    | .relative => .string "Relative"
  decode := choose
    [plain "Inherent" .inherent, plain "Immediate" .immediate, plain "Direct" .direct,
      plain "Indexed" .indexed, plain "Extended" .extended, plain "Relative" .relative]
  decode_encode value := by cases value <;> rfl

instance : Codec Arithmetic.UnaryOp where
  encode
    | .neg => .string "Neg"
    | .com => .string "Com"
    | .lsr => .string "Lsr"
    | .ror => .string "Ror"
    | .asr => .string "Asr"
    | .asl => .string "Asl"
    | .rol => .string "Rol"
    | .dec => .string "Dec"
    | .inc => .string "Inc"
    | .tst => .string "Tst"
    | .clr => .string "Clr"
    | .negOrCom => .string "XNc"
    | .decBorrow => .string "XDec"
    | .clrKeepCarry => .string "XClr"
  decode := choose
    [plain "Neg" .neg, plain "Com" .com, plain "Lsr" .lsr, plain "Ror" .ror,
      plain "Asr" .asr, plain "Asl" .asl, plain "Rol" .rol, plain "Dec" .dec,
      plain "Inc" .inc, plain "Tst" .tst, plain "Clr" .clr, plain "XNc" .negOrCom,
      plain "XDec" .decBorrow, plain "XClr" .clrKeepCarry]
  decode_encode value := by cases value <;> rfl

instance : Codec Arithmetic.ByteOp where
  encode
    | .sub => .string "Sub"
    | .cmp => .string "Cmp"
    | .sbc => .string "Sbc"
    | .and => .string "And"
    | .bit => .string "Bit"
    | .ld => .string "Ld"
    | .eor => .string "Eor"
    | .adc => .string "Adc"
    | .or => .string "Or"
    | .add => .string "Add"
  decode := choose
    [plain "Sub" .sub, plain "Cmp" .cmp, plain "Sbc" .sbc, plain "And" .and,
      plain "Bit" .bit, plain "Ld" .ld, plain "Eor" .eor, plain "Adc" .adc,
      plain "Or" .or, plain "Add" .add]
  decode_encode value := by cases value <;> rfl

instance : Codec Arithmetic.WordOp where
  encode
    | .sub => .string "Sub"
    | .add => .string "Add"
    | .cmp => .string "Cmp"
  decode := choose [plain "Sub" .sub, plain "Add" .add, plain "Cmp" .cmp]
  decode_encode value := by cases value <;> rfl

instance : Codec Condition where
  encode
    | .always => .string "Always"
    | .never => .string "Never"
    | .hi => .string "Hi"
    | .ls => .string "Ls"
    | .hs => .string "Hs"
    | .lo => .string "Lo"
    | .ne => .string "Ne"
    | .eq => .string "Eq"
    | .vc => .string "Vc"
    | .vs => .string "Vs"
    | .pl => .string "Pl"
    | .mi => .string "Mi"
    | .ge => .string "Ge"
    | .lt => .string "Lt"
    | .gt => .string "Gt"
    | .le => .string "Le"
  decode := choose
    [plain "Always" .always, plain "Never" .never, plain "Hi" .hi, plain "Ls" .ls,
      plain "Hs" .hs, plain "Lo" .lo, plain "Ne" .ne, plain "Eq" .eq,
      plain "Vc" .vc, plain "Vs" .vs, plain "Pl" .pl, plain "Mi" .mi,
      plain "Ge" .ge, plain "Lt" .lt, plain "Gt" .gt, plain "Le" .le]
  decode_encode value := by cases value <;> rfl

instance : Codec SoftwareInterrupt where
  encode
    | .swi => .string "Swi"
    | .swi2 => .string "Swi2"
    | .swi3 => .string "Swi3"
    | .reset => .string "Reset"
  decode := choose
    [plain "Swi" .swi, plain "Swi2" .swi2, plain "Swi3" .swi3, plain "Reset" .reset]
  decode_encode value := by cases value <;> rfl

instance : Codec InterruptVector where
  encode which := .string which.name
  decode := choose
    [plain "Swi3" .swi3, plain "Swi2" .swi2, plain "Firq" .firq, plain "Irq" .irq,
      plain "Swi" .swi, plain "Nmi" .nmi, plain "Reset" .reset]
  decode_encode value := by cases value <;> rfl

instance : Codec Phase where
  encode
    | .reset => .string "Reset"
    | .resetHold => .string "ResetCheckHalt"
    | .boundary => .string "LabelA"
    | .arbitration => .string "LabelB"
    | .dispatch => .string "DispatchIrq"
    | .cwaiWait => .string "CwaiCheckHalt"
    | .execution => .string "NextInstruction"
    | .syncWait => .string "Sync"
    | .syncHold => .string "SyncCheckHalt"
    | .locked => .string "Hcf"
  decode := choose
    [plain "Reset" .reset, plain "ResetCheckHalt" .resetHold, plain "LabelA" .boundary,
      plain "LabelB" .arbitration, plain "DispatchIrq" .dispatch,
      plain "CwaiCheckHalt" .cwaiWait, plain "NextInstruction" .execution,
      plain "Sync" .syncWait, plain "SyncCheckHalt" .syncHold, plain "Hcf" .locked]
  decode_encode value := by cases value <;> rfl

/-! ## Instructions -/

instance : Codec UnaryTarget where
  encode
    | .memory => .string "Memory"
    | .accumulator register => tagged "Acc" register
  decode := choose [plain "Memory" .memory, holding "Acc" UnaryTarget.accumulator]
  decode_encode value := by
    cases value <;> simp [choose, tagged, plain, holding, List.lookup_cons]

/-- The operations by their tags. -/
def Operation.alternatives : List (Alternative Operation) :=
  [holding "Prefix" selectPage, holdingTwo "Unary" unary, holdingTwo "Alu" byte,
    holding "Store" store, holding "StoreImmediate" storeImmediate,
    holdingTwo "Arith16" word, holding "Load16" loadWord, holding "Store16" storeWord,
    holding "Store16Immediate" storeWordImmediate,
    plain "Jmp" jmp, plain "Jsr" jsr, plain "Bsr" bsr, plain "Lbsr" lbsr,
    plain "Lbra" lbra, holding "Branch" branch, holding "LongBranch" longBranch,
    holding "Lea" lea, holding "Push" push, holding "Pull" pull,
    plain "Rts" rts, plain "Abx" abx, plain "Rti" rti, plain "Cwai" cwai,
    plain "Mul" mul, holding "Software" software, plain "Sync" sync, plain "Nop" nop,
    plain "Daa" daa, plain "Orcc" orcc, plain "Andcc" andcc,
    plain "AndccSlow" andccSlow, plain "Sex" sex, plain "Exg" exg, plain "Tfr" tfr,
    plain "ShiftCc" shiftFlags, plain "Hcf" lock]

instance : Codec Operation where
  encode
    | .selectPage page => tagged "Prefix" page
    | .unary op target => taggedTwo "Unary" op target
    | .byte op register => taggedTwo "Alu" op register
    | .store register => tagged "Store" register
    | .storeImmediate register => tagged "StoreImmediate" register
    | .word op register => taggedTwo "Arith16" op register
    | .loadWord register => tagged "Load16" register
    | .storeWord register => tagged "Store16" register
    | .storeWordImmediate register => tagged "Store16Immediate" register
    | .jmp => .string "Jmp"
    | .jsr => .string "Jsr"
    | .bsr => .string "Bsr"
    | .lbsr => .string "Lbsr"
    | .lbra => .string "Lbra"
    | .branch condition => tagged "Branch" condition
    | .longBranch condition => tagged "LongBranch" condition
    | .lea register => tagged "Lea" register
    | .push stack => tagged "Push" stack
    | .pull stack => tagged "Pull" stack
    | .rts => .string "Rts"
    | .abx => .string "Abx"
    | .rti => .string "Rti"
    | .cwai => .string "Cwai"
    | .mul => .string "Mul"
    | .software kind => tagged "Software" kind
    | .sync => .string "Sync"
    | .nop => .string "Nop"
    | .daa => .string "Daa"
    | .orcc => .string "Orcc"
    | .andcc => .string "Andcc"
    | .andccSlow => .string "AndccSlow"
    | .sex => .string "Sex"
    | .exg => .string "Exg"
    | .tfr => .string "Tfr"
    | .shiftFlags => .string "ShiftCc"
    | .lock => .string "Hcf"
  decode := choose Operation.alternatives
  decode_encode value := by
    cases value <;>
      simp [choose, tagged, taggedTwo, plain, holding, holdingTwo, Operation.alternatives,
        List.lookup_cons]

instance : Codec Instruction where
  encode value := .object [("op", encode value.op), ("mode", encode value.mode)]
  decode json :=
    match json.fields? ["op", "mode"] with
    | some [op, mode] => do
      let op ← decode op
      let mode ← decode mode
      some ⟨op, mode⟩
    | _ => none
  decode_encode value := by simp [Json.fields?, List.lookup_cons]

/-! ## Micro-operations and their schedule -/

/-- The actions by their tags. -/
def Action.alternatives : List (Alternative Action) :=
  [plain "Operate" operate, plain "IndexOffset8" indexOffset8,
    plain "IndexOffset16" indexOffset16, plain "PcOffset8" pcOffset8,
    plain "PcOffset16" pcOffset16, plain "Indirect" indirect,
    plain "BranchTarget8" branchTarget8, plain "BranchTarget16" branchTarget16,
    holding "MarkEntire" markEntire, holding "Vector" vector, plain "Jump" jump,
    holding "Enter" enter]

instance : Codec Action where
  encode
    | .operate => .string "Operate"
    | .indexOffset8 => .string "IndexOffset8"
    | .indexOffset16 => .string "IndexOffset16"
    | .pcOffset8 => .string "PcOffset8"
    | .pcOffset16 => .string "PcOffset16"
    | .indirect => .string "Indirect"
    | .branchTarget8 => .string "BranchTarget8"
    | .branchTarget16 => .string "BranchTarget16"
    | .markEntire entire => tagged "MarkEntire" entire
    | .vector which => tagged "Vector" which
    | .jump => .string "Jump"
    | .enter phase => tagged "Enter" phase
  decode := choose Action.alternatives
  decode_encode value := by
    cases value <;>
      simp [choose, tagged, plain, holding, Action.alternatives, List.lookup_cons]

/-- The micro-operations by their tags. An action is wrapped as `Exec`. -/
def MicroOp.alternatives : List (Alternative MicroOp) :=
  [plain "FetchOpcode" (cycle .fetchOpcode), plain "FetchOperand" (cycle .fetchOperand),
    plain "FetchAddress" (cycle .fetchAddress), plain "FetchDirect" (cycle .fetchDirect),
    plain "FetchPostbyte" (cycle .fetchPostbyte), plain "PeekPc" (cycle .peekPc),
    plain "PeekPcNext" (cycle .peekPcNext), plain "PeekEa" (cycle .peekEa),
    holding "PeekStack" (fun stack => cycle (.peekStack stack)),
    plain "Dummy" (cycle .dummy), holding "Read" (fun offset => cycle (.read offset)),
    holding "ReadPointer" (fun offset => cycle (.readPointer offset)),
    plain "WriteByte" (cycle .writeByte), plain "WriteHigh" (cycle .writeHigh),
    plain "WriteLow" (cycle .writeLow), plain "WritePc" (cycle .writePc),
    holdingTwo "Push" (fun stack part => cycle (.push stack part)),
    holdingTwo "Pull" (fun stack part => cycle (.pull stack part)),
    holding "Exec" action]

instance : Codec MicroOp where
  encode
    | .cycle .fetchOpcode => .string "FetchOpcode"
    | .cycle .fetchOperand => .string "FetchOperand"
    | .cycle .fetchAddress => .string "FetchAddress"
    | .cycle .fetchDirect => .string "FetchDirect"
    | .cycle .fetchPostbyte => .string "FetchPostbyte"
    | .cycle .peekPc => .string "PeekPc"
    | .cycle .peekPcNext => .string "PeekPcNext"
    | .cycle .peekEa => .string "PeekEa"
    | .cycle (.peekStack stack) => tagged "PeekStack" stack
    | .cycle .dummy => .string "Dummy"
    | .cycle (.read offset) => tagged "Read" offset
    | .cycle (.readPointer offset) => tagged "ReadPointer" offset
    | .cycle .writeByte => .string "WriteByte"
    | .cycle .writeHigh => .string "WriteHigh"
    | .cycle .writeLow => .string "WriteLow"
    | .cycle .writePc => .string "WritePc"
    | .cycle (.push stack part) => taggedTwo "Push" stack part
    | .cycle (.pull stack part) => taggedTwo "Pull" stack part
    | .action action => tagged "Exec" action
  decode := choose MicroOp.alternatives
  decode_encode value := by
    cases value with
    | cycle cycle =>
      cases cycle <;>
        simp [choose, tagged, taggedTwo, plain, holding, holdingTwo, MicroOp.alternatives,
          List.lookup_cons]
    | action action =>
      simp [choose, tagged, plain, holding, holdingTwo, MicroOp.alternatives, List.lookup_cons]

instance : Codec Schedule where
  encode value :=
    .object [("ops", encode value.slots), ("len", encode value.filled),
      ("pos", encode value.cursor)]
  decode json :=
    match json.fields? ["ops", "len", "pos"] with
    | some [ops, len, pos] => do
      let ops ← decode ops
      let len ← decode len
      let pos ← decode pos
      some ⟨ops, len, pos⟩
    | _ => none
  decode_encode value := by simp [Json.fields?, List.lookup_cons]

/-! ## Inputs and registers -/

instance : Codec ConditionCodes where
  encode value := encode value.toByte
  decode json := (decode json).map ConditionCodes.ofByte
  decode_encode value := by simp

instance : Codec Levels where
  encode value :=
    .object [("halt", encode value.halt), ("nmi", encode value.nmi),
      ("firq", encode value.firq), ("irq", encode value.irq)]
  decode json :=
    match json.fields? ["halt", "nmi", "firq", "irq"] with
    | some [halt, nmi, firq, irq] => do
      let halt ← decode halt
      let nmi ← decode nmi
      let firq ← decode firq
      let irq ← decode irq
      some ⟨halt, nmi, firq, irq⟩
    | _ => none
  decode_encode value := by simp [Json.fields?, List.lookup_cons]

instance : Codec Inputs where
  encode value :=
    .object [("input", encode value.live), ("latched", encode value.latched),
      ("active", encode value.active), ("nmi_armed", encode value.nmiArmed),
      ("nmi_previous", encode value.nmiPrevious)]
  decode json :=
    match json.fields? ["input", "latched", "active", "nmi_armed", "nmi_previous"] with
    | some [input, latched, active, armed, previous] => do
      let input ← decode input
      let latched ← decode latched
      let active ← decode active
      let armed ← decode armed
      let previous ← decode previous
      some ⟨input, latched, active, armed, previous⟩
    | _ => none
  decode_encode value := by simp [Json.fields?, List.lookup_cons]

instance : Codec RegisterFile where
  encode value :=
    .object [("d", encode value.d), ("x", encode value.x), ("y", encode value.y),
      ("u", encode value.u), ("s", encode value.s), ("pc", encode value.pc),
      ("dp", encode value.dp), ("cc", encode value.cc)]
  decode json :=
    match json.fields? ["d", "x", "y", "u", "s", "pc", "dp", "cc"] with
    | some [d, x, y, u, s, pc, dp, cc] => do
      let d ← decode d
      let x ← decode x
      let y ← decode y
      let u ← decode u
      let s ← decode s
      let pc ← decode pc
      let dp ← decode dp
      let cc ← decode cc
      some ⟨d, x, y, u, s, pc, dp, cc⟩
    | _ => none
  decode_encode value := by simp [Json.fields?, List.lookup_cons]

/-! ## The whole processor -/

instance : Codec Processor where
  encode value :=
    .object [("regs", encode value.regs), ("lines", encode value.inputs),
      ("state", encode value.phase), ("queue", encode value.schedule),
      ("instr", encode value.instruction), ("page", encode value.page),
      ("postbyte", encode value.postbyte), ("ea", encode value.ea),
      ("data", encode value.data), ("result", encode value.result),
      ("hooked", encode value.announced), ("total_cycles", encode value.cycles)]
  decode json :=
    match json.fields? ["regs", "lines", "state", "queue", "instr", "page", "postbyte",
      "ea", "data", "result", "hooked", "total_cycles"] with
    | some [regs, lines, state, queue, instr, page, postbyte, ea, data, result, hooked,
        cycles] => do
      let regs ← decode regs
      let lines ← decode lines
      let state ← decode state
      let queue ← decode queue
      let instr ← decode instr
      let page ← decode page
      let postbyte ← decode postbyte
      let ea ← decode ea
      let data ← decode data
      let result ← decode result
      let hooked ← decode hooked
      let cycles ← decode cycles
      some ⟨regs, lines, state, queue, instr, page, postbyte, ea, data, result, hooked, cycles⟩
    | _ => none
  decode_encode value := by simp [Json.fields?, List.lookup_cons]

end Sim6809
