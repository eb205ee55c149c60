/-
The interrupt masks: who opens them, and why a handler is not entered behind its own.

E, F and I are in the same register as the flags of every result, and that register is
written as a whole by almost every instruction. What all those writes have in common is
that they pass these three on. So the list of those that do not is short, and it is found
in the same way as the list for the inputs: `FlagsChange` has one case for each way in which
the three can come out of an occurrence, and `Occurs.flagsChange` says that there is no
other.

From the list follow the doors. A mask is opened only by an instruction that loads the
flags (`LoadsFlags`); it is closed by such an instruction, by ORCC, on the way into a
handler, or by reset; E is written by the first two and by the marking of a frame. An
interrupt is served only with its mask open and leaves it closed. So if it is served twice,
such an instruction has opened the mask in between.
-/
import Sim6809.Proofs.FrameKinds
import Sim6809.Proofs.Runs
import Sim6809.Proofs.Stages

set_option autoImplicit false

namespace Sim6809

/-! ## The three flags -/

/-- The flags that are about interrupts. -/
structure InterruptFlags where
  entire : Bool
  firqMask : Bool
  irqMask : Bool
deriving DecidableEq

def ConditionCodes.interruptFlags (cc : ConditionCodes) : InterruptFlags :=
  ⟨cc.entire, cc.firqMask, cc.irqMask⟩

/-- The two flags that hold interrupts off. -/
inductive Mask
  | irq | firq
deriving DecidableEq

namespace Mask

/-- Whether the mask is set. -/
def closed (cc : ConditionCodes) : Mask → Bool
  | irq => cc.irqMask
  | firq => cc.firqMask

/-- The interrupt it holds off. -/
def interrupt : Mask → HardwareInterrupt
  | irq => .irq
  | firq => .firq

theorem closed_congr {cc cc' : ConditionCodes} (same : cc'.interruptFlags = cc.interruptFlags)
    (mask : Mask) : mask.closed cc' = mask.closed cc := by
  cases mask with
  | irq => exact congrArg InterruptFlags.irqMask same
  | firq => exact congrArg InterruptFlags.firqMask same

/-- What sets flags opens no mask. -/
theorem closed_raise (cc : ConditionCodes) (flags : Byte) (mask : Mask)
    (closed : mask.closed cc = true) : mask.closed (cc.raise flags) = true := by
  have kept : ∀ bit : Byte, cc.toByte &&& bit ≠ 0 → (cc.toByte ||| flags) &&& bit ≠ 0 := by
    intro bit set none
    have both : (cc.toByte ||| flags) &&& bit = (cc.toByte &&& bit) ||| (flags &&& bit) :=
      UInt8.toBitVec_inj.1 BitVec.and_or_distrib_right
    rw [both, UInt8.or_eq_zero_iff] at none
    exact set none.1
  have byte : mask.closed (.ofByte cc.toByte) = true := by
    rw [ConditionCodes.ofByte_toByte]
    exact closed
  cases mask with
  | irq => exact bne_iff_ne.2 (kept 0x10 (bne_iff_ne.1 byte))
  | firq => exact bne_iff_ne.2 (kept 0x40 (bne_iff_ne.1 byte))

/-- An interrupt that is recognised is not held off. -/
theorem open_of_recognised {active : Levels} {cc : ConditionCodes} {mask : Mask}
    (recognised : HardwareInterrupt.recognised active cc = some mask.interrupt) :
    mask.closed cc = false := by
  have eligible := (HardwareInterrupt.recognised_eq_some_iff.1 recognised).1
  cases mask with
  | irq | firq => exact Bool.not_eq_eq_eq_not.1 (Bool.and_eq_true_iff.1 eligible).2

/-- Going into a handler closes the mask of its interrupt, and FIRQ ranks above IRQ. -/
theorem closed_raise_vector (cc : ConditionCodes) :
    irq.closed (cc.raise irq.interrupt.vector.mask) = true ∧
      irq.closed (cc.raise firq.interrupt.vector.mask) = true ∧
      firq.closed (cc.raise firq.interrupt.vector.mask) = true := by
  refine ⟨?_, ?_, ?_⟩
  · exact (cc.masks_raise .irq).1.trans (Bool.or_true _)
  · exact (cc.masks_raise .firq).1.trans (Bool.or_true _)
  · exact (cc.masks_raise .firq).2.trans (Bool.or_true _)

end Mask

/-! ## Results pass them on -/

namespace Arithmetic

theorem ByteOp.interruptFlags_apply (op : ByteOp) (cc : ConditionCodes) (a b : Byte) :
    (op.apply cc a b).cc.interruptFlags = cc.interruptFlags := by
  cases op <;> rfl

theorem WordOp.interruptFlags_apply (op : WordOp) (cc : ConditionCodes) (a b : Word) :
    (op.apply cc a b).cc.interruptFlags = cc.interruptFlags := by
  cases op <;> rfl

theorem UnaryOp.interruptFlags_apply (op : UnaryOp) (cc : ConditionCodes) (a : Byte) :
    (op.apply cc a).cc.interruptFlags = cc.interruptFlags := by
  cases op with
  | negOrCom =>
    change (if cc.carry then complement cc a else subByte cc 0 a false).cc.interruptFlags = _
    split <;> rfl
  | _ => rfl

end Arithmetic

namespace RegisterFile

theorem cc_setAccumulator (r : RegisterFile) (register : Accumulator) (value : Byte) :
    (r.setAccumulator register value).cc = r.cc := by
  cases register <;> rfl

theorem cc_setWord (r : RegisterFile) (register : WordRegister) (value : Word) :
    (r.setWord register value).cc = r.cc := by
  cases register <;> rfl

/-- A transfer writes the flags if they are what its code names. -/
theorem cc_writeCode (r : RegisterFile) {code : Byte} (value : Word)
    (other : Transferable.ofCode code ≠ some .cc) : (r.writeCode code value).cc = r.cc := by
  unfold writeCode
  split
  · next register named =>
    cases register with
    | cc => exact absurd named other
    | word register => exact r.cc_setWord register value
    | accumulator register => exact r.cc_setAccumulator register _
    | pc | dp => rfl
  · rfl

end RegisterFile

/-! ## What loads the flags -/

/-- The effect of the instruction writes E, F and I, maybe to clear them. -/
inductive EffectLoadsFlags (c : Processor) : Prop
  | keep (op : c.instruction.op = .andcc ∨ c.instruction.op = .andccSlow ∨
      c.instruction.op = .cwai)
  | shift (op : c.instruction.op = .shiftFlags)
  | tfr (op : c.instruction.op = .tfr)
      (target : Transferable.ofCode (Word.low c.data) = some .cc)
  /-- Both registers of an exchange are written. -/
  | exg (op : c.instruction.op = .exg)
      (target : Transferable.ofCode (Word.low c.data) = some .cc ∨
        Transferable.ofCode (Word.low c.data >>> 4) = some .cc)

/-- The flags are loaded: by the effect of ANDCC, in either form, of CWAI, of a transfer or
an exchange that names them or of the shift of the flags, or by a pull that PULS, PULU or
RTI makes. -/
inductive LoadsFlags (c : Processor) : Event → Prop
  | effect {m : Move} {rest : List MicroOp}
      (pending : c.schedule.pending = .action .operate :: rest) (loads : EffectLoadsFlags c) :
      LoadsFlags c (.move m)
  | pull {stack : Stack} (byte : Byte) (due : c.due? = some (.pull stack .cc))
      (op : c.instruction.op = .pull stack ∨ stack = .s ∧ c.instruction.op = .rti) :
      LoadsFlags c (.access byte)

/-- ORCC takes effect. -/
inductive RaisesFlags (c : Processor) : Event → Prop
  | effect {m : Move} {rest : List MicroOp}
      (pending : c.schedule.pending = .action .operate :: rest)
      (op : c.instruction.op = .orcc) : RaisesFlags c (.move m)

/-- A frame is marked as the one or the other. -/
inductive MarksFrame (c : Processor) : Event → Prop
  | mark {m : Move} {rest : List MicroOp} {entire : Bool}
      (pending : c.schedule.pending = .action (.markEntire entire) :: rest) :
      MarksFrame c (.move m)

/-- The reset sequence begins. -/
inductive BeginsReset (c : Processor) : Event → Prop
  | reset {m : Move} (phase : c.phase = .reset) (begun : .notice .resetBegun ∈ m.reports) :
      BeginsReset c (.move m)

/-- Some vector is taken. -/
def TakesVector (c : Processor) (event : Event) : Prop :=
  ∃ which, (⟨c, event⟩ : Occurrence).Takes which

variable {c d : Processor} {allowed : HostCall → Prop} {event : Event}

theorem EffectLoadsFlags.of_same (h : EffectLoadsFlags c)
    (instruction : d.instruction = c.instruction) (data : d.data = c.data) :
    EffectLoadsFlags d := by
  cases h with
  | keep op => exact .keep (by rw [instruction]; exact op)
  | shift op => exact .shift (by rw [instruction, op])
  | tfr op target => exact .tfr (by rw [instruction, op]) (by rw [data]; exact target)
  | exg op target => exact .exg (by rw [instruction, op]) (by rw [data]; exact target)

/-- An effect passes E, F and I on, unless it is one that loads them, or ORCC. -/
theorem Processor.interruptFlags_effect (c : Processor) :
    c.effect.regs.cc.interruptFlags = c.regs.cc.interruptFlags ∨ EffectLoadsFlags c ∨
      c.instruction.op = .orcc ∧ c.effect.regs.cc = c.regs.cc.raise (Word.low c.data) := by
  unfold effect
  dsimp only
  split
  all_goals try exact Or.inl rfl
  -- results
  · exact Or.inl (Arithmetic.UnaryOp.interruptFlags_apply _ _ _)
  · left
    dsimp only
    rw [RegisterFile.cc_setAccumulator]
    exact Arithmetic.UnaryOp.interruptFlags_apply _ _ _
  · next op _ _ =>
    left
    dsimp only
    split
    · rw [RegisterFile.cc_setAccumulator]
      exact op.interruptFlags_apply _ _ _
    · exact op.interruptFlags_apply _ _ _
  · next op _ _ =>
    left
    split
    · change (RegisterFile.setWord _ _ _).cc.interruptFlags = _
      rw [RegisterFile.cc_setWord]
      exact op.interruptFlags_apply _ _ _
    · exact op.interruptFlags_apply _ _ _
  · left
    change (RegisterFile.setWord _ _ _).cc.interruptFlags = _
    rw [RegisterFile.cc_setWord]
    rfl
  -- branches
  · split <;> exact Or.inl rfl
  · split <;> exact Or.inl rfl
  -- address loads
  · left
    change (RegisterFile.setWord _ _ _).cc.interruptFlags = _
    rw [RegisterFile.cc_setWord]
    split <;> rfl
  -- the flags themselves
  · next op => exact Or.inr (Or.inl (.keep (Or.inr (Or.inr op))))
  · next op => exact Or.inr (Or.inl (.keep (Or.inl op)))
  · next op => exact Or.inr (Or.inl (.keep (Or.inr (Or.inl op))))
  · next op => exact Or.inr (Or.inr ⟨op, rfl⟩)
  -- an exchange is two transfers
  · next op =>
    by_cases target : Transferable.ofCode (Word.low c.data) = some .cc ∨
        Transferable.ofCode (Word.low c.data >>> 4) = some .cc
    · exact Or.inr (Or.inl (.exg op target))
    · obtain ⟨low, high⟩ := not_or.1 target
      left
      change (RegisterFile.writeCode (RegisterFile.writeCode _ _ _) _ _).cc.interruptFlags = _
      rw [RegisterFile.cc_writeCode _ _ low, RegisterFile.cc_writeCode _ _ high]
  · next op =>
    by_cases target : Transferable.ofCode (Word.low c.data) = some .cc
    · exact Or.inr (Or.inl (.tfr op target))
    · left
      change (RegisterFile.writeCode _ _ _).cc.interruptFlags = _
      rw [RegisterFile.cc_writeCode _ _ target]
  · next op => exact Or.inr (Or.inl (.shift op))

/-! ## What pulls the flags -/

/-- The step pulls the flags, as only RTI has it in its program. -/
def MicroOp.pullsFlags : MicroOp → Bool
  | .cycle (.pull _ part) => part == .cc
  | _ => false

theorem Instruction.pullsFlags_decode (page opcode : Byte) {op : MicroOp}
    (mem : op ∈ (decode page opcode).program ++ (decode page opcode).body) :
    op.pullsFlags = false ∨
      op = .cycle (.pull .s .cc) ∧ (decode page opcode).op = .rti :=
  decode_induction
    (P := fun i => ∀ op ∈ i.program ++ i.body,
      op.pullsFlags = false ∨ op = .cycle (.pull .s .cc) ∧ i.op = .rti)
    (by decide +kernel) (by decide +kernel) (by decide +kernel) page opcode op mem

theorem pullsFlags_indexProgram {postbyte : Byte} {op : MicroOp}
    (mem : op ∈ IndexForm.program postbyte) : op.pullsFlags = false := by
  have cycles : ∀ form : IndexForm, ∀ op ∈ form.cycles, op.pullsFlags = false := by
    intro form
    cases form <;> decide
  rcases List.mem_append.1 mem with first | last
  · exact cycles _ op first
  · split at last
    · have indirection : ∀ op ∈ IndexForm.indirection, op.pullsFlags = false := by decide
      exact indirection op last
    · cases last

/-- Only PULS, PULU and RTI pull the flags. -/
theorem Sourced.op_of_pullsFlags (sourced : Sourced c) (h : Orderly c) {stack : Stack}
    (mem : .cycle (.pull stack .cc) ∈ c.schedule.pending) :
    c.instruction.op = .pull stack ∨ stack = .s ∧ c.instruction.op = .rti := by
  obtain ⟨ops, source, rest⟩ := sourced
  obtain ⟨page, opcode, decoded⟩ := h.decoded
  have whole := rest.subset mem
  have absent : ∀ {steps : List MicroOp}, (∀ op ∈ steps, op.pullsFlags = false) →
      .cycle (.pull stack .cc) ∉ steps := by
    intro steps none inside
    cases none _ inside
  have own : .cycle (.pull stack .cc) ∈ c.instruction.program ++ c.instruction.body →
      stack = .s ∧ c.instruction.op = .rti := by
    rw [← decoded]
    intro inside
    rcases Instruction.pullsFlags_decode page opcode inside with none | ⟨same, rti⟩
    · cases none
    · cases same
      exact ⟨rfl, rti⟩
  cases source with
  | fetch | branch => cases List.mem_singleton.1 whole
  | program => exact Or.inr (own (List.mem_append_left _ whole))
  | indexed postbyte _ =>
    rcases List.mem_append.1 whole with address | body
    · cases pullsFlags_indexProgram address
    · exact Or.inr (own (List.mem_append_right _ body))
  | pushes _ list =>
    obtain ⟨part, _, push⟩ := List.mem_map.1 whole
    cases push
  | pulls pull =>
    rcases mem_pullProgram whole with last | ⟨part, _, same⟩
    · cases last
    · cases same
      exact Or.inl pull
  | unwind entire => exact absurd whole (absent (by cases entire <;> decide))
  | vector => exact absurd whole (absent (by decide))
  | entry interrupt => exact absurd whole (absent (by cases interrupt <;> decide))

/-! ## What can happen to the flags -/

/-- The ways in which E, F and I come out of an occurrence. -/
inductive FlagsChange (c : Processor) (event : Event) : ConditionCodes → Prop
  | kept {cc : ConditionCodes} (same : cc.interruptFlags = c.regs.cc.interruptFlags) :
      FlagsChange c event cc
  | loaded (loads : LoadsFlags c event) (cc : ConditionCodes) : FlagsChange c event cc
  | raised (raises : RaisesFlags c event) :
      FlagsChange c event (c.regs.cc.raise (Word.low c.data))
  | marked (marks : MarksFrame c event) (entire : Bool) :
      FlagsChange c event { c.regs.cc with entire := entire }
  | taken (which : InterruptVector) (takes : (⟨c, event⟩ : Occurrence).Takes which) :
      FlagsChange c event (c.regs.cc.raise which.mask)
  | reset (begins : BeginsReset c event) : FlagsChange c event c.regs.cc.maskAll

theorem flagsChange_act {action : Action} {rest : List MicroOp}
    (pending : c.schedule.pending = .action action :: rest) :
    FlagsChange c (.move ({ c with schedule := c.schedule.advance }.act action))
      ({ c with schedule := c.schedule.advance }.act action).landed.regs.cc := by
  cases action with
  | operate =>
    change FlagsChange c _ ({ c with schedule := c.schedule.advance } : Processor).effect.regs.cc
    rcases Processor.interruptFlags_effect { c with schedule := c.schedule.advance } with
      same | loads | ⟨op, raised⟩
    · exact .kept same
    · exact .loaded (.effect pending (loads.of_same rfl rfl)) _
    · rw [raised]
      exact .raised (.effect pending op)
  | markEntire entire => exact .marked (.mark pending) entire
  | vector which => exact .taken which ⟨c.regs.pc, List.mem_cons_self⟩
  | _ => exact .kept rfl

theorem flagsChange_serving (interrupt : HardwareInterrupt) :
    FlagsChange c (.move (c.serving interrupt)) (c.serving interrupt).landed.regs.cc := by
  have raised : (c.serving interrupt).landed.regs.cc = c.regs.cc.raise interrupt.vector.mask := by
    cases interrupt <;> rfl
  rw [raised]
  exact .taken interrupt.vector ⟨_, List.mem_cons_self⟩

theorem flagsChange_carryOut {cycle : BusCycle} (h : Orderly c) (sourced : Sourced c)
    (due : c.due? = some cycle) (byte : Byte) :
    FlagsChange c (.access byte) (c.carryOut cycle byte).regs.cc := by
  by_cases other : ∀ stack, cycle ≠ .pull stack .cc
  · rw [Processor.cc_carryOut c byte other]
    exact .kept rfl
  · obtain ⟨stack, rfl⟩ : ∃ stack, cycle = .pull stack .cc := by simpa using other
    obtain ⟨rest, pending⟩ := (Processor.due?_eq_some_iff h.consistent).1 due
    refine .loaded (.pull byte due (sourced.op_of_pullsFlags h ?_)) _
    rw [pending]
    exact List.mem_cons_self

/-- There is no other way, as long as the registers are not written from outside. -/
theorem Occurs.flagsChange (occurs : Occurs keepsRegisters c event d) (h : Orderly c)
    (sourced : Sourced c) : FlagsChange c event d.regs.cc := by
  cases event with
  | move m =>
    obtain ⟨happens, rfl⟩ := occurs.moveHappens h.consistent
    cases happens with
    | act pending => exact flagsChange_act pending
    | wake _ _ _ _ => exact flagsChange_serving _
    | phase dry goes =>
      cases goes with
      | served _ _ => exact flagsChange_serving _
      | reset phase => exact .reset (.reset phase List.mem_cons_self)
      | release _ _ | boundary _ _ | asked _ _ | unasked _ _ | retire _ | unserved _ _ =>
        exact .kept rfl
  | announce =>
    cases occurs
    rw [Processor.announce_eq]
    exact .kept rfl
  | access byte =>
    cases occurs with
    | cycle _ due _ => exact flagsChange_carryOut h sourced due byte
    | idle _ _ _ _ =>
      rw [Processor.idled_eq]
      exact .kept rfl
  | call call =>
    cases occurs with
    | call allow =>
      cases call with
      | registers regs => exact allow.elim
      | drive _ | reset | setPc _ => exact .kept rfl

/-! ## The doors -/

/-- How E, F and I may differ between two times, by what has been done in between. -/
structure FlagsAccounted (did : (Processor → Event → Prop) → Prop)
    (before after : ConditionCodes) : Prop where
  opened : ∀ mask : Mask, mask.closed before = true → mask.closed after = false → did LoadsFlags
  closed : ∀ mask : Mask, mask.closed before = false → mask.closed after = true →
    did LoadsFlags ∨ did RaisesFlags ∨ did TakesVector ∨ did BeginsReset
  marked : after.entire ≠ before.entire → did LoadsFlags ∨ did RaisesFlags ∨ did MarksFrame

/-- Vectors leave E alone. -/
theorem ConditionCodes.entire_raise_vector (cc : ConditionCodes) (which : InterruptVector) :
    (cc.raise which.mask).entire = cc.entire := by
  obtain ⟨e, f, h, i, n, z, v, c⟩ := cc
  revert e f h i n z v c
  cases which <;> decide

namespace FlagsChange

variable {cc : ConditionCodes}

/-- Only a load opens a mask. -/
theorem opens (change : FlagsChange c event cc) {mask : Mask}
    (closed : mask.closed c.regs.cc = true) (opened : mask.closed cc = false) :
    LoadsFlags c event := by
  have other : mask.closed cc ≠ true := by
    rw [opened]
    decide
  cases change with
  | loaded loads _ => exact loads
  | kept same => exact absurd ((mask.closed_congr same).trans closed) other
  | raised _ | taken _ _ => exact absurd (mask.closed_raise _ _ closed) other
  | marked _ _ => cases mask <;> exact absurd closed other
  | reset _ => cases mask <;> exact absurd rfl other

/-- What closes one. -/
theorem closes (change : FlagsChange c event cc) {mask : Mask}
    (opened : mask.closed c.regs.cc = false) (closed : mask.closed cc = true) :
    LoadsFlags c event ∨ RaisesFlags c event ∨ TakesVector c event ∨ BeginsReset c event := by
  have other : mask.closed c.regs.cc ≠ true := by
    rw [opened]
    decide
  cases change with
  | loaded loads _ => exact Or.inl loads
  | raised raises => exact Or.inr (Or.inl raises)
  | taken which takes => exact Or.inr (Or.inr (Or.inl ⟨which, takes⟩))
  | reset begins => exact Or.inr (Or.inr (Or.inr begins))
  | kept same => exact absurd ((mask.closed_congr same).symm.trans closed) other
  | marked _ _ => cases mask <;> exact absurd closed other

/-- What writes E. -/
theorem marks (change : FlagsChange c event cc) (differs : cc.entire ≠ c.regs.cc.entire) :
    LoadsFlags c event ∨ RaisesFlags c event ∨ MarksFrame c event := by
  cases change with
  | loaded loads _ => exact Or.inl loads
  | raised raises => exact Or.inr (Or.inl raises)
  | marked marks _ => exact Or.inr (Or.inr marks)
  | kept same => exact absurd (congrArg InterruptFlags.entire same) differs
  | taken which _ => exact absurd (c.regs.cc.entire_raise_vector which) differs
  | reset _ => exact absurd rfl differs

theorem accounted (change : FlagsChange c event cc) :
    FlagsAccounted (fun P => P c event) c.regs.cc cc :=
  ⟨fun _ => change.opens, fun _ => change.closes, change.marks⟩

end FlagsChange

/-- Along a path the flags differ because something on the way made the difference. -/
theorem Path.flagsAccounted {past : List Occurrence} (path : Path keepsRegisters c past d)
    (h : Staged c) :
    FlagsAccounted (fun P => ∃ o ∈ past, P o.before o.event) c.regs.cc d.regs.cc := by
  -- Where a property of the flags comes to hold, an occurrence is accounted for.
  have turning : ∀ P : ConditionCodes → Prop, ¬P c.regs.cc → P d.regs.cc →
      ∃ o ∈ past, ∃ cc, FlagsChange o.before o.event cc ∧ ¬P o.before.regs.cc ∧ P cc := by
    intro P before after
    obtain ⟨front, o, back, e, rfl, way, still, occurs, turned⟩ :=
      path.turns (P := fun d => P d.regs.cc) before after
    have staged := h.path way
    exact ⟨o, List.mem_append_right front List.mem_cons_self, e.regs.cc,
      occurs.flagsChange staged.orderly staged.sourced, still, turned⟩
  refine ⟨fun mask closed opened => ?_, fun mask opened closed => ?_, fun differs => ?_⟩
  · obtain ⟨o, mem, cc, change, still, turned⟩ :=
      turning (fun cc => mask.closed cc = false) (by rw [closed]; decide) opened
    exact ⟨o, mem, change.opens (by simpa using still) turned⟩
  · obtain ⟨o, mem, cc, change, still, turned⟩ :=
      turning (fun cc => mask.closed cc = true) (by rw [opened]; decide) closed
    rcases change.closes (by simpa using still) turned with loads | raises | takes | begins
    · exact Or.inl ⟨o, mem, loads⟩
    · exact Or.inr (Or.inl ⟨o, mem, raises⟩)
    · exact Or.inr (Or.inr (Or.inl ⟨o, mem, takes⟩))
    · exact Or.inr (Or.inr (Or.inr ⟨o, mem, begins⟩))
  · obtain ⟨o, mem, cc, change, still, turned⟩ :=
      turning (fun cc => cc.entire = d.regs.cc.entire) differs.symm rfl
    have other : cc.entire ≠ o.before.regs.cc.entire := fun same => still (same.symm.trans turned)
    rcases change.marks other with loads | raises | marks
    · exact Or.inl ⟨o, mem, loads⟩
    · exact Or.inr (Or.inl ⟨o, mem, raises⟩)
    · exact Or.inr (Or.inr ⟨o, mem, marks⟩)

/-! ## Between two servings -/

/-- The vector of a hardware interrupt is taken by serving it. -/
theorem Occurs.serves_of_takes (occurs : Occurs allowed c event d) (h : Staged c)
    {interrupt : HardwareInterrupt} (takes : (⟨c, event⟩ : Occurrence).Takes interrupt.vector) :
    (⟨c, event⟩ : Occurrence).Serves interrupt ∧ d = (c.serving interrupt).landed := by
  rcases occurs.takes h.orderly.consistent takes with
    ⟨rest, pending⟩ | ⟨other, vector, dry, phase, recognised, event, landed⟩
  · refine absurd rfl (h.sourced.ne_hardware h.orderly ?_ interrupt)
    rw [pending]
    exact List.mem_cons_self
  · obtain rfl := HardwareInterrupt.vector_injective vector
    exact ⟨⟨dry, phase, recognised, event⟩, landed⟩

/-- An interrupt that has a mask is served with its mask open and leaves it closed, and I
with it. -/
theorem Occurs.mask_of_takes (occurs : Occurs allowed c event d) (h : Staged c) {mask : Mask}
    (takes : (⟨c, event⟩ : Occurrence).Takes mask.interrupt.vector) :
    mask.closed c.regs.cc = false ∧ mask.closed d.regs.cc = true ∧
      Mask.irq.closed d.regs.cc = true := by
  obtain ⟨serves, rfl⟩ := occurs.serves_of_takes h takes
  refine ⟨Mask.open_of_recognised serves.recognised, ?_⟩
  obtain ⟨irq, both, firq⟩ := Mask.closed_raise_vector c.regs.cc
  cases mask with
  | irq => exact ⟨irq, irq⟩
  | firq => exact ⟨firq, both⟩

/-- If something holds until an access is made, and does not hold any more, one was made. -/
theorem Path.accesses_ne_nil {P : Processor → Prop} {past : List Occurrence}
    (path : Path allowed c past d)
    (kept : ∀ {c d : Processor} {event : Event}, P c → Occurs allowed c event d →
      (∀ byte, event ≠ .access byte) → P d)
    (before : P c) (after : ¬P d) : accesses past ≠ [] := by
  obtain ⟨front, o, back, e, rfl, _, still, occurs, turned⟩ :=
    path.turns (P := fun d => ¬P d) (Classical.not_not.2 before) after
  obtain ⟨c, event⟩ := o
  cases event with
  | access byte =>
    rw [accesses_append]
    exact List.append_ne_nil_of_right_ne_nil _ (List.cons_ne_nil _ _)
  | _ => exact absurd (kept (Classical.not_not.1 still) occurs nofun) turned

/-- The next step is a bus cycle, and no pull of the flags; or nothing is pending. -/
def Distant (c : Processor) : Prop :=
  ∀ op ∈ c.schedule.pending.head?, ∃ cycle, op = .cycle cycle ∧ ∀ stack, cycle ≠ .pull stack .cc

theorem Distant.not_loads (h : Distant c) (consistent : c.schedule.Consistent) :
    ¬LoadsFlags c event := by
  intro loads
  cases loads with
  | effect pending _ =>
    obtain ⟨cycle, same, _⟩ := h (.action .operate) (by rw [pending]; exact rfl)
    cases same
  | @pull stack byte due _ =>
    obtain ⟨rest, pending⟩ := (Processor.due?_eq_some_iff consistent).1 due
    obtain ⟨cycle, same, other⟩ := h (.cycle (.pull stack .cc)) (by rw [pending]; exact rfl)
    cases same
    exact other stack rfl

theorem Distant.of_pending {ops : List MicroOp} (pending : c.schedule.pending = ops)
    (first : ∀ op ∈ ops.head?, ∃ cycle, op = .cycle cycle ∧ ∀ stack, cycle ≠ .pull stack .cc) :
    Distant c := by
  rw [Distant, pending]
  exact first

theorem Distant.of_vector (pending : c.schedule.pending = .cycle .dummy :: vectorFetch) :
    Distant c :=
  .of_pending pending fun _ mem => ⟨.dummy, (Option.some.inj mem).symm, nofun⟩

/-- That does not change before the access. -/
theorem Distant.occurs (h : Distant c) (orderly : Orderly c) (occurs : Occurs allowed c event d)
    (quiet : ∀ byte, event ≠ .access byte) : Distant d := by
  cases event with
  | access byte => exact absurd rfl (quiet byte)
  | announce =>
    cases occurs
    rw [Distant, Processor.schedule_announce]
    exact h
  | call call =>
    cases occurs
    cases call with
    | drive _ | registers _ => exact h
    | reset => exact fun _ mem => nomatch mem
    | setPc pc =>
      exact .of_pending (c.pending_setPc pc) fun _ mem =>
        ⟨.fetchOpcode, (Option.some.inj mem).symm, nofun⟩
  | move m =>
    have landed := occurs.pending_landed orderly
    obtain ⟨happens, rfl⟩ := occurs.moveHappens orderly.consistent
    cases happens with
    | @act action _ pending =>
      obtain ⟨cycle, same, _⟩ := h (.action action) (by rw [pending]; exact rfl)
      cases same
    | wake dry _ _ _ =>
      rw [dry] at landed
      exact .of_vector landed
    | phase dry goes =>
      rw [dry] at landed
      cases goes with
      | served _ _ => exact .of_vector landed
      | release _ _ =>
        exact .of_pending landed fun _ mem =>
          ⟨.readPointer 0, (Option.some.inj mem).symm, nofun⟩
      | asked _ _ =>
        exact .of_pending landed fun _ mem => ⟨.peekPc, (Option.some.inj mem).symm, nofun⟩
      | unasked _ _ =>
        exact .of_pending landed fun _ mem => ⟨.fetchOpcode, (Option.some.inj mem).symm, nofun⟩
      | reset _ | boundary _ _ | retire _ | unserved _ _ =>
        exact .of_pending landed fun _ mem => nomatch mem

/-- After a vector is taken, its fetch comes first. -/
theorem Occurs.distant_of_takes (occurs : Occurs allowed c event d) (staged : Staged c)
    {interrupt : HardwareInterrupt} (takes : (⟨c, event⟩ : Occurrence).Takes interrupt.vector) :
    Distant d := by
  obtain ⟨serves, rfl⟩ := occurs.serves_of_takes staged takes
  have dry : c.schedule.pending = [] := serves.dry
  obtain rfl : event = .move (c.serving interrupt) := serves.event
  have landed := occurs.pending_landed staged.orderly
  rw [dry] at landed
  exact .of_vector landed

/-- No interrupt is about to be served: what is done has nothing to do with a frame, or a
bus cycle is next. -/
def Remote (c : Processor) : Prop :=
  Outside c ∨ ∃ cycle rest, c.schedule.pending = .cycle cycle :: rest

theorem Remote.not_takes (h : Remote c) (occurs : Occurs allowed c event d) (staged : Staged c)
    {interrupt : HardwareInterrupt} : ¬(⟨c, event⟩ : Occurrence).Takes interrupt.vector := by
  intro takes
  obtain ⟨serves, _⟩ := occurs.serves_of_takes staged takes
  rcases h with outside | ⟨cycle, rest, pending⟩
  · exact serves.phase.elim outside.phase.1 outside.phase.2
  · have dry : c.schedule.pending = [] := serves.dry
    rw [pending] at dry
    cases dry

/-- That does not change before the access, either. -/
theorem Remote.occurs (h : Remote c) (staged : Staged c)
    (occurs : Occurs keepsRegisters c event d) (quiet : ∀ byte, event ≠ .access byte) :
    Remote d := by
  have orderly := staged.orderly
  cases event with
  | access byte => exact absurd rfl (quiet byte)
  | announce =>
    cases occurs
    refine h.imp (fun outside => ⟨?_, ?_⟩) ?_
    · rw [Processor.announce_eq]
      exact outside.phase
    · rw [Processor.schedule_announce]
      exact outside.enter
    · rw [Processor.schedule_announce]
      exact id
  | call call =>
    rcases occurs.drives_or_outside with drives | outside
    · obtain ⟨levels, rfl⟩ := drives call rfl
      cases occurs
      exact h.imp_left fun outside => ⟨outside.phase, outside.enter⟩
    · exact Or.inl outside
  | move m =>
    have landed := occurs.pending_landed orderly
    obtain ⟨happens, rfl⟩ := occurs.moveHappens orderly.consistent
    cases happens with
    | act pending =>
      rcases h with outside | ⟨cycle, rest, same⟩
      · exact Or.inl (outside.act orderly staged.sourced pending landed)
      · rw [pending] at same
        cases same
    | wake dry phase _ _ =>
      rcases h with outside | ⟨cycle, rest, same⟩
      · exact absurd phase outside.phase.2
      · rw [dry] at same
        cases same
    | phase dry goes =>
      rcases h with outside | ⟨cycle, rest, same⟩
      · rcases outside.phaseGoes goes landed with after | ⟨interrupt, phase, recognised⟩
        · exact Or.inl after
        · rw [dry] at landed
          cases goes with
          | asked _ _ => exact Or.inr ⟨_, _, landed⟩
          | unasked _ none =>
            rw [none] at recognised
            cases recognised
          | reset other | release other _ | boundary other _ | retire other | served other _
            | unserved other _ =>
            rw [other] at phase
            cases phase
      · rw [dry] at same
        cases same

/-- The masks are opened in the middle of an instruction. -/
theorem LoadsFlags.remote {m : Move} (loads : LoadsFlags c (.move m))
    (occurs : Occurs allowed c (.move m) d) (staged : Staged c) : Remote d := by
  have orderly := staged.orderly
  cases loads with
  | @effect _ rest pending _ =>
    have mem : .action .operate ∈ c.schedule.pending := by
      rw [pending]
      exact List.mem_cons_self
    have landed := occurs.pending_landed orderly
    obtain ⟨happens, rfl⟩ := occurs.moveHappens orderly.consistent
    cases happens with
    | phase dry _ | wake dry _ _ _ =>
      rw [dry] at pending
      cases pending
    | act same =>
      rw [pending] at same
      cases same
      have phase : c.phase = .execution :=
        staged.admitted.execution_of_mem mem (by intro interrupt; cases interrupt <;> decide)
          (by decide)
      by_cases enter : .action (.enter .dispatch) ∈ c.schedule.pending
      · -- CWAI has its frame ahead of it, which begins with a bus cycle.
        cases staged.sourced.remarkable orderly enter rfl with
        | fetch fetch _ => cases fetch
        | pull pull _ _ _ => cases pull
        | enter _ _ suffix =>
          rw [pending] at suffix landed
          have tail : rest = cwaiTail.tail := by
            rcases List.suffix_cons_iff.1 suffix with all | suffix
            · cases all
            · rcases List.suffix_cons_iff.1 suffix with all | suffix
              · cases all
                rfl
              · exact absurd (suffix.subset List.mem_cons_self) (by decide)
          rw [tail] at landed
          exact Or.inr ⟨_, _, landed⟩
      · have outside : Outside c := ⟨by rw [phase]; exact ⟨nofun, nofun⟩, enter⟩
        exact Or.inl (outside.act orderly staged.sourced pending landed)

/-- Between two servings of an interrupt that has a mask, an instruction opens the mask, at
least one bus cycle after the first and one before the second. -/
theorem Path.opened_between {past front mid back : List Occurrence} {first second : Occurrence}
    {mask : Mask} (path : History keepsRegisters past c)
    (split : past = front ++ first :: mid ++ second :: back)
    (once : first.Takes mask.interrupt.vector) (twice : second.Takes mask.interrupt.vector) :
    ∃ early o late e, mid = early ++ o :: late ∧ Occurs keepsRegisters o.before o.event e ∧
      LoadsFlags o.before o.event ∧ mask.closed o.before.regs.cc = true ∧
      mask.closed e.regs.cc = false ∧ accesses early ≠ [] ∧ accesses (o :: late) ≠ [] := by
  rw [split] at path
  obtain ⟨toSecond, _, second', _⟩ := path.split
  obtain ⟨toFirst, d, first', between⟩ := toSecond.split
  have staged := Staged.powerOn.path toFirst
  have after := staged.occurs first'
  have closed := (first'.mask_of_takes staged once).2.1
  have opened := (second'.mask_of_takes (Staged.powerOn.path toSecond) twice).1
  obtain ⟨early, o, late, e, rfl, toLoad, still, occurs, turned⟩ :=
    between.turns (P := fun d => mask.closed d.regs.cc = false) (by rw [closed]; decide) opened
  have loading := after.path toLoad
  have shut : mask.closed o.before.regs.cc = true := by simpa using still
  have loads := (occurs.flagsChange loading.orderly loading.sourced).opens shut turned
  obtain ⟨_, f, occurs', toLast⟩ := between.split
  refine ⟨early, o, late, e, rfl, occurs, loads, shut, turned, ?_, ?_⟩
  · have vector : Distant d := first'.distant_of_takes staged once
    exact toLoad.accesses_ne_nil (P := fun c => Staged c ∧ Distant c)
      (fun kept occurs quiet =>
        ⟨kept.1.occurs occurs, kept.2.occurs kept.1.orderly occurs quiet⟩) ⟨after, vector⟩
      fun kept => kept.2.not_loads kept.1.orderly.consistent loads
  · obtain ⟨c, event⟩ := o
    cases event with
    | access byte => exact List.cons_ne_nil _ _
    | move m =>
      have remote := loads.remote occurs' loading
      have passed := toLast.accesses_ne_nil (P := fun c => Staged c ∧ Remote c)
        (fun kept occurs quiet => ⟨kept.1.occurs occurs, kept.2.occurs kept.1 occurs quiet⟩)
        ⟨loading.occurs occurs', remote⟩
        fun kept => kept.2.not_takes second' kept.1 twice
      rw [← List.singleton_append, accesses_append]
      exact List.append_ne_nil_of_right_ne_nil _ passed
    | announce | call _ => cases loads

/-- **The interrupt masks are opened by instructions that load the flags, and by nothing
else.** Whatever happens, and in every clock on every bus, a mask is opened only by such a
load, closed only by one, by ORCC, on the way into a handler or by reset, and E is written
only by the first two and by the marking of a frame. The vectors of IRQ and FIRQ are taken
with the mask open, and leave it closed, for FIRQ both masks. Between two servings of one
of them an instruction has loaded the flags and opened its mask, with bus cycles before and
after. -/
theorem masks_opened_by_instructions :
    (∀ past c event d, History keepsRegisters past c → Occurs keepsRegisters c event d →
        FlagsAccounted (fun P => P c event) c.regs.cc d.regs.cc ∧
          ∀ mask : Mask, (⟨c, event⟩ : Occurrence).Takes mask.interrupt.vector →
            mask.closed c.regs.cc = false ∧ mask.closed d.regs.cc = true ∧
              Mask.irq.closed d.regs.cc = true) ∧
      (∀ {β σ : Type} [Bus β] (m : Monitor σ) (b : Board (Recorded β) σ),
        Reachable keepsRegisters b.cpu →
          ∃ past, Board.Past m noCall b past (Board.clock m b).2 ∧
            (transfers past).length = (Board.clock m b).1.accesses ∧
            FlagsAccounted (fun P => ∃ o ∈ past, P o.before o.event) b.cpu.regs.cc
              (Board.clock m b).2.cpu.regs.cc) ∧
      ∀ past c front first mid second back (mask : Mask), History keepsRegisters past c →
        past = front ++ first :: mid ++ second :: back → first.Takes mask.interrupt.vector →
          second.Takes mask.interrupt.vector →
            ∃ early o late e, mid = early ++ o :: late ∧
              Occurs keepsRegisters o.before o.event e ∧ LoadsFlags o.before o.event ∧
              mask.closed o.before.regs.cc = true ∧ mask.closed e.regs.cc = false ∧
              accesses early ≠ [] ∧ accesses (o :: late) ≠ [] := by
  refine ⟨?_, ?_, fun past c front first mid second back mask => Path.opened_between⟩
  · intro past c event d path occurs
    have staged := Staged.powerOn.path path
    exact ⟨(occurs.flagsChange staged.orderly staged.sourced).accounted,
      fun mask takes => occurs.mask_of_takes staged takes⟩
  · intro β σ _ m b reachable
    have staged := reachable.staged
    obtain ⟨past, happened, count, _⟩ :=
      Board.past_clock m noCall b staged.orderly.consistent
    exact ⟨past, happened, count,
      (happened.path.mono fun _ none => none.elim).flagsAccounted staged⟩

/-- A program that waits with interrupts let through, and a handler that returns at once. -/
def returningLoop : Ram :=
  (waitingLoop.overlay 0x1008 [0x3B]).overlay 0xFFF8 [0x10, 0x08]

/-- IRQ stays asserted and is served again as soon as RTI has opened its mask. -/
theorem masks_opened_by_instructions_returning :
    ∃ past c front first mid second back, History keepsRegisters past c ∧
      past = front ++ first :: mid ++ second :: back ∧ first.Takes .irq ∧ second.Takes .irq ∧
        ∃ early o late, mid = early ++ o :: late ∧ LoadsFlags o.before o.event ∧
          o.before.regs.cc.irqMask = true := by
  let lines := List.replicate 60 { Levels.low with irq := true }
  let b : Board (Recorded Ram) (List Notice) := ⟨.powerOn, ⟨returningLoop, #[]⟩, []⟩
  have log : (Board.clocks .logging lines b).notes =
      [.resetBegun, .resetReleased] ++ .vectorTaken .irq 0x1006 ::
        ([] ++ .vectorTaken .irq 0x1006 :: []) := by decide +kernel
  have drives : ∀ levels, keepsRegisters (.drive levels) := fun _ => trivial
  obtain ⟨past, happened⟩ := Board.past_clocks .logging drives lines b
    Processor.orderly_powerOn.consistent
  have path := happened.path
  have noted := happened.notes_logging Processor.orderly_powerOn.consistent
  rw [log] at noted
  obtain ⟨front, first, rest, rfl, taken, more⟩ := exists_of_noted noted.symm
  obtain ⟨mid, second, back, rfl, again, _⟩ := exists_of_noted more
  have split : front ++ first :: (mid ++ second :: back) =
      front ++ first :: mid ++ second :: back := by
    rw [List.append_assoc, List.cons_append]
  have once := Occurrence.takes_of_notice? taken
  have twice := Occurrence.takes_of_notice? again
  obtain ⟨early, o, late, _, same, _, loads, closed, _⟩ :=
    masks_opened_by_instructions.2.2 _ _ front first mid second back .irq path split once twice
  exact ⟨_, _, front, first, mid, second, back, path, split, once, twice, early, o, late, same,
    loads, closed⟩

end Sim6809
