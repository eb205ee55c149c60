/-
Comparisons and branches.

A branch tests flags, and a programmer reads it as a relation between the two operands of the
comparison before it. `Condition.relates` is that reading, for numbers with and without a sign.
That it agrees with the table of conditions follows from what subtraction says about its flags
(`Subtracted`), at any width: the unsigned conditions are about the borrow, and the signed ones
about N and V together, whose difference is the sign of the exact result.

The rest is two instructions in a row. The comparison changes no memory and no register but PC
and the flags, leaving aside an index register that its postbyte steps, so the branch finds what
was there.
-/
import Sim6809.Proofs.Execution
import Sim6809.Proofs.IntegerArithmetic

set_option autoImplicit false

namespace Sim6809

open Arithmetic

instance (w : Nat) (x : Int) : Decidable (Fits w x) := inferInstanceAs (Decidable (_ ∧ _))

/-! ## Conditions as relations -/

/-- What a condition says about two numbers that were compared. -/
def Condition.relates {w : Nat} (a b : BitVec w) : Condition → Bool
  | always => true
  | never => false
  | hi => b.toNat < a.toNat
  | ls => a.toNat ≤ b.toNat
  | hs => b.toNat ≤ a.toNat
  | lo => a.toNat < b.toNat
  | ne => a ≠ b
  | eq => a = b
  | vc => Fits w (a.toInt - b.toInt)
  | vs => ¬Fits w (a.toInt - b.toInt)
  | pl => !(a - b).msb
  | mi => (a - b).msb
  | ge => b.toInt ≤ a.toInt
  | lt => a.toInt < b.toInt
  | gt => b.toInt < a.toInt
  | le => a.toInt ≤ b.toInt

namespace Arithmetic.Subtracted

variable {w : Nat} {a b r : BitVec w} {cc : ConditionCodes}

/-- The result and the subtrahend make up the minuend, up to the width. -/
theorem folded (h : Subtracted a b false r cc) :
    a.toNat = r.toNat + b.toNat ∨ a.toNat + 2 ^ w = r.toNat + b.toNat :=
  folded_difference a b r false h.value

theorem eq_sub (h : Subtracted a b false r cc) : r = a - b := by
  have range := a.isLt
  rw [BitVec.eq_sub_iff_add_eq]
  apply BitVec.eq_of_toNat_eq
  rw [BitVec.toNat_add]
  rcases h.folded with linear | wrapped
  · rw [← linear, Nat.mod_eq_of_lt range]
  · rw [← wrapped, Nat.add_mod_right, Nat.mod_eq_of_lt range]

theorem carry_eq (h : Subtracted a b false r cc) : cc.carry = decide (a.toNat < b.toNat) := by
  rw [Bool.eq_iff_iff, decide_eq_true_iff]
  exact h.borrows

theorem zero_eq (h : Subtracted a b false r cc) : cc.zero = decide (a = b) := by
  have range := a.isLt
  have range' := b.isLt
  have range'' := r.isLt
  rw [Bool.eq_iff_iff, decide_eq_true_iff, h.zero, ← BitVec.toNat_inj]
  rcases h.folded with linear | wrapped <;> omega

theorem overflow_eq (h : Subtracted a b false r cc) :
    cc.overflow = decide (¬Fits w (a.toInt - b.toInt)) := by
  have overflows := h.overflows
  rw [Bool.toNat_false, Nat.cast_zero, Int.sub_zero] at overflows
  rw [Bool.eq_iff_iff, decide_eq_true_iff, overflows]

/-- N and V differ if the exact difference is negative. -/
theorem less_eq (pos : 0 < w) (h : Subtracted a b false r cc) :
    (cc.negative != cc.overflow) = decide (a.toInt < b.toInt) := by
  have twice := two_pow_eq_half pos
  have range := a.isLt
  have range' := b.isLt
  have range'' := r.isLt
  have folded := h.folded
  rw [Bool.eq_iff_iff, decide_eq_true_iff, h.negative, h.overflow_eq, toInt_eq_half pos,
    toInt_eq_half pos]
  simp only [BitVec.msb_eq_decide, Fits, two_pow_eq_cast]
  rw [twice] at *
  generalize 2 ^ (w - 1) = half at *
  by_cases high : half ≤ a.toNat <;> by_cases high' : half ≤ b.toNat <;>
    by_cases high'' : half ≤ r.toNat <;> simp [high, high', high''] <;> omega

/-- **Conditions are relations.** After a comparison a condition holds if its relation does. -/
theorem holds_eq_relates (pos : 0 < w) (h : Subtracted a b false r cc) (condition : Condition) :
    condition.holds cc = condition.relates a b := by
  have less := h.less_eq pos
  have alike : (cc.negative == cc.overflow) = !decide (a.toInt < b.toInt) := by
    rw [← less, bne, Bool.not_not]
  rw [Condition.holds.eq_def, Condition.relates.eq_def, Bool.eq_iff_iff]
  cases condition with
  | always | never => rfl
  | hs | lo => simp [h.carry_eq]
  | ne | eq => simp [h.zero_eq]
  | hi | ls =>
    simp only [h.carry_eq, h.zero_eq, ← BitVec.toNat_inj]
    grind
  | vc | vs => simp [h.overflow_eq]
  | pl | mi => simp [h.negative, h.eq_sub]
  | ge | lt => simp [alike, less]
  | gt | le =>
    simp only [alike, less, h.zero_eq, ← BitVec.toInt_inj]
    grind

end Arithmetic.Subtracted

/-! ## Comparisons -/

namespace Instruction

/-- The instruction, its opcode right before `pc`, compares `a` with `b`: a register with the
operand. -/
inductive Compares (i : Instruction) (ram : Ram) (r : RegisterFile) (pc : Word) :
    {w : Nat} → BitVec w → BitVec w → Prop
  | byte {register : Accumulator} (op : i.op = .byte .cmp register) :
    Compares i ram r pc ((i.addressed ram r pc).accumulator register).toBitVec
      (ram (i.effectiveAddress ram r pc)).toBitVec
  | word {register : WordRegister} (op : i.op = .word .cmp register) :
    Compares i ram r pc ((i.addressed ram r pc).word register).toBitVec
      (ram.word (i.effectiveAddress ram r pc)).toBitVec

variable {i : Instruction} {ram : Ram} {r : RegisterFile} {pc : Word} {w : Nat} {a b : BitVec w}

theorem Compares.isData (h : i.Compares ram r pc a b) : i.op.isData = true := by
  cases h with
  | byte op | word op =>
    rw [op]
    rfl

/-- It changes the flags, and they tell how the two numbers are related. -/
theorem Compares.execute (h : i.Compares ram r pc a b) :
    ∃ cc, i.execute ram r pc = ({ i.addressed ram r pc with cc := cc }, ram) ∧
      ∀ condition : Condition, condition.holds cc = condition.relates a b := by
  cases h with
  | @byte register op =>
    have subtracted := subtracted_subByte (i.addressed ram r pc).cc
      ((i.addressed ram r pc).accumulator register) (ram (i.effectiveAddress ram r pc)) false
    refine ⟨_, ?_, subtracted.holds_eq_relates (by decide)⟩
    rw [Instruction.execute, op]
    rfl
  | @word register op =>
    have subtracted := subtracted_subWord (i.addressed ram r pc).cc
      ((i.addressed ram r pc).word register) (ram.word (i.effectiveAddress ram r pc))
    refine ⟨_, ?_, subtracted.holds_eq_relates (by decide)⟩
    rw [Instruction.execute, op]
    rfl

/-- What an operation finds is what there was, but for PC and a register that the postbyte
steps. -/
theorem addressed_of_still
    (still : i.mode = .indexed → (IndexForm.ofPostbyte (ram pc)).step = 0) :
    i.addressed ram r pc = { r with pc := (i.addressed ram r pc).pc } := by
  unfold addressed
  split
  · next indexed =>
    rw [Postbyte.stepped_of_still (still indexed)]
  · rfl

end Instruction

/-! ## Branches -/

/-- The condition of a branch. -/
def Operation.branches? : Operation → Option Condition
  | .branch condition | .longBranch condition => some condition
  | .lbra => some .always
  | _ => none

namespace Instruction

/-- Bytes of the displacement of a branch. -/
def displacementLength (i : Instruction) : Nat :=
  match i.op with
  | .branch _ => 1
  | _ => 2

/-- The displacement of a branch, whose opcode is right before `pc`. -/
def displacement (i : Instruction) (ram : Ram) (pc : Word) : Word :=
  match i.op with
  | .branch _ => Word.signExtend (ram pc)
  | _ => ram.word pc

end Instruction

/-! With its displacement latched, a branch only has to look at the flags. -/

section

variable {c : Processor} {condition : Condition} {r : RegisterFile} {next displacement : Word}

theorem Processor.effect_branch (branch : c.instruction.op = .branch condition)
    (regs : c.regs = { r with pc := next })
    (latched : Word.signExtend (Word.low c.data) = displacement) :
    c.effect.regs =
      { r with pc := if condition.holds r.cc then next + displacement else next } := by
  rw [effect, branch]
  dsimp only
  rw [regs, latched]
  by_cases taken : condition.holds r.cc = true
  · rw [if_pos taken, if_pos taken, goTo, regs]
  · rw [if_neg taken, if_neg taken, regs]

theorem Processor.effect_longBranch (branch : c.instruction.op = .longBranch condition)
    (regs : c.regs = { r with pc := next }) (latched : c.data = displacement) :
    c.effect.regs =
      { r with pc := if condition.holds r.cc then next + displacement else next } := by
  rw [effect, branch]
  dsimp only
  rw [regs, latched]
  by_cases taken : condition.holds r.cc = true
  · rw [if_pos taken, if_pos taken, goTo, regs]
  · rw [if_neg taken, if_neg taken, regs]

theorem Processor.effect_lbra (branch : c.instruction.op = .lbra)
    (regs : c.regs = { r with pc := next }) (latched : c.data = displacement) :
    c.effect.regs = { r with pc := next + displacement } := by
  rw [effect, branch]
  dsimp only
  rw [goTo, regs, latched]

/-- One more cycle, for a branch that is taken, is idle. -/
theorem enact_growth_longBranch (branch : c.instruction.op = .longBranch condition)
    (sight : Processor × Ram) : enactAll c.growth sight = sight := by
  rw [Processor.growth, branch]
  dsimp only
  split <;> rfl

end

section

open Board

variable {σ : Type} {m : Monitor σ} {b : Board Memory σ} {n : Nat} {i : Instruction}
  {condition : Condition}

/-- Whether a branch is taken depends on the flags, and nothing but PC on the branch. -/
theorem Encodes.executes_branch (encoded : Encodes b.bus.peek 0 b.cpu.regs.pc n i)
    (proceeds : m.Proceeds) (start : b.cpu.AtOpcode 0)
    (branches : i.op.branches? = some condition) {pc next : Word}
    (operand : (b.cpu.regs.past n).pc = pc)
    (behind : (b.cpu.regs.past (n + i.displacementLength)).pc = next) :
    b.Executes m (n - 1 + i.time b.bus.peek (b.cpu.regs.past n))
      { b.cpu.regs with
        pc := if condition.holds b.cpu.regs.cc then next + i.displacement b.bus.peek pc
          else next } b.bus.peek := by
  have opcode := encoded.pos
  obtain ⟨op, mode⟩ := i
  cases op with
  | branch condition' =>
    cases branches
    cases encoded.eq_of_modes rfl rfl
    refine encoded.executes_stretch proceeds start rfl ?_ (by omega)
    intro c instruction regs
    obtain ⟨data, fetched, latched⟩ := enact_byteOperand c b.bus.peek
    have past : ({ c.regs with pc := c.regs.pc + 1 } : RegisterFile) =
        { b.cpu.regs with pc := next } := by
      rw [regs, RegisterFile.past_succ, ← behind]
      rfl
    rw [regs, operand] at latched
    change seen (enactAll ([.cycle .fetchOperand] ++ [.cycle .dummy, .action .operate])
      (c, b.bus.peek)) = _
    rw [enactAll_append, fetched, past]
    exact Prod.ext (Processor.effect_branch (congrArg Instruction.op instruction) rfl
      (congrArg Word.signExtend latched)) rfl
  | longBranch condition' =>
    cases branches
    cases encoded.eq_of_modes rfl rfl
    have time : n - 1 + Instruction.time ⟨.longBranch condition, .relative⟩ b.bus.peek
        (b.cpu.regs.past n) = n + (3 + if condition.holds b.cpu.regs.cc then 1 else 0) := by
      change n - 1 + (4 + if condition.holds b.cpu.regs.cc then 1 else 0) = _
      omega
    rw [time]
    refine encoded.executes_grown proceeds start
      [.cycle .fetchOperand, .cycle .fetchOperand, .cycle .dummy] rfl
      (by simp [Straight, MicroOp.straight, MicroOp.queues]) ?_
    intro c instruction regs
    have past : ({ c.regs with pc := c.regs.pc + 2 } : RegisterFile) =
        { b.cpu.regs with pc := next } := by
      rw [regs, RegisterFile.past_succ_succ, ← behind]
      rfl
    let d : Processor := { c with
      regs := { b.cpu.regs with pc := next }, data := Ram.word b.bus.peek c.regs.pc }
    have branch : d.instruction.op = .longBranch condition := congrArg Instruction.op instruction
    have latched : d.data = Ram.word b.bus.peek pc := by
      change Ram.word b.bus.peek c.regs.pc = _
      rw [regs, operand]
    refine ⟨d, b.bus.peek, ?_, ?_, ?_⟩
    · change enactAll ([.cycle .fetchOperand, .cycle .fetchOperand] ++ [.cycle .dummy])
        (c, b.bus.peek) = _
      rw [enactAll_append, enact_wordOperand, past]
      rfl
    · rw [Processor.length_growth, branch]
      rfl
    · rw [enact_growth_longBranch branch]
      exact Prod.ext (Processor.effect_longBranch branch rfl latched) rfl
  | lbra =>
    cases branches
    cases encoded.eq_of_modes rfl rfl
    refine encoded.executes_stretch proceeds start rfl ?_ (by omega)
    intro c instruction regs
    have past : ({ c.regs with pc := c.regs.pc + 2 } : RegisterFile) =
        { b.cpu.regs with pc := next } := by
      rw [regs, RegisterFile.past_succ_succ, ← behind]
      rfl
    change seen (enactAll ([.cycle .fetchOperand, .cycle .fetchOperand] ++
      [.cycle .dummy, .cycle .dummy, .action .operate]) (c, b.bus.peek)) = _
    rw [enactAll_append, enact_wordOperand, past, regs, operand]
    exact Prod.ext (Processor.effect_lbra (congrArg Instruction.op instruction) rfl rfl) rfl
  | _ => cases branches

/-- **Comparing and branching agrees with the order of numbers.** From a boundary, with any
registers and memory, a comparison of `a` with `b` and the branch behind it lead to the end of the
branch, or to the displacement from there if the condition of the branch is true of `a` and `b` as a
relation. Memory is not changed, and no register but PC and the flags, leaving aside one that the
postbyte of the comparison steps. What the lines do does not matter, as long as nothing is
recognised between the two. -/
theorem compare_branch_agrees {σ : Type} {m : Monitor σ} (proceeds : m.Proceeds)
    (b : Board Memory σ) (start : b.cpu.AtOpcode 0) {n : Nat} {i : Instruction}
    (encoded : Encodes b.bus.peek 0 b.cpu.regs.pc n i) {w : Nat} {x y : BitVec w}
    (compares : i.Compares b.bus.peek b.cpu.regs (b.cpu.regs.past n).pc x y) {k : Nat}
    {j : Instruction}
    (encoded' : Encodes b.bus.peek 0
      (i.addressed b.bus.peek b.cpu.regs (b.cpu.regs.past n).pc).pc k j)
    {condition : Condition} (branches : j.op.branches? = some condition) :
    let r := i.addressed b.bus.peek b.cpu.regs (b.cpu.regs.past n).pc
    let next := (r.past (k + j.displacementLength)).pc
    let target := next + j.displacement b.bus.peek (r.past k).pc
    let first := n - 1 + i.time b.bus.peek (b.cpu.regs.past n)
    ((i.mode = .indexed →
        (IndexForm.ofPostbyte (b.bus.peek (b.cpu.regs.past n).pc)).step = 0) →
      r = { b.cpu.regs with pc := r.pc }) ∧
    ∃ cc, b.Executes m first { r with cc := cc } b.bus.peek ∧
      ∀ lines : List Levels, lines.length = first → (clocks m lines b).cpu.Unasked →
        (clocks m lines b).Executes m (k - 1 + j.time b.bus.peek { r.past k with cc := cc })
          { r with pc := if condition.relates x y then target else next, cc := cc }
          b.bus.peek := by
  intro r next target first
  have opcode := encoded.pos
  refine ⟨Instruction.addressed_of_still, ?_⟩
  obtain ⟨cc, outcome, relation⟩ := compares.execute
  have time : first + 1 = n + i.time b.bus.peek (b.cpu.regs.past n) := by omega
  have compared := encoded.executes_data proceeds start compares.isData time
  change b.Executes m first (i.execute b.bus.peek b.cpu.regs (b.cpu.regs.past n).pc).1
    (i.execute b.bus.peek b.cpu.regs (b.cpu.regs.past n).pc).2 at compared
  rw [outcome] at compared
  refine ⟨cc, compared, ?_⟩
  intro lines length unasked
  have done := compared lines length
  have boundary := done.boundary unasked
  generalize clocks m lines b = between at done boundary
  have pc : between.cpu.regs.pc = r.pc := by rw [done.regs]
  have here : Encodes between.bus.peek 0 between.cpu.regs.pc k j := by
    rw [done.ram, pc]
    exact encoded'
  have branched := here.executes_branch proceeds boundary branches rfl rfl
  rw [done.ram, done.regs, relation] at branched
  exact branched

/-- `CMPA #1` and `BLT` with -1 in A, which is less only as a signed number. -/
theorem compare_branch_agrees_blt :
    ∃ (mem : Memory) (before after : Board Memory Unit),
      (mem.peek 0x1000 = 0x81 ∧ mem.peek 0x1001 = 0x01 ∧ mem.peek 0x1002 = 0x2D ∧
        mem.peek 0x1003 = 0x10) ∧
      before = ⟨Processor.setPc { Processor.powerOn with
        regs := { RegisterFile.powerOn with d := 0xFF00 } } 0x1000, mem, ()⟩ ∧
      after = Board.clocks .silent (lows 3) (Board.clocks .silent (lows 2) before) ∧
      after.cpu.regs.d = 0xFF00 ∧ after.cpu.regs.pc = 0x1014 := by
  let mem := (((Memory.blank.poke 0x1000 0x81).poke 0x1001 0x01).poke 0x1002 0x2D).poke
    0x1003 0x10
  have bytes : mem.peek 0x1000 = 0x81 ∧ mem.peek 0x1001 = 0x01 ∧ mem.peek 0x1002 = 0x2D ∧
      mem.peek 0x1003 = 0x10 := by
    simp only [mem, Memory.peek_poke]
    decide
  obtain ⟨first, second, third, fourth⟩ := id bytes
  let b : Board Memory Unit := ⟨Processor.setPc { Processor.powerOn with
    regs := { RegisterFile.powerOn with d := 0xFF00 } } 0x1000, mem, ()⟩
  have start : b.cpu.AtOpcode 0 := Processor.atOpcode_setPc _ _
  let cmp : Instruction := ⟨.byte .cmp .a, .immediate⟩
  have compare : Instruction.decode 0 (mem.peek 0x1000) = cmp := by
    rw [first]
    decide
  have branch : Instruction.decode 0 (mem.peek 0x1002) = ⟨.branch .lt, .relative⟩ := by
    rw [third]
    decide
  have behind : (b.cpu.regs.past 1).pc = 0x1001 := by decide
  have compared : cmp.addressed mem.peek b.cpu.regs (b.cpu.regs.past 1).pc =
      { b.cpu.regs with pc := 0x1002 } := by
    rw [behind]
    decide
  have encoded : Encodes mem.peek 0
      (cmp.addressed mem.peek b.cpu.regs (b.cpu.regs.past 1).pc).pc 1 ⟨.branch .lt, .relative⟩ := by
    rw [compared]
    exact .of_decode branch (by rintro _ ⟨⟩)
  obtain ⟨_, cc, executed, branched⟩ := compare_branch_agrees (m := .silent) (fun _ _ => rfl) b
    start (.of_decode compare (by rintro _ ⟨⟩)) (.byte rfl) encoded rfl
  have unasked := Processor.unasked_of_quiet
    ((executed (lows 2) rfl).quiet (fun _ => List.eq_of_mem_replicate) ⟨rfl, rfl, rfl⟩)
  have after := (branched (lows 2) rfl unasked (lows 3) rfl).regs
  have operand : b.bus.peek (cmp.effectiveAddress b.bus.peek b.cpu.regs 0x1001) = 0x01 := second
  have lands : ({ b.cpu.regs with pc := 0x1002 } : RegisterFile).past 1 =
      { b.cpu.regs with pc := 0x1003 } := by decide
  have displacement : Instruction.displacement ⟨.branch .lt, .relative⟩ b.bus.peek 0x1003 =
      0x10 := by
    change Word.signExtend (mem.peek 0x1003) = _
    rw [fourth]
    decide
  have target : (({ b.cpu.regs with pc := 0x1002 } : RegisterFile).past 2).pc + 0x10 = 0x1014 := by
    decide
  rw [compared, lands, behind, operand, displacement, if_pos (by decide)] at after
  exact ⟨mem, b, _, bytes, rfl, rfl, congrArg RegisterFile.d after,
    (congrArg RegisterFile.pc after).trans target⟩

end

end Sim6809
