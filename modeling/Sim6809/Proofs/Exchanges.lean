/-
Exchanges: what is left of two registers that change places twice.

EXG reads two registers and writes each the other's value. A register read is a word, with zeros
above a byte, and a byte register that is written takes the low byte. So a value goes through the
width of the other register and back. The registers of the file obey the laws of independent
places (`setTransferable_setTransferable`, `setTransferable_comm` and the others), and from those
alone two exchanges come to the two values, each cut to the width of its partner
(`exchanged_exchanged`). Registers of one width are as they were; in a pair of mixed width the
high byte of the word is lost.

D is not independent of A and B, so that these four pairs are worked out by themselves. In two of
them nothing is new. D with A is an exchange of A and B, which twice is nothing; A with D ends
with nothing in either.
-/
import Sim6809.Processor.Effect

set_option autoImplicit false

namespace Sim6809

/-- A byte widened and cut again. -/
@[simp] theorem Word.low_toUInt16 (byte : Byte) : Word.low byte.toUInt16 = byte :=
  UInt8.toUInt8_toUInt16 byte

theorem Word.ofBytes_zero (byte : Byte) : Word.ofBytes 0 byte = byte.toUInt16 := by
  rw [← Word.ofBytes_high_low byte.toUInt16, Word.low_toUInt16]
  apply congrArg (Word.ofBytes · byte)
  apply UInt8.toNat_inj.1
  rw [Word.toNat_high, UInt8.toNat_toUInt16, Nat.div_eq_of_lt byte.toNat_lt]
  rfl

namespace Transferable

/-- A register of sixteen bits. The others have eight. -/
def isWide : Transferable → Bool
  | .word _ | .pc => true
  | .accumulator _ | .cc | .dp => false

/-- What a register keeps of a word, as it is read back. -/
def kept (p : Transferable) (value : Word) : Word :=
  if p.isWide then value else (Word.low value).toUInt16

theorem kept_of_wide {p : Transferable} (wide : p.isWide = true) (value : Word) :
    p.kept value = value :=
  if_pos wide

theorem kept_of_narrow {p : Transferable} (narrow : p.isWide = false) (value : Word) :
    p.kept value = (Word.low value).toUInt16 :=
  if_neg (Bool.eq_false_iff.1 narrow)

/-- The wide register of a mixed pair. -/
def wider (p q : Transferable) : Transferable := if p.isWide then p else q

theorem isWide_wider {p q : Transferable} (mixed : p.isWide ≠ q.isWide) :
    (wider p q).isWide = true := by
  cases wide : p.isWide with
  | true => rw [wider, if_pos wide, wide]
  | false =>
    rw [wide] at mixed
    rw [wider, wide, if_neg Bool.false_ne_true]
    exact eq_true_of_ne_false mixed.symm

/-- D holds both accumulators; no other registers share a place. -/
def overlaps : Transferable → Transferable → Bool
  | .word .d, .accumulator _ | .accumulator _, .word .d => true
  | _, _ => false

theorem overlapping {p q : Transferable} (shared : p.overlaps q = true) :
    (p = .word .d ∧ q = .accumulator .a) ∨ (p = .word .d ∧ q = .accumulator .b) ∨
      (p = .accumulator .a ∧ q = .word .d) ∨ (p = .accumulator .b ∧ q = .word .d) := by
  unfold overlaps at shared
  split at shared
  · next half => cases half <;> decide
  · next half => cases half <;> decide
  · cases shared

theorem apart_of_same_width {p q : Transferable} (same : p.isWide = q.isWide) :
    p.overlaps q = false := by
  cases p with
  | word register =>
    cases q with
    | word | pc => cases register <;> rfl
    | accumulator | cc | dp => cases same
  | accumulator =>
    cases q with
    | word | pc => cases same
    | accumulator | cc | dp => rfl
  | pc | cc | dp => rfl

end Transferable

namespace RegisterFile

open Transferable

/-! ## Words and accumulators as places -/

section

variable (r : RegisterFile)

theorem setWord_word (register : WordRegister) : r.setWord register (r.word register) = r := by
  cases register <;> rfl

theorem setWord_setWord (register : WordRegister) (v w : Word) :
    (r.setWord register v).setWord register w = r.setWord register w := by
  cases register <;> rfl

theorem setWord_comm {register other : WordRegister} (ne : register ≠ other) (v w : Word) :
    (r.setWord register v).setWord other w = (r.setWord other w).setWord register v := by
  cases register <;> cases other <;> simp_all [setWord]

theorem setAccumulator_accumulator (register : Accumulator) :
    r.setAccumulator register (r.accumulator register) = r := by
  cases register with
  | a => exact setPart_part r .a
  | b => exact setPart_part r .b

theorem setAccumulator_setAccumulator (register : Accumulator) (v w : Byte) :
    (r.setAccumulator register v).setAccumulator register w = r.setAccumulator register w := by
  cases register <;> simp [setAccumulator, setA, setB, Word.withHigh, Word.withLow]

theorem setAccumulator_comm {register other : Accumulator} (ne : register ≠ other) (v w : Byte) :
    (r.setAccumulator register v).setAccumulator other w =
      (r.setAccumulator other w).setAccumulator register v := by
  cases register <;> cases other <;>
    simp_all [setAccumulator, setA, setB, Word.withHigh, Word.withLow]

theorem setWord_setAccumulator_comm {register : WordRegister} (ne : register ≠ .d)
    (other : Accumulator) (v : Word) (w : Byte) :
    (r.setWord register v).setAccumulator other w =
      (r.setAccumulator other w).setWord register v := by
  cases register with
  | d => exact absurd rfl ne
  | x | y | u | s => cases other <;> rfl

end

/-! ## Registers as places -/

section

variable (r : RegisterFile) {p q : Transferable} (v w : Word)

/-- A register is read as what it kept. -/
@[simp] theorem transferable_setTransferable (p : Transferable) :
    (r.setTransferable p v).transferable p = p.kept v := by
  cases p with
  | word register => exact word_setWord r register v
  | pc => rfl
  | accumulator register =>
    exact congrArg UInt8.toUInt16 (accumulator_setAccumulator r register (Word.low v))
  | cc => exact congrArg UInt8.toUInt16 (ConditionCodes.toByte_ofByte (Word.low v))
  | dp => rfl

/-- What is read fits. -/
@[simp] theorem kept_transferable (p : Transferable) :
    p.kept (r.transferable p) = r.transferable p := by
  cases p with
  | word | pc => rfl
  | accumulator | cc | dp => exact congrArg UInt8.toUInt16 (Word.low_toUInt16 _)

/-- Writing back what was read changes nothing. -/
@[simp] theorem setTransferable_transferable (p : Transferable) :
    r.setTransferable p (r.transferable p) = r := by
  cases p with
  | word register => exact setWord_word r register
  | pc => rfl
  | accumulator register =>
    exact (congrArg _ (Word.low_toUInt16 _)).trans (setAccumulator_accumulator r register)
  | cc => simp only [setTransferable, transferable, Word.low_toUInt16, ConditionCodes.ofByte_toByte]
  | dp => simp only [setTransferable, transferable, Word.low_toUInt16]

/-- The second of two writes counts. -/
theorem setTransferable_setTransferable (p : Transferable) :
    (r.setTransferable p v).setTransferable p w = r.setTransferable p w := by
  cases p with
  | word register => exact setWord_setWord r register v w
  | accumulator register => exact setAccumulator_setAccumulator r register _ _
  | pc | cc | dp => rfl

/-- The order of two writes does not matter where the places are apart. -/
theorem setTransferable_comm (ne : p ≠ q) (apart : p.overlaps q = false) :
    (r.setTransferable p v).setTransferable q w = (r.setTransferable q w).setTransferable p v := by
  cases p with
  | word register =>
    cases q with
    | word other => exact setWord_comm r (fun same => ne (congrArg Transferable.word same)) v w
    | accumulator other =>
      refine setWord_setAccumulator_comm r ?_ other v (Word.low w)
      rintro rfl
      cases apart
    | pc | cc | dp => cases register <;> rfl
  | accumulator register =>
    cases q with
    | word other =>
      refine (setWord_setAccumulator_comm r ?_ register w (Word.low v)).symm
      rintro rfl
      cases apart
    | accumulator other =>
      exact setAccumulator_comm r (fun same => ne (congrArg Transferable.accumulator same)) _ _
    | pc | cc | dp => cases register <;> rfl
  | pc | cc | dp =>
    cases q with
    | word other => cases other <;> rfl
    | accumulator other => cases other <;> rfl
    | pc | cc | dp => simp_all [setTransferable]

/-! ## Exchanging -/

/-- Both registers are read before either is written, and the second is written last. -/
def exchanged (p q : Transferable) : RegisterFile :=
  (r.setTransferable p (r.transferable q)).setTransferable q (r.transferable p)

/-- Two exchanges cut each value to the width of the other register. -/
theorem exchanged_exchanged (ne : p ≠ q) (apart : p.overlaps q = false) :
    (r.exchanged p q).exchanged p q =
      (r.setTransferable p (q.kept (r.transferable p))).setTransferable q
        (p.kept (r.transferable q)) := by
  have first : (r.exchanged p q).transferable p = p.kept (r.transferable q) := by
    rw [exchanged, setTransferable_comm r _ _ ne apart, transferable_setTransferable]
  have second : (r.exchanged p q).transferable q = q.kept (r.transferable p) := by
    rw [exchanged, transferable_setTransferable]
  calc (r.exchanged p q).exchanged p q
      = ((r.exchanged p q).setTransferable p (q.kept (r.transferable p))).setTransferable q
          (p.kept (r.transferable q)) := by rw [exchanged, first, second]
    _ = (((r.setTransferable p (r.transferable q)).setTransferable p
          (q.kept (r.transferable p))).setTransferable q (r.transferable p)).setTransferable q
          (p.kept (r.transferable q)) := by
      rw [exchanged, ← setTransferable_comm (r.setTransferable p (r.transferable q)) _ _ ne apart]
    _ = _ := by rw [setTransferable_setTransferable, setTransferable_setTransferable]

/-- Nothing is lost between registers of one width. -/
theorem exchanged_exchanged_of_same_width (same : p.isWide = q.isWide) :
    (r.exchanged p q).exchanged p q = r := by
  by_cases ne : p = q
  · subst ne
    simp only [exchanged, setTransferable_transferable]
  · have fits : q.kept (r.transferable p) = r.transferable p := by
      rw [kept, ← same]
      exact kept_transferable r p
    have fits' : p.kept (r.transferable q) = r.transferable q := by
      rw [kept, same]
      exact kept_transferable r q
    rw [exchanged_exchanged r ne (apart_of_same_width same), fits, fits',
      setTransferable_transferable, setTransferable_transferable]

/-- In a mixed pair the wide register keeps its low byte. -/
theorem exchanged_exchanged_of_apart (mixed : p.isWide ≠ q.isWide) (apart : p.overlaps q = false) :
    (r.exchanged p q).exchanged p q =
      r.setTransferable (wider p q) (Word.low (r.transferable (wider p q))).toUInt16 := by
  have ne : p ≠ q := by
    rintro rfl
    exact mixed rfl
  rw [exchanged_exchanged r ne apart, wider]
  cases wide : p.isWide with
  | true =>
    have narrow : q.isWide = false := Bool.eq_false_iff.2 (wide ▸ mixed.symm)
    rw [if_pos rfl, setTransferable_comm r _ _ ne apart, kept_of_wide wide, kept_of_narrow narrow,
      setTransferable_transferable]
  | false =>
    have wide' : q.isWide = true := eq_true_of_ne_false (wide ▸ mixed.symm)
    rw [if_neg Bool.false_ne_true, kept_of_wide wide', kept_of_narrow wide,
      setTransferable_transferable]

/-- A wide register does without its high byte if there is nothing in it. -/
theorem setTransferable_low_iff (wide : p.isWide = true) :
    r.setTransferable p (Word.low (r.transferable p)).toUInt16 = r ↔
      r.transferable p < 0x100 := by
  have small : (Word.low (r.transferable p)).toUInt16 = r.transferable p ↔
      r.transferable p < 0x100 := by
    rw [← UInt16.toNat_inj, UInt8.toNat_toUInt16, Word.toNat_low]
    exact Nat.mod_eq_iff_lt (by decide)
  rw [← small]
  constructor
  · intro same
    have read := congrArg (·.transferable p) same
    simpa only [transferable_setTransferable, kept_of_wide wide] using read
  · intro same
    rw [same, setTransferable_transferable]

/-! ### D with its halves -/

theorem exchanged_d_a : r.exchanged (.word .d) (.accumulator .a) =
    { r with d := Word.ofBytes r.b r.a } := by
  simp [exchanged, setTransferable, transferable, setWord, word, setAccumulator, accumulator, setA,
    a, b, Word.withHigh]

theorem exchanged_a_d : r.exchanged (.accumulator .a) (.word .d) =
    { r with d := Word.ofBytes 0 r.a } := by
  rw [Word.ofBytes_zero]
  rfl

/-- B as a word is D without A, in either order. -/
theorem exchanged_with_b (pair : (p = .word .d ∧ q = .accumulator .b) ∨
    (p = .accumulator .b ∧ q = .word .d)) :
    r.exchanged p q = { r with d := Word.ofBytes 0 r.b } := by
  rcases pair with ⟨rfl, rfl⟩ | ⟨rfl, rfl⟩
  · simp [exchanged, setTransferable, transferable, setWord, word, setAccumulator, accumulator,
      setB, b, Word.withLow, ← Word.ofBytes_zero]
  · rw [Word.ofBytes_zero]
    rfl

/-- The halves of D change places and change back. -/
theorem exchanged_exchanged_d_a :
    (r.exchanged (.word .d) (.accumulator .a)).exchanged (.word .d) (.accumulator .a) = r := by
  rw [exchanged_d_a, exchanged_d_a]
  simp only [a, b, Word.high_ofBytes, Word.low_ofBytes, Word.ofBytes_high_low]

/-- B is lost at once, and A goes the same way after it. -/
theorem exchanged_exchanged_a_d :
    (r.exchanged (.accumulator .a) (.word .d)).exchanged (.accumulator .a) (.word .d) =
      { r with d := 0 } := by
  rw [exchanged_a_d, exchanged_a_d]
  simp only [a, Word.high_ofBytes]
  rfl

/-- A second exchange finds what the first one left. -/
theorem exchanged_exchanged_with_b (pair : (p = .word .d ∧ q = .accumulator .b) ∨
    (p = .accumulator .b ∧ q = .word .d)) :
    (r.exchanged p q).exchanged p q =
      r.setTransferable (wider p q) (Word.low (r.transferable (wider p q))).toUInt16 := by
  have wide : wider p q = .word .d := by
    rcases pair with ⟨rfl, rfl⟩ | ⟨rfl, rfl⟩ <;> rfl
  rw [exchanged_with_b r pair, exchanged_with_b _ pair, wide, ← Word.ofBytes_zero]
  simp only [b, Word.low_ofBytes]
  rfl

/-- In a mixed pair other than D and A the wide register keeps its low byte. -/
theorem exchanged_exchanged_of_mixed (mixed : p.isWide ≠ q.isWide)
    (other : ¬(p = .word .d ∧ q = .accumulator .a))
    (other' : ¬(p = .accumulator .a ∧ q = .word .d)) :
    (r.exchanged p q).exchanged p q =
      r.setTransferable (wider p q) (Word.low (r.transferable (wider p q))).toUInt16 := by
  cases shared : p.overlaps q with
  | false => exact exchanged_exchanged_of_apart r mixed shared
  | true =>
    rcases overlapping shared with ⟨rfl, rfl⟩ | ⟨rfl, rfl⟩ | ⟨rfl, rfl⟩ | ⟨rfl, rfl⟩
    · exact absurd ⟨rfl, rfl⟩ other
    · exact exchanged_exchanged_with_b r (Or.inl ⟨rfl, rfl⟩)
    · exact absurd ⟨rfl, rfl⟩ other'
    · exact exchanged_exchanged_with_b r (Or.inr ⟨rfl, rfl⟩)

end

end RegisterFile

namespace Processor

open Transferable

variable {c : Processor} {p q : Transferable}

/-- What EXG does to the registers. -/
theorem regs_effect_exg (exg : c.instruction.op = .exg)
    (first : ofCode (Word.low c.data >>> 4) = some p) (second : ofCode (Word.low c.data) = some q) :
    c.effect.regs = c.regs.exchanged p q := by
  simp only [effect, exg, transfer, RegisterFile.readCode, RegisterFile.writeCode, first, second,
    RegisterFile.exchanged]

theorem regs_effect_effect_exg (exg : c.instruction.op = .exg)
    (first : ofCode (Word.low c.data >>> 4) = some p) (second : ofCode (Word.low c.data) = some q) :
    c.effect.effect.regs = (c.regs.exchanged p q).exchanged p q := by
  have instruction : c.effect.instruction = c.instruction := by
    simp only [effect, exg, transfer]
  have data : c.effect.data = c.data := by
    simp only [effect, exg, transfer]
  rw [regs_effect_exg (instruction ▸ exg) (data ▸ first) (data ▸ second),
    regs_effect_exg exg first second]

/-- **An exchange done twice.** It restores every register if the two have the same width, and so
it does for D with A, in this order. In a mixed pair the wide register gets its low byte back and
zeros above it, so that all is restored just in case it held less than `$100`; A with D, in this
order, leaves nothing in D. No other register is changed in any case. -/
theorem exchange_twice (exg : c.instruction.op = .exg)
    (first : ofCode (Word.low c.data >>> 4) = some p) (second : ofCode (Word.low c.data) = some q) :
    let r := c.regs
    let after := c.effect.effect.regs
    let wide := wider p q
    (p.isWide = q.isWide → after = r) ∧
      (p = .word .d ∧ q = .accumulator .a → after = r) ∧
      (p = .accumulator .a ∧ q = .word .d → after = { r with d := 0 }) ∧
      (p.isWide ≠ q.isWide → ¬(p = .word .d ∧ q = .accumulator .a) →
        ¬(p = .accumulator .a ∧ q = .word .d) →
          after = r.setTransferable wide (Word.low (r.transferable wide)).toUInt16 ∧
            (after = r ↔ r.transferable wide < 0x100)) := by
  intro r after wide
  have twice : after = (r.exchanged p q).exchanged p q := regs_effect_effect_exg exg first second
  rw [twice]
  refine ⟨?_, ?_, ?_, ?_⟩
  · exact RegisterFile.exchanged_exchanged_of_same_width r
  · rintro ⟨rfl, rfl⟩
    exact RegisterFile.exchanged_exchanged_d_a r
  · rintro ⟨rfl, rfl⟩
    exact RegisterFile.exchanged_exchanged_a_d r
  · intro mixed other other'
    rw [RegisterFile.exchanged_exchanged_of_mixed r mixed other other']
    exact ⟨rfl, RegisterFile.setTransferable_low_iff r (isWide_wider mixed)⟩

/-- A processor about to exchange A and X, where X holds more than a byte. -/
def beforeExchange : Processor :=
  { powerOn with
    instruction := ⟨.exg, .immediate⟩
    data := 0x81
    regs := { RegisterFile.powerOn with d := 0xAA00, x := 0x1234 } }

theorem exchange_twice_a_x :
    beforeExchange.effect.effect.regs = { beforeExchange.regs with x := 0x0034 } ∧
      beforeExchange.effect.effect.regs ≠ beforeExchange.regs := by
  obtain ⟨-, -, -, mixed⟩ := exchange_twice (c := beforeExchange) (p := .accumulator .a)
    (q := .word .x) rfl rfl rfl
  obtain ⟨cut, restored⟩ := mixed (by decide) (by decide) (by decide)
  exact ⟨cut.trans (by decide), fun same => absurd (restored.1 same) (by decide)⟩

/-- So the exchange of a pair of mixed width is no involution. -/
theorem exchange_not_involutive :
    ¬∀ (c : Processor) (p q : Transferable), c.instruction.op = .exg →
      ofCode (Word.low c.data >>> 4) = some p → ofCode (Word.low c.data) = some q →
        c.effect.effect.regs = c.regs := by
  intro involutive
  have restored := involutive beforeExchange (.accumulator .a) (.word .x) rfl rfl rfl
  revert restored
  decide

end Processor

end Sim6809
