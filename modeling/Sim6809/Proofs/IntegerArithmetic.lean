/-
Arithmetic over the integers.

The arithmetic unit truncates its sums and reads the flags off the bits of operands and result.
A programmer is told of numbers instead: C is the carry or the borrow, V says that the signed
result is out of range, N and Z are about the result. `Added` and `Subtracted` say that for bit
vectors of any width. Bytes and words are two instances of one argument then, and the bit trick
behind V is settled once for sums and once for differences: with half of the range as the unit
(`toInt_eq_half`) all that is left is linear arithmetic, cut into cases by the three top bits.

The other half of the story is what an operation leaves alone. `Computation` lists every way into
the unit together with its operands, and `Computation.defines` is the column of a programmer's
reference that names the flags it sets. `flag_eq_of_not_defined` says that the column is complete.
-/
import Mathlib.Algebra.Order.Ring.Int
import Sim6809.Arithmetic

set_option autoImplicit false

namespace Sim6809

namespace Arithmetic

/-! ## What the flags are to say -/

/-- A number that `w` bits can hold in two's complement. -/
def Fits (w : Nat) (x : Int) : Prop := -2 ^ (w - 1) ≤ x ∧ x < 2 ^ (w - 1)

/-- N and Z are those of the result. -/
structure Judged {w : Nat} (r : BitVec w) (cc : ConditionCodes) : Prop where
  negative : cc.negative = r.msb
  zero : cc.zero = true ↔ r.toNat = 0

/-- The outcome of adding with a carry. -/
structure Added {w : Nat} (a b : BitVec w) (carry : Bool) (r : BitVec w) (cc : ConditionCodes) :
    Prop extends Judged r cc where
  value : r.toNat = (a.toNat + b.toNat + carry.toNat) % 2 ^ w
  carries : cc.carry = true ↔ 2 ^ w ≤ a.toNat + b.toNat + carry.toNat
  overflows : cc.overflow = true ↔ ¬Fits w (a.toInt + b.toInt + carry.toNat)

/-- The outcome of subtracting with a borrow. -/
structure Subtracted {w : Nat} (a b : BitVec w) (borrow : Bool) (r : BitVec w)
    (cc : ConditionCodes) : Prop extends Judged r cc where
  value : (r.toNat : Int) = ((a.toNat : Int) - b.toNat - borrow.toNat) % 2 ^ w
  borrows : cc.carry = true ↔ a.toNat < b.toNat + borrow.toNat
  overflows : cc.overflow = true ↔ ¬Fits w (a.toInt - b.toInt - borrow.toNat)

/-! ## Overflow

The sign of the result differs from what the signs of the operands lead to. -/

section

variable {w : Nat}

theorem two_pow_eq_half (pos : 0 < w) : 2 ^ w = 2 * 2 ^ (w - 1) := by
  rw [← Nat.pow_succ', Nat.succ_eq_add_one, Nat.sub_add_cancel pos]

/-- Powers of two as integers are those of the widths. -/
theorem two_pow_eq_cast (n : Nat) : (2 : Int) ^ n = ((2 ^ n : Nat) : Int) :=
  (Int.natCast_pow 2 n).symm

/-- The top bit counts for the lower half of the signed range. -/
theorem toInt_eq_half (pos : 0 < w) (x : BitVec w) :
    x.toInt = if x.msb then (x.toNat : Int) - 2 * 2 ^ (w - 1) else x.toNat := by
  rw [BitVec.toInt_eq_msb_cond, two_pow_eq_half pos]
  push_cast
  rfl

/-- Without the remainder a sum is linear. -/
theorem folded_sum (a b r : BitVec w) (carry : Bool)
    (value : r.toNat = (a.toNat + b.toNat + carry.toNat) % 2 ^ w) :
    r.toNat = a.toNat + b.toNat + carry.toNat ∨
      r.toNat + 2 ^ w = a.toNat + b.toNat + carry.toNat := by
  have range := a.isLt
  have range' := b.isLt
  have small := carry.toNat_le
  rw [value]
  by_cases less : a.toNat + b.toNat + carry.toNat < 2 ^ w
  · exact Or.inl (Nat.mod_eq_of_lt less)
  · right
    rw [Nat.mod_eq_sub_mod (Nat.le_of_not_lt less), Nat.mod_eq_of_lt (by omega)]
    omega

theorem folded_difference (a b r : BitVec w) (borrow : Bool)
    (value : (r.toNat : Int) = ((a.toNat : Int) - b.toNat - borrow.toNat) % 2 ^ w) :
    a.toNat = r.toNat + b.toNat + borrow.toNat ∨
      a.toNat + 2 ^ w = r.toNat + b.toNat + borrow.toNat := by
  have range := a.isLt
  have range' := b.isLt
  have small := borrow.toNat_le
  rw [two_pow_eq_cast] at value
  by_cases less : a.toNat < b.toNat + borrow.toNat
  · right
    rw [← Int.add_emod_right, Int.emod_eq_of_lt (by omega) (by omega)] at value
    omega
  · left
    rw [Int.emod_eq_of_lt (by omega) (by omega)] at value
    omega

theorem overflow_of_sum (pos : 0 < w) (a b r : BitVec w) (carry : Bool)
    (value : r.toNat = (a.toNat + b.toNat + carry.toNat) % 2 ^ w) :
    ((a ^^^ r) &&& (b ^^^ r)).msb = true ↔ ¬Fits w (a.toInt + b.toInt + carry.toNat) := by
  have twice := two_pow_eq_half pos
  have range := a.isLt
  have range' := b.isLt
  have range'' := r.isLt
  have small := carry.toNat_le
  have folded := folded_sum a b r carry value
  clear value
  rw [BitVec.msb_and, BitVec.msb_xor, BitVec.msb_xor, toInt_eq_half pos, toInt_eq_half pos, Fits]
  simp only [BitVec.msb_eq_decide, two_pow_eq_cast]
  rw [twice] at *
  generalize 2 ^ (w - 1) = half at *
  by_cases high : half ≤ a.toNat <;> by_cases high' : half ≤ b.toNat <;>
    by_cases high'' : half ≤ r.toNat <;> simp [high, high', high''] <;> omega

theorem overflow_of_difference (pos : 0 < w) (a b r : BitVec w) (borrow : Bool)
    (value : (r.toNat : Int) = ((a.toNat : Int) - b.toNat - borrow.toNat) % 2 ^ w) :
    ((a ^^^ b) &&& (a ^^^ r)).msb = true ↔ ¬Fits w (a.toInt - b.toInt - borrow.toNat) := by
  have twice := two_pow_eq_half pos
  have range := a.isLt
  have range' := b.isLt
  have range'' := r.isLt
  have small := borrow.toNat_le
  have folded := folded_difference a b r borrow value
  clear value
  rw [BitVec.msb_and, BitVec.msb_xor, BitVec.msb_xor, toInt_eq_half pos, toInt_eq_half pos, Fits]
  simp only [BitVec.msb_eq_decide, two_pow_eq_cast]
  rw [twice] at *
  generalize 2 ^ (w - 1) = half at *
  by_cases high : half ≤ a.toNat <;> by_cases high' : half ≤ b.toNat <;>
    by_cases high'' : half ≤ r.toNat <;> simp [high, high', high''] <;> omega

end

/-! ## Single bits

The unit tests bits with masks. Each mask below is a power of two, so what it tests is a bit of
the number. -/

theorem and_twoPow_bne {w : Nat} (x : BitVec w) {i : Nat} (inside : i < w) :
    (x &&& BitVec.twoPow w i != 0#w) = x.getLsbD i := by
  rw [BitVec.and_twoPow]
  cases x.getLsbD i with
  | true =>
    have bit : (BitVec.twoPow w i).getLsbD i = true := by simp [inside]
    have set : BitVec.twoPow w i ≠ 0#w := by
      intro zero
      rw [zero] at bit
      simp at bit
    simpa using set
  | false => simp

theorem byte_bit (x : Byte) {i : Nat} (inside : i < 8) :
    (x &&& UInt8.ofBitVec (.twoPow 8 i) != 0) = x.toBitVec.getLsbD i := by
  rw [← and_twoPow_bne _ inside, Bool.eq_iff_iff, bne_iff_ne, bne_iff_ne, ne_eq,
    ← UInt8.toBitVec_inj]
  rfl

theorem word_bit (x : Word) {i : Nat} (inside : i < 16) :
    (x &&& UInt16.ofBitVec (.twoPow 16 i) != 0) = x.toBitVec.getLsbD i := by
  rw [← and_twoPow_bne _ inside, Bool.eq_iff_iff, bne_iff_ne, bne_iff_ne, ne_eq,
    ← UInt16.toBitVec_inj]
  rfl

theorem long_bit (x : UInt32) {i : Nat} (inside : i < 32) :
    (x &&& UInt32.ofBitVec (.twoPow 32 i) != 0) = x.toBitVec.getLsbD i := by
  rw [← and_twoPow_bne _ inside, Bool.eq_iff_iff, bne_iff_ne, bne_iff_ne, ne_eq,
    ← UInt32.toBitVec_inj]
  rfl

/-- A bit as a digit of the number. -/
theorem getLsbD_eq_decide {w : Nat} (x : BitVec w) (i : Nat) :
    x.getLsbD i = decide (x.toNat / 2 ^ i % 2 = 1) := by
  rw [← BitVec.testBit_toNat, Nat.testBit_eq_decide_div_mod_eq]

/-- The bit above the low digit. -/
theorem above_digit (x : Byte) : x.toBitVec.getLsbD 4 = decide (x.toNat / 16 % 2 = 1) :=
  getLsbD_eq_decide _ 4

/-- The bit above a byte. -/
theorem above_byte (x : Word) : (x &&& 0x100 != 0) = true ↔ x.toNat / 256 % 2 = 1 := by
  rw [show (x &&& 0x100 != 0) = x.toBitVec.getLsbD 8 from word_bit x (i := 8) (by decide),
    getLsbD_eq_decide, decide_eq_true_iff]
  rfl

/-- The bit above a word. -/
theorem above_word (x : UInt32) : (x &&& 0x10000 != 0) = true ↔ x.toNat / 65536 % 2 = 1 := by
  rw [show (x &&& 0x10000 != 0) = x.toBitVec.getLsbD 16 from long_bit x (i := 16) (by decide),
    getLsbD_eq_decide, decide_eq_true_iff]
  rfl

theorem byte_sign (x : Byte) : (x &&& 0x80 != 0) = x.toBitVec.msb :=
  byte_bit x (i := 7) (by decide)

theorem word_sign (x : Word) : (x &&& 0x8000 != 0) = x.toBitVec.msb :=
  word_bit x (i := 15) (by decide)

theorem judged_byte (cc : ConditionCodes) (r : Byte) : Judged r.toBitVec (cc.judgeByte r) where
  negative := byte_sign r
  zero := by
    change (r == 0) = true ↔ r.toNat = 0
    rw [beq_iff_eq, ← UInt8.toNat_inj]
    rfl

theorem judged_word (cc : ConditionCodes) (r : Word) : Judged r.toBitVec (cc.judgeWord r) where
  negative := word_sign r
  zero := by
    change (r == 0) = true ↔ r.toNat = 0
    rw [beq_iff_eq, ← UInt16.toNat_inj]
    rfl

/-! ## Sums and differences -/

theorem toNat_carryWord (carry : Bool) : (carryWord carry).toNat = carry.toNat := by
  cases carry <;> rfl

/-- Nine bits are enough for the sum of two bytes. -/
theorem toNat_sum (a b : Byte) (carry : Bool) :
    (a.toUInt16 + b.toUInt16 + carryWord carry).toNat = a.toNat + b.toNat + carry.toNat := by
  have range := a.toNat_lt
  have range' := b.toNat_lt
  have small := carry.toNat_le
  simp only [UInt16.toNat_add, UInt8.toNat_toUInt16, toNat_carryWord]
  omega

theorem toNat_difference (a b : Byte) (borrow : Bool) :
    ((a.toUInt16 - b.toUInt16 - carryWord borrow).toNat : Int) =
      ((a.toNat : Int) - b.toNat - borrow.toNat) % 2 ^ 16 := by
  have range := a.toNat_lt
  have range' := b.toNat_lt
  have small := borrow.toNat_le
  simp only [UInt16.toNat_sub, UInt8.toNat_toUInt16, toNat_carryWord]
  omega

theorem added_addByte (cc : ConditionCodes) (a b : Byte) (carry : Bool) :
    Added a.toBitVec b.toBitVec carry (addByte cc a b carry).value.toBitVec
      (addByte cc a b carry).cc := by
  have range := a.toNat_lt
  have range' := b.toNat_lt
  have small := carry.toNat_le
  have sum := toNat_sum a b carry
  have value : (addByte cc a b carry).value.toNat = (a.toNat + b.toNat + carry.toNat) % 2 ^ 8 := by
    change (Word.low _).toNat = (a.toNat + b.toNat + carry.toNat) % 256
    rw [Word.toNat_low, sum]
  have judged := judged_byte cc (addByte cc a b carry).value
  refine ⟨⟨judged.negative, judged.zero⟩, value, ?_, ?_⟩
  · refine (above_byte _).trans ?_
    rw [sum]
    change _ ↔ 2 ^ 8 ≤ a.toNat + b.toNat + carry.toNat
    omega
  · rw [← overflow_of_sum (by decide) _ _ _ _ value]
    exact Bool.eq_iff_iff.1 (byte_sign _)

/-- The low digits carry into bit 4. -/
theorem halfCarry_addByte (cc : ConditionCodes) (a b : Byte) (carry : Bool) :
    (addByte cc a b carry).cc.halfCarry = true ↔
      15 < a.toNat % 16 + b.toNat % 16 + carry.toNat := by
  have small := carry.toNat_le
  have value : (addByte cc a b carry).value.toNat = (a.toNat + b.toNat + carry.toNat) % 2 ^ 8 :=
    (added_addByte cc a b carry).value
  change ((a ^^^ b ^^^ (addByte cc a b carry).value) &&& 0x10 != 0) = true ↔ _
  generalize (addByte cc a b carry).value = r at value
  rw [show ((a ^^^ b ^^^ r) &&& 0x10 != 0) = _ from byte_bit _ (i := 4) (by decide),
    UInt8.toBitVec_xor, UInt8.toBitVec_xor, BitVec.getLsbD_xor, BitVec.getLsbD_xor]
  simp only [above_digit]
  by_cases bit : a.toNat / 16 % 2 = 1 <;> by_cases bit' : b.toNat / 16 % 2 = 1 <;>
    by_cases bit'' : r.toNat / 16 % 2 = 1 <;> simp [bit, bit', bit''] <;> omega

theorem subtracted_subByte (cc : ConditionCodes) (a b : Byte) (borrow : Bool) :
    Subtracted a.toBitVec b.toBitVec borrow (subByte cc a b borrow).value.toBitVec
      (subByte cc a b borrow).cc := by
  have range := a.toNat_lt
  have range' := b.toNat_lt
  have small := borrow.toNat_le
  have difference := toNat_difference a b borrow
  have value : ((subByte cc a b borrow).value.toNat : Int) =
      ((a.toNat : Int) - b.toNat - borrow.toNat) % 2 ^ 8 := by
    change ((Word.low _).toNat : Int) = _
    rw [Word.toNat_low]
    omega
  have judged := judged_byte cc (subByte cc a b borrow).value
  refine ⟨⟨judged.negative, judged.zero⟩, value, ?_, ?_⟩
  · refine (above_byte _).trans ?_
    change _ ↔ a.toNat < b.toNat + borrow.toNat
    omega
  · rw [← overflow_of_difference (by decide) _ _ _ _ value]
    exact Bool.eq_iff_iff.1 (byte_sign _)

theorem added_addWord (cc : ConditionCodes) (a b : Word) :
    Added a.toBitVec b.toBitVec false (addWord cc a b).value.toBitVec (addWord cc a b).cc := by
  have range := a.toNat_lt
  have range' := b.toNat_lt
  have sum : (a.toUInt32 + b.toUInt32).toNat = a.toNat + b.toNat := by
    simp only [UInt32.toNat_add, UInt16.toNat_toUInt32]
    omega
  have value : (addWord cc a b).value.toNat = (a.toNat + b.toNat + false.toNat) % 2 ^ 16 := by
    change (a.toUInt32 + b.toUInt32).toUInt16.toNat = _
    rw [UInt32.toNat_toUInt16, sum]
    rfl
  have judged := judged_word cc (addWord cc a b).value
  refine ⟨⟨judged.negative, judged.zero⟩, value, ?_, ?_⟩
  · refine (above_word _).trans ?_
    rw [sum]
    change _ ↔ 2 ^ 16 ≤ a.toNat + b.toNat + 0
    omega
  · rw [← overflow_of_sum (by decide) _ _ _ _ value]
    exact Bool.eq_iff_iff.1 (word_sign _)

theorem subtracted_subWord (cc : ConditionCodes) (a b : Word) :
    Subtracted a.toBitVec b.toBitVec false (subWord cc a b).value.toBitVec
      (subWord cc a b).cc := by
  have range := a.toNat_lt
  have range' := b.toNat_lt
  have difference : ((a.toUInt32 - b.toUInt32).toNat : Int) =
      ((a.toNat : Int) - b.toNat) % 2 ^ 32 := by
    simp only [UInt32.toNat_sub, UInt16.toNat_toUInt32]
    omega
  have value : ((subWord cc a b).value.toNat : Int) =
      ((a.toNat : Int) - b.toNat - false.toNat) % 2 ^ 16 := by
    change ((a.toUInt32 - b.toUInt32).toUInt16.toNat : Int) = (_ - _ - 0) % _
    rw [UInt32.toNat_toUInt16]
    omega
  have judged := judged_word cc (subWord cc a b).value
  refine ⟨⟨judged.negative, judged.zero⟩, value, ?_, ?_⟩
  · refine (above_word _).trans ?_
    change _ ↔ a.toNat < b.toNat + 0
    omega
  · rw [← overflow_of_difference (by decide) _ _ _ _ value]
    exact Bool.eq_iff_iff.1 (word_sign _)

/-! ## Products -/

/-- A word has room for the product of two bytes. -/
theorem toNat_multiply (cc : ConditionCodes) (a b : Byte) :
    (multiply cc a b).value.toNat = a.toNat * b.toNat := by
  have range : a.toNat * b.toNat ≤ 255 * 255 :=
    Nat.mul_le_mul (Nat.le_of_lt_succ a.toNat_lt) (Nat.le_of_lt_succ b.toNat_lt)
  change (a.toUInt16 * b.toUInt16).toNat = _
  rw [UInt16.toNat_mul, UInt8.toNat_toUInt16, UInt8.toNat_toUInt16]
  omega

theorem zero_multiply (cc : ConditionCodes) (a b : Byte) :
    (multiply cc a b).cc.zero = true ↔ a.toNat * b.toNat = 0 := by
  rw [← toNat_multiply cc]
  change ((multiply cc a b).value == 0) = true ↔ _
  rw [beq_iff_eq, ← UInt16.toNat_inj]
  rfl

theorem carry_multiply (cc : ConditionCodes) (a b : Byte) :
    (multiply cc a b).cc.carry = (a.toNat * b.toNat).testBit 7 := by
  rw [← toNat_multiply cc]
  exact word_bit _ (i := 7) (by decide)

/-! ## What is left alone -/

/-- A flag by its name. -/
inductive Flag
  | entire | firqMask | halfCarry | irqMask | negative | zero | overflow | carry
deriving DecidableEq

/-- The state of a flag. -/
def Flag.of (cc : ConditionCodes) : Flag → Bool
  | entire => cc.entire
  | firqMask => cc.firqMask
  | halfCarry => cc.halfCarry
  | irqMask => cc.irqMask
  | negative => cc.negative
  | zero => cc.zero
  | overflow => cc.overflow
  | carry => cc.carry

/-- Every way into the arithmetic unit, with its operands. -/
inductive Computation
  | addByte (a b : Byte) (carry : Bool)
  | subByte (a b : Byte) (borrow : Bool)
  | addWord (a b : Word)
  | subWord (a b : Word)
  | passByte (value : Byte)
  | passWord (value : Word)
  | discard
  | byte (op : ByteOp) (a b : Byte)
  | word (op : WordOp) (a b : Word)
  | unary (op : UnaryOp) (a : Byte)
  | multiply (a b : Byte)
  | decimalAdjust (a : Byte)
  | signExtend (b : Byte)

namespace Computation

/-- The flags it leaves. -/
def flags (cc : ConditionCodes) : Computation → ConditionCodes
  | addByte a b carry => (Arithmetic.addByte cc a b carry).cc
  | subByte a b borrow => (Arithmetic.subByte cc a b borrow).cc
  | addWord a b => (Arithmetic.addWord cc a b).cc
  | subWord a b => (Arithmetic.subWord cc a b).cc
  | passByte value => (Arithmetic.passByte cc value).cc
  | passWord value => (Arithmetic.passWord cc value).cc
  | discard => Arithmetic.discard cc
  | byte op a b => (op.apply cc a b).cc
  | word op a b => (op.apply cc a b).cc
  | unary op a => (op.apply cc a).cc
  | multiply a b => (Arithmetic.multiply cc a b).cc
  | decimalAdjust a => (Arithmetic.decimalAdjust cc a).cc
  | signExtend b => (Arithmetic.signExtend cc b).cc

/-- The flags it sets or clears; the others are left alone. -/
def defines : Computation → List Flag
  | addByte _ _ _ | byte .add _ _ | byte .adc _ _ =>
    [.halfCarry, .negative, .zero, .overflow, .carry]
  | subByte _ _ _ | byte .sub _ _ | byte .cmp _ _ | byte .sbc _ _ | addWord _ _ | subWord _ _
  | word _ _ _ | decimalAdjust _ => [.negative, .zero, .overflow, .carry]
  | passByte _ | passWord _ | discard | byte _ _ _ => [.negative, .zero, .overflow]
  | unary op _ =>
    match op with
    | .lsr | .ror | .asr => [.negative, .zero, .carry]
    | .dec | .inc | .tst | .clrKeepCarry => [.negative, .zero, .overflow]
    | .neg | .com | .asl | .rol | .clr | .negOrCom | .decBorrow =>
      [.negative, .zero, .overflow, .carry]
  | multiply _ _ => [.zero, .carry]
  | signExtend _ => [.negative, .zero]

/-- A sum of bytes, the one thing that half-carry is about. -/
def addsBytes : Computation → Bool
  | addByte _ _ _ | byte .add _ _ | byte .adc _ _ => true
  | _ => false

end Computation

theorem flag_eq_of_not_defined (cc : ConditionCodes) (call : Computation) {flag : Flag}
    (other : flag ∉ call.defines) : flag.of (call.flags cc) = flag.of cc := by
  cases call with
  | byte op a b =>
    cases op <;> cases flag <;> first | rfl | simp [Computation.defines] at other
  | word op a b =>
    cases op <;> cases flag <;> first | rfl | simp [Computation.defines] at other
  | unary op a =>
    cases op with
    | negOrCom =>
      change flag.of (if cc.carry then UnaryOp.complement cc a else
        Arithmetic.subByte cc 0 a false).cc = _
      split <;> cases flag <;> first | rfl | simp [Computation.defines] at other
    | _ => cases flag <;> first | rfl | simp [Computation.defines] at other
  | _ => cases flag <;> first | rfl | simp [Computation.defines] at other

/-- No operation is about E, F or I, and H belongs to the sums of bytes. -/
theorem not_defined (call : Computation) :
    .entire ∉ call.defines ∧ .firqMask ∉ call.defines ∧ .irqMask ∉ call.defines ∧
      (.halfCarry ∈ call.defines ↔ call.addsBytes = true) := by
  cases call with
  | byte op a b => cases op <;> simp [Computation.defines, Computation.addsBytes]
  | unary op a => cases op <;> simp [Computation.defines, Computation.addsBytes]
  | _ => simp [Computation.defines, Computation.addsBytes]

/-- The adjustment can set a carry and cannot take one back. -/
theorem carry_decimalAdjust (cc : ConditionCodes) (a : Byte) (carried : cc.carry = true) :
    (decimalAdjust cc a).cc.carry = true := by
  simp [decimalAdjust, carried]

/-- The unit computes with numbers: sums and differences are exact up to the width of the result,
what does not fit is in C and V, and products are exact. Flags that an operation does not define
are left as they were. -/
theorem arithmetic_is_exact (cc : ConditionCodes) :
    (∀ (a b : Byte) (carry : Bool),
      Added a.toBitVec b.toBitVec carry (addByte cc a b carry).value.toBitVec
          (addByte cc a b carry).cc ∧
        ((addByte cc a b carry).cc.halfCarry = true ↔
          15 < a.toNat % 16 + b.toNat % 16 + carry.toNat)) ∧
      (∀ (a b : Byte) (borrow : Bool),
        Subtracted a.toBitVec b.toBitVec borrow (subByte cc a b borrow).value.toBitVec
          (subByte cc a b borrow).cc) ∧
      (∀ a b : Word,
        Added a.toBitVec b.toBitVec false (addWord cc a b).value.toBitVec (addWord cc a b).cc ∧
          Subtracted a.toBitVec b.toBitVec false (subWord cc a b).value.toBitVec
            (subWord cc a b).cc) ∧
      (∀ a b : Byte,
        (multiply cc a b).value.toNat = a.toNat * b.toNat ∧
          ((multiply cc a b).cc.zero = true ↔ a.toNat * b.toNat = 0) ∧
          (multiply cc a b).cc.carry = (a.toNat * b.toNat).testBit 7) ∧
      (∀ a : Byte, cc.carry = true → (decimalAdjust cc a).cc.carry = true) ∧
      ∀ call : Computation,
        (∀ flag ∉ call.defines, flag.of (call.flags cc) = flag.of cc) ∧
          .entire ∉ call.defines ∧ .firqMask ∉ call.defines ∧ .irqMask ∉ call.defines ∧
          (.halfCarry ∈ call.defines ↔ call.addsBytes = true) := by
  refine ⟨?sums, ?differences, ?words, ?products, ?adjusted, ?others⟩
  case sums =>
    intro a b carry
    exact ⟨added_addByte cc a b carry, halfCarry_addByte cc a b carry⟩
  case differences =>
    intro a b borrow
    exact subtracted_subByte cc a b borrow
  case words =>
    intro a b
    exact ⟨added_addWord cc a b, subtracted_subWord cc a b⟩
  case products =>
    intro a b
    exact ⟨toNat_multiply cc a b, zero_multiply cc a b, carry_multiply cc a b⟩
  case adjusted =>
    intro a carried
    exact carry_decimalAdjust cc a carried
  case others =>
    intro call
    exact ⟨fun flag other => flag_eq_of_not_defined cc call other, not_defined call⟩

/-- A carry survives the adjustment of a digit that needs none, and a decrement leaves it alone. -/
theorem arithmetic_is_exact_carry :
    let cc : ConditionCodes := { ConditionCodes.ofByte 0 with carry := true }
    (decimalAdjust cc 0x05).cc.carry = true ∧
      Flag.carry.of ((Computation.unary .dec 0x80).flags cc) = true := by
  obtain ⟨-, -, -, -, adjusted, others⟩ :=
    arithmetic_is_exact { ConditionCodes.ofByte 0 with carry := true }
  exact ⟨adjusted 0x05 rfl, (others (.unary .dec 0x80)).1 .carry (by decide)⟩

end Arithmetic

end Sim6809
