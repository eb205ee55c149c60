/-
Packed decimal arithmetic: what DAA makes of ADC.

A byte holds two decimal digits, and the unit adds bytes in binary. DAA puts the sum right, from
no more than the sum itself and the two carries that it left. The argument is the one of school
arithmetic. The units are wrong exactly when their sum reaches ten, which shows as a digit above
nine or as a half carry; the tens are wrong exactly when they reach ten with the carry of the
units, which shows in one of the three ways that the adjustment tests. Sixteen less ten is six, so
adding six turns each carry of sixteen into a carry of ten (`total_addPacked`).

Numbers of any length follow as they do for binary sums, with 100 where there was 256.
-/
import Sim6809.Proofs.CarryChains

set_option autoImplicit false

namespace Sim6809.Arithmetic

/-! ## Packed digits -/

/-- The two digits of a byte, the units first. -/
def digits (byte : Byte) : List Nat := [byte.toNat % 16, byte.toNat / 16]

/-- A byte whose digits are decimal. -/
def Packed (byte : Byte) : Prop := ∀ digit ∈ digits byte, digit ≤ 9

instance (byte : Byte) : Decidable (Packed byte) :=
  List.decidableBAll (fun digit => digit ≤ 9) (digits byte)

/-- The number that packed bytes make up, the least significant byte first. -/
def decimal (bytes : List Byte) : Nat := Nat.ofDigits 10 (bytes.flatMap digits)

theorem packed_iff {byte : Byte} : Packed byte ↔ byte.toNat % 16 ≤ 9 ∧ byte.toNat / 16 ≤ 9 := by
  simp only [Packed, digits, List.forall_mem_cons, List.not_mem_nil, false_implies, implies_true,
    and_true]

@[simp] theorem decimal_nil : decimal [] = 0 := rfl

@[simp] theorem decimal_cons (byte : Byte) (bytes : List Byte) :
    decimal (byte :: bytes) = byte.toNat % 16 + 10 * (byte.toNat / 16) + 100 * decimal bytes := by
  change Nat.ofDigits 10 (_ :: _ :: bytes.flatMap digits) = _
  rw [Nat.ofDigits_cons, Nat.ofDigits_cons, ← decimal]
  omega

theorem decimal_lt {bytes : List Byte} (packed : ∀ byte ∈ bytes, Packed byte) :
    decimal bytes < 100 ^ bytes.length := by
  induction bytes with
  | nil => simp
  | cons byte bytes ih =>
    obtain ⟨first, rest⟩ := List.forall_mem_cons.1 packed
    obtain ⟨units, tens⟩ := packed_iff.1 first
    have upper := ih rest
    rw [decimal_cons, List.length_cons, Nat.pow_succ']
    omega

/-! ## The adjustment of one byte -/

theorem toNat_units (a : Byte) : (a &&& 0x0F).toNat = a.toNat % 16 :=
  Nat.and_two_pow_sub_one_eq_mod a.toNat 4

/-- A digit that left its range. -/
theorem nine_lt_units (a : Byte) : a &&& 0x0F > 0x09 ↔ 9 < a.toNat % 16 := by
  rw [← toNat_units]
  exact UInt8.lt_iff_toNat_lt

/-- What is added to correct these digits. -/
def corrections (units tens : Bool) : Byte :=
  (if units then 0x06 else 0) ||| (if tens then 0x60 else 0)

/-- The two do not meet. -/
theorem toNat_corrections (units tens : Bool) :
    (corrections units tens).toNat = 6 * units.toNat + 96 * tens.toNat := by
  cases units <;> cases tens <;> rfl

/-- What DAA computes, for any two Booleans that say which digits it corrects. -/
theorem adjusted_by (cc : ConditionCodes) (a : Byte) {units tens : Bool}
    (fixes : units = true ↔ 9 < a.toNat % 16 ∨ cc.halfCarry = true)
    (fixes' : tens = true ↔
      (0x8F < a.toNat ∧ 9 < a.toNat % 16) ∨ 0x99 < a.toNat ∨ cc.carry = true) :
    (decimalAdjust cc a).value.toNat = (a.toNat + 6 * units.toNat + 96 * tens.toNat) % 256 ∧
      ((decimalAdjust cc a).cc.carry = true ↔
        cc.carry = true ∨ 256 ≤ a.toNat + 6 * units.toNat + 96 * tens.toNat) := by
  have range := a.toNat_lt
  have small := units.toNat_le
  have small' := tens.toNat_le
  have fixUnits : (a &&& 0x0F > 0x09 ∨ cc.halfCarry = true) ↔ units = true := by
    rw [fixes, nine_lt_units]
  have fixTens : ((a > 0x8F ∧ a &&& 0x0F > 0x09) ∨ a > 0x99 ∨ cc.carry = true) ↔ tens = true := by
    rw [fixes', nine_lt_units]
    rfl
  have sum : (a.toUInt16 + (corrections units tens).toUInt16).toNat =
      a.toNat + 6 * units.toNat + 96 * tens.toNat := by
    rw [UInt16.toNat_add, UInt8.toNat_toUInt16, UInt8.toNat_toUInt16, toNat_corrections]
    omega
  have corrected : decimalAdjust cc a =
      let sum := a.toUInt16 + (corrections units tens).toUInt16
      ⟨Word.low sum, { cc.judgeByte (Word.low sum) with
        overflow := false
        carry := cc.carry || sum &&& 0x100 != 0 }⟩ := by
    simp only [decimalAdjust, Bool.or_eq_true, Bool.and_eq_true, decide_eq_true_eq, or_assoc,
      fixUnits, fixTens, corrections]
  rw [corrected]
  constructor
  · exact (Word.toNat_low _).trans (congrArg (· % 256) sum)
  · change (cc.carry || _) = true ↔ _
    rw [Bool.or_eq_true, above_byte, sum]
    apply or_congr_right
    clear fixes fixes' fixUnits fixTens
    omega

/-! ## Sums -/

/-- A sum and its adjustment: what ADC and then DAA leave behind. -/
def addPacked (cc : ConditionCodes) (pair : Byte × Byte) : Outcome Byte :=
  let sum := ByteOp.adc.apply cc pair.1 pair.2
  decimalAdjust sum.cc sum.value

/-- Rows of packed bytes added from the first one on. -/
def addDecimal (cc : ConditionCodes) (x y : List Byte) : Outcome (List Byte) :=
  chain addPacked cc (x.zip y)

section

variable (cc : ConditionCodes) {a b : Byte}

theorem toNat_adc (a b : Byte) :
    (ByteOp.adc.apply cc a b).value.toNat = (a.toNat + b.toNat + cc.carry.toNat) % 256 :=
  (added_addByte cc a b cc.carry).value

/-- The units and the carry into them reach ten. -/
def unitsFull (a b : Byte) : Bool := decide (10 ≤ a.toNat % 16 + b.toNat % 16 + cc.carry.toNat)

/-- The tens and the carry of the units reach ten. -/
def tensFull (a b : Byte) : Bool :=
  decide (10 ≤ a.toNat / 16 + b.toNat / 16 + (unitsFull cc a b).toNat)

/-- The binary sum shows that the units are full. -/
theorem unitsFull_iff (packed : Packed a) (packed' : Packed b) :
    unitsFull cc a b = true ↔
      9 < (ByteOp.adc.apply cc a b).value.toNat % 16 ∨
        (ByteOp.adc.apply cc a b).cc.halfCarry = true := by
  obtain ⟨units, tens⟩ := packed_iff.1 packed
  obtain ⟨units', tens'⟩ := packed_iff.1 packed'
  have small := cc.carry.toNat_le
  have half : (ByteOp.adc.apply cc a b).cc.halfCarry = true ↔
      15 < a.toNat % 16 + b.toNat % 16 + cc.carry.toNat := halfCarry_addByte cc a b cc.carry
  rw [half, toNat_adc, unitsFull, decide_eq_true_iff]
  omega

/-- And so it does for the tens, of which there may be nine while the units are still to carry. -/
theorem tensFull_iff (packed : Packed a) (packed' : Packed b) :
    tensFull cc a b = true ↔
      (0x8F < (ByteOp.adc.apply cc a b).value.toNat ∧
          9 < (ByteOp.adc.apply cc a b).value.toNat % 16) ∨
        0x99 < (ByteOp.adc.apply cc a b).value.toNat ∨
          (ByteOp.adc.apply cc a b).cc.carry = true := by
  obtain ⟨units, tens⟩ := packed_iff.1 packed
  obtain ⟨units', tens'⟩ := packed_iff.1 packed'
  have small := cc.carry.toNat_le
  have carries : (ByteOp.adc.apply cc a b).cc.carry = true ↔
      256 ≤ a.toNat + b.toNat + cc.carry.toNat := (added_addByte cc a b cc.carry).carries
  rw [carries, toNat_adc, tensFull, decide_eq_true_iff, unitsFull]
  by_cases full : 10 ≤ a.toNat % 16 + b.toNat % 16 + cc.carry.toNat
  · rw [decide_eq_true full, Bool.toNat_true]
    omega
  · rw [decide_eq_false full, Bool.toNat_false]
    omega

/-- Each digit is what is left of the sum of two digits and a carry when its ten is taken away, and
the ten goes to the left. -/
theorem digits_addPacked (packed : Packed a) (packed' : Packed b) :
    (addPacked cc (a, b)).value.toNat % 16 + 10 * (unitsFull cc a b).toNat =
        a.toNat % 16 + b.toNat % 16 + cc.carry.toNat ∧
      (addPacked cc (a, b)).value.toNat / 16 + 10 * (tensFull cc a b).toNat =
        a.toNat / 16 + b.toNat / 16 + (unitsFull cc a b).toNat ∧
      (addPacked cc (a, b)).cc.carry = tensFull cc a b := by
  obtain ⟨value, above⟩ := adjusted_by _ _ (unitsFull_iff cc packed packed')
    (tensFull_iff cc packed packed')
  have carries : (ByteOp.adc.apply cc a b).cc.carry = true ↔
      256 ≤ a.toNat + b.toNat + cc.carry.toNat := (added_addByte cc a b cc.carry).carries
  change (addPacked cc (a, b)).value.toNat = _ at value
  change (addPacked cc (a, b)).cc.carry = true ↔ _ at above
  obtain ⟨units, tens⟩ := packed_iff.1 packed
  obtain ⟨units', tens'⟩ := packed_iff.1 packed'
  have small := cc.carry.toNat_le
  rw [toNat_adc] at value above
  rw [carries] at above
  rw [value, Bool.eq_iff_iff, above]
  clear value above carries
  have units_full : unitsFull cc a b = true ↔ 10 ≤ a.toNat % 16 + b.toNat % 16 + cc.carry.toNat :=
    decide_eq_true_iff
  have tens_full : tensFull cc a b = true ↔
      10 ≤ a.toNat / 16 + b.toNat / 16 + (unitsFull cc a b).toNat := decide_eq_true_iff
  cases full : unitsFull cc a b <;> cases full' : tensFull cc a b <;>
    simp only [full, full', Bool.toNat_true, Bool.toNat_false, Bool.false_eq_true, true_iff,
      false_iff, iff_true, iff_false] at units_full tens_full ⊢ <;> omega

/-- What is left when ten is taken away from what reaches ten. -/
theorem le_nine_of_full {digit n : Nat} (left : digit + 10 * (decide (10 ≤ n)).toNat = n)
    (small : n ≤ 19) : digit ≤ 9 := by
  by_cases full : 10 ≤ n
  · rw [decide_eq_true full, Bool.toNat_true] at left
    omega
  · rw [decide_eq_false full, Bool.toNat_false] at left
    omega

/-- Two packed bytes make a packed byte and a carry of a hundred. -/
theorem total_addPacked (packed : Packed a) (packed' : Packed b) :
    Packed (addPacked cc (a, b)).value ∧
      decimal [(addPacked cc (a, b)).value] + 100 * (addPacked cc (a, b)).cc.carry.toNat =
        decimal [a] + decimal [b] + cc.carry.toNat := by
  obtain ⟨units, tens, carry⟩ := digits_addPacked cc packed packed'
  have small := cc.carry.toNat_le
  have small' := (unitsFull cc a b).toNat_le
  rw [packed_iff] at packed packed' ⊢
  constructor
  · exact ⟨le_nine_of_full units (by omega), le_nine_of_full tens (by omega)⟩
  · rw [carry]
    simp only [decimal_cons, decimal_nil]
    omega

end

/-! ## Numbers of any length -/

section

variable (cc : ConditionCodes) {n : Nat} {x y : List Byte}

theorem length_addDecimal (length : x.length = n) (length' : y.length = n) :
    (addDecimal cc x y).value.length = n := by
  rw [addDecimal, length_chain, List.length_zip, length, length', Nat.min_self]

theorem value_addDecimal (length : x.length = n) (length' : y.length = n)
    (packed : ∀ byte ∈ x, Packed byte) (packed' : ∀ byte ∈ y, Packed byte) :
    (∀ byte ∈ (addDecimal cc x y).value, Packed byte) ∧
      decimal (addDecimal cc x y).value + 100 ^ n * (addDecimal cc x y).cc.carry.toNat =
        decimal x + decimal y + cc.carry.toNat := by
  induction n generalizing cc x y with
  | zero =>
    rw [List.length_eq_zero_iff] at length length'
    subst length length'
    simp [addDecimal, chain]
  | succ n ih =>
    obtain ⟨a, x, rfl⟩ := List.exists_cons_of_length_eq_add_one length
    obtain ⟨b, y, rfl⟩ := List.exists_cons_of_length_eq_add_one length'
    rw [List.forall_mem_cons] at packed packed'
    obtain ⟨first, total⟩ := total_addPacked cc packed.1 packed'.1
    obtain ⟨rest, total'⟩ := ih (addPacked cc (a, b)).cc (Nat.succ.inj length)
      (Nat.succ.inj length') packed.2 packed'.2
    change (∀ byte ∈ _ :: (addDecimal _ x y).value, Packed byte) ∧
      decimal (_ :: (addDecimal _ x y).value) +
        100 ^ (n + 1) * (addDecimal _ x y).cc.carry.toNat = _
    refine ⟨List.forall_mem_cons.2 ⟨first, rest⟩, ?_⟩
    simp only [decimal_cons, decimal_nil] at total ⊢
    rw [Nat.pow_succ', Nat.mul_assoc]
    omega

/-- **DAA makes ADC decimal.** Rows of `n` packed bytes, the least significant one first, added
with ADC and DAA one byte after the other and with any carry to begin with, make `n` packed bytes
that hold the sum of the numbers up to its length, and the last carry says whether the sum is
longer. -/
theorem addDecimal_adds (length : x.length = n) (length' : y.length = n)
    (packed : ∀ byte ∈ x, Packed byte) (packed' : ∀ byte ∈ y, Packed byte) :
    let sum := addDecimal cc x y
    let total := decimal x + decimal y + cc.carry.toNat
    sum.value.length = n ∧ (∀ byte ∈ sum.value, Packed byte) ∧
      decimal sum.value = total % 100 ^ n ∧ (sum.cc.carry = true ↔ 100 ^ n ≤ total) := by
  intro sum total
  obtain ⟨digits, exact⟩ := value_addDecimal cc length length' packed packed'
  have same := length_addDecimal cc length length'
  have range := decimal_lt digits
  rw [same] at range
  exact ⟨same, digits, remainder_and_carry range exact⟩

end

/-- The carry runs through every digit: 9899 and 100 and one more are 10000, of which four digits
keep nothing. -/
theorem addDecimal_adds_through :
    let sum := addDecimal { ConditionCodes.none with carry := true } [0x99, 0x98] [0x00, 0x01]
    (∀ byte ∈ [0x99, 0x98, 0x00, 0x01], Packed byte) ∧ decimal [0x99, 0x98] = 9899 ∧
      decimal sum.value = 0 ∧ sum.cc.carry = true := by
  obtain ⟨-, -, value, carries⟩ := addDecimal_adds { ConditionCodes.none with carry := true }
    (n := 2) (x := [0x99, 0x98]) (y := [0x00, 0x01]) rfl rfl (by decide +kernel) (by decide +kernel)
  exact ⟨by decide +kernel, by decide, value.trans (by decide), carries.2 (by decide)⟩

end Sim6809.Arithmetic
