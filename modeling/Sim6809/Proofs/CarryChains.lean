/-
Carry chains: arithmetic on numbers of any length, a byte at a time.

The unit adds two bytes. A program adds longer numbers by adding their bytes from the least
significant one on, and the flags that one sum leaves go into the next: `chain` is that loop. What
it computes is one linear equation. The result, together with the last carry as a digit above it,
is the exact sum (`value_adcChain`). One byte contributes the same equation over 256, and the
induction multiplies by 256 on the way back; differences and both rotations have an equation of
the same shape. A quotient and a remainder are then read off.

N and V are not about carries. They are those of the last byte, and the sign of the last byte is
the sign of the number (`msb_number_concat`). So the argument that settled V for one byte applies
to numbers of `8 * n` bits as it stands (`overflow_of_sum`), and a comparison of long numbers may
be followed by the branches that follow a comparison of bytes.
-/
import Mathlib.Data.Nat.Digits.Defs
import Sim6809.Proofs.Comparisons

set_option autoImplicit false

namespace Sim6809.Arithmetic

/-! ## Numbers of many bytes -/

/-- The number that bytes make up, the least significant byte first. -/
def natural (bytes : List Byte) : Nat := Nat.ofDigits 256 (bytes.map UInt8.toNat)

/-- The same as a bit vector, which says what its sign is. -/
def number (n : Nat) (bytes : List Byte) : BitVec (8 * n) := BitVec.ofNat (8 * n) (natural bytes)

@[simp] theorem natural_nil : natural [] = 0 := rfl

@[simp] theorem natural_cons (byte : Byte) (bytes : List Byte) :
    natural (byte :: bytes) = byte.toNat + 256 * natural bytes :=
  Nat.ofDigits_cons

theorem natural_concat (bytes : List Byte) (byte : Byte) :
    natural (bytes ++ [byte]) = natural bytes + 256 ^ bytes.length * byte.toNat := by
  simp only [natural, List.map_append, List.map_cons, List.map_nil, Nat.ofDigits_append,
    Nat.ofDigits_singleton, List.length_map]

theorem natural_lt (bytes : List Byte) : natural bytes < 256 ^ bytes.length := by
  have digits : ∀ digit ∈ bytes.map UInt8.toNat, digit < 256 := by
    intro digit mem
    obtain ⟨byte, -, rfl⟩ := List.mem_map.1 mem
    exact byte.toNat_lt
  have bound := Nat.ofDigits_lt_base_pow_length (b := 256) (by decide) digits
  rwa [List.length_map] at bound

theorem two_pow_eight_mul (n : Nat) : 2 ^ (8 * n) = 256 ^ n := Nat.pow_mul 2 8 n

/-- Nothing is cut off. -/
theorem toNat_number {n : Nat} {bytes : List Byte} (length : bytes.length = n) :
    (number n bytes).toNat = natural bytes := by
  subst length
  apply Nat.mod_eq_of_lt
  rw [two_pow_eight_mul]
  exact natural_lt bytes

/-- The sign of a number is that of its most significant byte. -/
theorem msb_number_concat {n : Nat} {bytes : List Byte} (length : bytes.length = n) (byte : Byte) :
    (number (n + 1) (bytes ++ [byte])).msb = byte.toBitVec.msb := by
  have range := natural_lt bytes
  have top : 2 ^ (8 * (n + 1) - 1) = 256 ^ n * 128 := by
    rw [show 8 * (n + 1) - 1 = 8 * n + 7 by omega, Nat.pow_add, two_pow_eight_mul]
  rw [BitVec.msb_eq_decide, BitVec.msb_eq_decide, toNat_number (by simp [length]), natural_concat,
    top, length, decide_eq_decide]
  rw [length] at range
  change _ ↔ 128 ≤ byte.toNat
  -- Below the last byte there is less than one unit of it.
  constructor
  · intro large
    by_contra small
    have fewer : 256 ^ n * (byte.toNat + 1) ≤ 256 ^ n * 128 :=
      Nat.mul_le_mul_left (256 ^ n) (by omega)
    rw [Nat.mul_succ] at fewer
    omega
  · intro large
    have more : 256 ^ n * 128 ≤ 256 ^ n * byte.toNat := Nat.mul_le_mul_left _ large
    omega

/-- So is what V is read off. -/
theorem msb_numbers_concat {n : Nat} {p q r s : List Byte} (hp : p.length = n) (hq : q.length = n)
    (hr : r.length = n) (hs : s.length = n) (a b c d : Byte) :
    ((number (n + 1) (p ++ [a]) ^^^ number (n + 1) (q ++ [b])) &&&
        (number (n + 1) (r ++ [c]) ^^^ number (n + 1) (s ++ [d]))).msb =
      ((a ^^^ b) &&& (c ^^^ d)).toBitVec.msb := by
  rw [BitVec.msb_and, BitVec.msb_xor, BitVec.msb_xor, msb_number_concat hp, msb_number_concat hq,
    msb_number_concat hr, msb_number_concat hs, ← BitVec.msb_xor, ← BitVec.msb_xor,
    ← BitVec.msb_and]
  rfl

/-! ## Chains -/

section

variable {α : Type} (step : ConditionCodes → α → Outcome Byte)

/-- An operation done on one operand after the other, the flags of each going into the next. -/
def chain (cc : ConditionCodes) : List α → Outcome (List Byte)
  | [] => ⟨[], cc⟩
  | operand :: more =>
    let first := step cc operand
    let rest := chain first.cc more
    ⟨first.value :: rest.value, rest.cc⟩

theorem length_chain (cc : ConditionCodes) (operands : List α) :
    (chain step cc operands).value.length = operands.length := by
  induction operands generalizing cc with
  | nil => rfl
  | cons operand more ih => simp only [chain, List.length_cons, ih]

/-- The flags at the end are those of the last operation. -/
theorem chain_concat (cc : ConditionCodes) (operands : List α) (operand : α) :
    chain step cc (operands ++ [operand]) =
      ⟨(chain step cc operands).value ++ [(step (chain step cc operands).cc operand).value],
        (step (chain step cc operands).cc operand).cc⟩ := by
  induction operands generalizing cc with
  | nil => rfl
  | cons first more ih => simp only [List.cons_append, chain, ih]

/-- A flag that no operation touches is what it was. -/
theorem flag_chain {flag : Flag} (keeps : ∀ cc operand, flag.of (step cc operand).cc = flag.of cc)
    (cc : ConditionCodes) (operands : List α) :
    flag.of (chain step cc operands).cc = flag.of cc := by
  induction operands generalizing cc with
  | nil => rfl
  | cons operand more ih => exact (ih (step cc operand).cc).trans (keeps cc operand)

end

/-- A two-operand operation over two rows of bytes. -/
def ByteOp.chain (op : ByteOp) (cc : ConditionCodes) (x y : List Byte) : Outcome (List Byte) :=
  Arithmetic.chain (fun cc pair => op.apply cc pair.1 pair.2) cc (x.zip y)

/-- A one-operand operation over a row of bytes. -/
def UnaryOp.chain (op : UnaryOp) (cc : ConditionCodes) (x : List Byte) : Outcome (List Byte) :=
  Arithmetic.chain op.apply cc x

theorem ByteOp.length_chain (op : ByteOp) (cc : ConditionCodes) {n : Nat} {x y : List Byte}
    (length : x.length = n) (length' : y.length = n) : (op.chain cc x y).value.length = n := by
  rw [ByteOp.chain, Arithmetic.length_chain, List.length_zip, length, length', Nat.min_self]

theorem UnaryOp.length_chain (op : UnaryOp) (cc : ConditionCodes) (x : List Byte) :
    (op.chain cc x).value.length = x.length :=
  Arithmetic.length_chain _ cc x

/-- The interrupt masks and E are no business of arithmetic. -/
theorem ByteOp.flag_chain (op : ByteOp) (cc : ConditionCodes) (x y : List Byte) {flag : Flag}
    (other : flag ∈ [Flag.entire, .firqMask, .irqMask]) :
    flag.of (op.chain cc x y).cc = flag.of cc := by
  refine Arithmetic.flag_chain _ ?_ cc (x.zip y)
  intro cc pair
  obtain ⟨entire, firqMask, irqMask, -⟩ := not_defined (.byte op pair.1 pair.2)
  refine flag_eq_of_not_defined cc (.byte op pair.1 pair.2) ?_
  simp only [List.mem_cons, List.not_mem_nil, or_false] at other
  rcases other with rfl | rfl | rfl <;> assumption

theorem UnaryOp.flag_chain (op : UnaryOp) (cc : ConditionCodes) (x : List Byte) {flag : Flag}
    (other : flag ∈ [Flag.entire, .firqMask, .irqMask]) :
    flag.of (op.chain cc x).cc = flag.of cc := by
  refine Arithmetic.flag_chain _ ?_ cc x
  intro cc byte
  obtain ⟨entire, firqMask, irqMask, -⟩ := not_defined (.unary op byte)
  refine flag_eq_of_not_defined cc (.unary op byte) ?_
  simp only [List.mem_cons, List.not_mem_nil, or_false] at other
  rcases other with rfl | rfl | rfl <;> assumption

/-! ## Sums and differences

A carry is the digit above the result, and a borrow the one above the minuend. -/

/-- The result and the carry above it are the remainder and the quotient of the exact total. -/
theorem remainder_and_carry {r base total : Nat} {carry : Bool} (range : r < base)
    (exact : r + base * carry.toNat = total) :
    r = total % base ∧ (carry = true ↔ base ≤ total) := by
  subst exact
  constructor
  · rw [Nat.add_mul_mod_self_left, Nat.mod_eq_of_lt range]
  · cases carry with
    | true =>
      simp only [Bool.toNat_true, Nat.mul_one, true_iff]
      exact Nat.le_add_left base r
    | false =>
      simp only [Bool.toNat_false, Nat.mul_zero, Nat.add_zero, Bool.false_eq_true, false_iff]
      exact Nat.not_le_of_lt range

section

variable {w : Nat} {a b r : BitVec w} {carry : Bool} {cc : ConditionCodes}

theorem Added.total (h : Added a b carry r cc) :
    r.toNat + 2 ^ w * cc.carry.toNat = a.toNat + b.toNat + carry.toNat := by
  have range := r.isLt
  rcases folded_sum a b r carry h.value with exact | wrapped
  · have clear : cc.carry = false := by
      rw [Bool.eq_false_iff, ne_eq, h.carries]
      omega
    rw [clear, exact]
    simp
  · have set : cc.carry = true := by
      rw [h.carries]
      omega
    rw [set, ← wrapped]
    simp

theorem Subtracted.total (h : Subtracted a b carry r cc) :
    r.toNat + b.toNat + carry.toNat = a.toNat + 2 ^ w * cc.carry.toNat := by
  have range := a.isLt
  have range' := r.isLt
  rcases folded_difference a b r carry h.value with exact | wrapped
  · have clear : cc.carry = false := by
      rw [Bool.eq_false_iff, ne_eq, h.borrows]
      omega
    rw [clear, exact]
    simp
  · have set : cc.carry = true := by
      rw [h.borrows]
      omega
    rw [set, ← wrapped]
    simp

/-- The equation leaves no choice: with it, what the flags say of a sum is settled. -/
theorem Added.of_total (pos : 0 < w) (judged : Judged r cc)
    (total : r.toNat + 2 ^ w * cc.carry.toNat = a.toNat + b.toNat + carry.toNat)
    (overflow : cc.overflow = ((a ^^^ r) &&& (b ^^^ r)).msb) : Added a b carry r cc := by
  obtain ⟨value, carries⟩ := remainder_and_carry r.isLt total
  refine ⟨judged, value, carries, ?_⟩
  rw [overflow]
  exact overflow_of_sum pos a b r carry value

theorem Subtracted.of_total (pos : 0 < w) (judged : Judged r cc)
    (total : r.toNat + b.toNat + carry.toNat = a.toNat + 2 ^ w * cc.carry.toNat)
    (overflow : cc.overflow = ((a ^^^ b) &&& (a ^^^ r)).msb) : Subtracted a b carry r cc := by
  have range := a.isLt
  have range' := r.isLt
  have value : (r.toNat : Int) = ((a.toNat : Int) - b.toNat - carry.toNat) % 2 ^ w := by
    have difference : (a.toNat : Int) - b.toNat - carry.toNat =
        r.toNat - (2 ^ w : Nat) * cc.carry.toNat := by
      have exact := congrArg (Nat.cast (R := Int)) total
      push_cast at exact ⊢
      linarith
    rw [difference, two_pow_eq_cast, Int.sub_mul_emod_self_left,
      Int.emod_eq_of_lt (Int.natCast_nonneg _) (Int.ofNat_lt.2 range')]
  refine ⟨judged, value, ?_, ?_⟩
  · cases above : cc.carry with
    | true =>
      rw [above, Bool.toNat_true, Nat.mul_one] at total
      simp only [true_iff]
      omega
    | false =>
      rw [above, Bool.toNat_false, Nat.mul_zero] at total
      simp only [Bool.false_eq_true, false_iff]
      omega
  · rw [overflow]
    exact overflow_of_difference pos a b r carry value

end

theorem value_adcChain (cc : ConditionCodes) {n : Nat} {x y : List Byte} (length : x.length = n)
    (length' : y.length = n) :
    natural (ByteOp.adc.chain cc x y).value + 256 ^ n * (ByteOp.adc.chain cc x y).cc.carry.toNat =
      natural x + natural y + cc.carry.toNat := by
  induction n generalizing cc x y with
  | zero =>
    rw [List.length_eq_zero_iff] at length length'
    subst length length'
    simp [ByteOp.chain, chain]
  | succ n ih =>
    obtain ⟨a, x, rfl⟩ := List.exists_cons_of_length_eq_add_one length
    obtain ⟨b, y, rfl⟩ := List.exists_cons_of_length_eq_add_one length'
    have first : (ByteOp.adc.apply cc a b).value.toNat +
        256 * (ByteOp.adc.apply cc a b).cc.carry.toNat = a.toNat + b.toNat + cc.carry.toNat :=
      (added_addByte cc a b cc.carry).total
    have rest := ih (ByteOp.adc.apply cc a b).cc (Nat.succ.inj length) (Nat.succ.inj length')
    change natural (_ :: (ByteOp.adc.chain _ x y).value) +
      256 ^ (n + 1) * (ByteOp.adc.chain _ x y).cc.carry.toNat = _
    simp only [natural_cons]
    rw [Nat.pow_succ', Nat.mul_assoc]
    omega

theorem value_sbcChain (cc : ConditionCodes) {n : Nat} {x y : List Byte} (length : x.length = n)
    (length' : y.length = n) :
    natural (ByteOp.sbc.chain cc x y).value + natural y + cc.carry.toNat =
      natural x + 256 ^ n * (ByteOp.sbc.chain cc x y).cc.carry.toNat := by
  induction n generalizing cc x y with
  | zero =>
    rw [List.length_eq_zero_iff] at length length'
    subst length length'
    simp [ByteOp.chain, chain]
  | succ n ih =>
    obtain ⟨a, x, rfl⟩ := List.exists_cons_of_length_eq_add_one length
    obtain ⟨b, y, rfl⟩ := List.exists_cons_of_length_eq_add_one length'
    have first : (ByteOp.sbc.apply cc a b).value.toNat + b.toNat + cc.carry.toNat =
        a.toNat + 256 * (ByteOp.sbc.apply cc a b).cc.carry.toNat :=
      (subtracted_subByte cc a b cc.carry).total
    have rest := ih (ByteOp.sbc.apply cc a b).cc (Nat.succ.inj length) (Nat.succ.inj length')
    change natural (_ :: (ByteOp.sbc.chain _ x y).value) + _ + _ = _ +
      256 ^ (n + 1) * (ByteOp.sbc.chain _ x y).cc.carry.toNat
    simp only [natural_cons]
    rw [Nat.pow_succ', Nat.mul_assoc]
    omega

/-! ## The flags of the whole -/

theorem ByteOp.chain_concat (op : ByteOp) (cc : ConditionCodes) {x y : List Byte}
    (length : x.length = y.length) (a b : Byte) :
    op.chain cc (x ++ [a]) (y ++ [b]) =
      ⟨(op.chain cc x y).value ++ [(op.apply (op.chain cc x y).cc a b).value],
        (op.apply (op.chain cc x y).cc a b).cc⟩ := by
  rw [ByteOp.chain, List.zip_append length]
  exact Arithmetic.chain_concat _ cc (x.zip y) (a, b)

/-- The flags at the end of a chain, read as flags of the result as a whole. The one that has to be
put in is Z, which is that of the last byte alone. -/
def wholly {w : Nat} (r : BitVec w) (cc : ConditionCodes) : ConditionCodes :=
  { cc with zero := r.toNat == 0 }

/-- A row of bytes that is not empty has a last one, on which the signs depend. -/
theorem exists_concat_of_length {α : Type} {l : List α} {n : Nat} (length : l.length = n + 1) :
    ∃ front last, l = front ++ [last] ∧ front.length = n := by
  obtain ⟨front, back, rfl, shorter, single⟩ := exists_append_of_length length
  obtain ⟨last, rfl⟩ := List.length_eq_one_iff.1 single
  exact ⟨front, last, rfl, shorter⟩

theorem added_adcChain (cc : ConditionCodes) {n : Nat} (pos : 0 < n) {x y : List Byte}
    (length : x.length = n) (length' : y.length = n) :
    Added (number n x) (number n y) cc.carry (number n (ByteOp.adc.chain cc x y).value)
      (wholly (number n (ByteOp.adc.chain cc x y).value) (ByteOp.adc.chain cc x y).cc) := by
  have total := value_adcChain cc length length'
  rw [← toNat_number length, ← toNat_number length', ← two_pow_eight_mul,
    ← toNat_number (ByteOp.length_chain .adc cc length length')] at total
  obtain ⟨k, rfl⟩ := Nat.exists_eq_add_one_of_ne_zero (Nat.ne_of_gt pos)
  obtain ⟨x, a, rfl, shorter⟩ := exists_concat_of_length length
  obtain ⟨y, b, rfl, shorter'⟩ := exists_concat_of_length length'
  have result := ByteOp.length_chain .adc cc shorter shorter'
  rw [ByteOp.chain_concat .adc cc (shorter.trans shorter'.symm)] at total ⊢
  refine Added.of_total (by omega) ⟨?_, ?_⟩ total ?_
  · rw [msb_number_concat result]
    exact byte_sign _
  · exact beq_iff_eq
  · rw [msb_numbers_concat shorter result shorter' result]
    exact byte_sign _

theorem subtracted_sbcChain (cc : ConditionCodes) {n : Nat} (pos : 0 < n) {x y : List Byte}
    (length : x.length = n) (length' : y.length = n) :
    Subtracted (number n x) (number n y) cc.carry (number n (ByteOp.sbc.chain cc x y).value)
      (wholly (number n (ByteOp.sbc.chain cc x y).value) (ByteOp.sbc.chain cc x y).cc) := by
  have total := value_sbcChain cc length length'
  rw [← toNat_number length, ← toNat_number length', ← two_pow_eight_mul,
    ← toNat_number (ByteOp.length_chain .sbc cc length length')] at total
  obtain ⟨k, rfl⟩ := Nat.exists_eq_add_one_of_ne_zero (Nat.ne_of_gt pos)
  obtain ⟨x, a, rfl, shorter⟩ := exists_concat_of_length length
  obtain ⟨y, b, rfl, shorter'⟩ := exists_concat_of_length length'
  have result := ByteOp.length_chain .sbc cc shorter shorter'
  rw [ByteOp.chain_concat .sbc cc (shorter.trans shorter'.symm)] at total ⊢
  refine Subtracted.of_total (by omega) ⟨?_, ?_⟩ total ?_
  · rw [msb_number_concat result]
    exact byte_sign _
  · exact beq_iff_eq
  · rw [msb_numbers_concat shorter shorter' shorter result]
    exact byte_sign _

/-! ## Rotations

The bit that leaves one byte enters the next. -/

theorem value_rol (cc : ConditionCodes) (a : Byte) :
    (UnaryOp.rol.apply cc a).value.toNat + 256 * (UnaryOp.rol.apply cc a).cc.carry.toNat =
      2 * a.toNat + cc.carry.toNat := by
  have table : ∀ carry : Bool, ((a <<< 1) ||| (if carry then 1 else 0)).toNat +
      256 * (a &&& 0x80 != 0).toNat = 2 * a.toNat + carry.toNat :=
    Byte.of_table a (by decide +kernel)
  exact table cc.carry

theorem value_ror (cc : ConditionCodes) (a : Byte) :
    2 * (UnaryOp.ror.apply cc a).value.toNat + (UnaryOp.ror.apply cc a).cc.carry.toNat =
      a.toNat + 256 * cc.carry.toNat := by
  have table : ∀ carry : Bool, 2 * ((a >>> 1) ||| (if carry then 0x80 else 0)).toNat +
      (a &&& 0x01 != 0).toNat = a.toNat + 256 * carry.toNat :=
    Byte.of_table a (by decide +kernel)
  exact table cc.carry

theorem value_rolChain (cc : ConditionCodes) (x : List Byte) :
    natural (UnaryOp.rol.chain cc x).value + 256 ^ x.length *
        (UnaryOp.rol.chain cc x).cc.carry.toNat = 2 * natural x + cc.carry.toNat := by
  induction x generalizing cc with
  | nil => simp [UnaryOp.chain, chain]
  | cons a x ih =>
    have first := value_rol cc a
    have rest := ih (UnaryOp.rol.apply cc a).cc
    change natural (_ :: (UnaryOp.rol.chain _ x).value) +
      256 ^ (x.length + 1) * (UnaryOp.rol.chain _ x).cc.carry.toNat = _
    simp only [natural_cons]
    rw [Nat.pow_succ', Nat.mul_assoc]
    omega

/-- From the most significant byte on, the carry is the digit below the result. -/
theorem value_rorChain (cc : ConditionCodes) (x : List Byte) :
    2 * natural (UnaryOp.ror.chain cc x).value.reverse + (UnaryOp.ror.chain cc x).cc.carry.toNat =
      natural x.reverse + 256 ^ x.length * cc.carry.toNat := by
  induction x generalizing cc with
  | nil => simp [UnaryOp.chain, chain]
  | cons a x ih =>
    have first := value_ror cc a
    have rest := ih (UnaryOp.ror.apply cc a).cc
    have length : (UnaryOp.ror.chain (UnaryOp.ror.apply cc a).cc x).value.length = x.length :=
      UnaryOp.length_chain .ror _ x
    change 2 * natural (_ :: (UnaryOp.ror.chain _ x).value).reverse +
      (UnaryOp.ror.chain _ x).cc.carry.toNat = _
    simp only [List.reverse_cons, natural_concat, List.length_reverse, length, List.length_cons]
    have scaled := congrArg (256 ^ x.length * ·) first
    simp only [Nat.mul_add] at scaled
    rw [Nat.pow_succ, Nat.mul_assoc]
    linarith

/-- To the left the number is doubled, and its old sign is what is left over. -/
theorem rotated_left (cc : ConditionCodes) {n : Nat} {x : List Byte} (length : x.length = n) :
    natural (UnaryOp.rol.chain cc x).value = (2 * natural x + cc.carry.toNat) % 256 ^ n ∧
      (0 < n → (UnaryOp.rol.chain cc x).cc.carry = (number n x).msb) := by
  have total := value_rolChain cc x
  have small := cc.carry.toNat_le
  have range := natural_lt (UnaryOp.rol.chain cc x).value
  rw [UnaryOp.length_chain, length] at range
  rw [length] at total
  obtain ⟨value, above⟩ := remainder_and_carry range total
  refine ⟨value, ?_⟩
  intro pos
  have twice := two_pow_eq_half (w := 8 * n) (by omega)
  rw [two_pow_eight_mul] at twice
  rw [BitVec.msb_eq_decide, toNat_number length, Bool.eq_iff_iff, above, decide_eq_true_iff]
  omega

/-- To the right it is halved, with the old carry on top of it, and its lowest bit is left over. -/
theorem rotated_right (cc : ConditionCodes) {n : Nat} {x : List Byte} (length : x.length = n) :
    natural (UnaryOp.ror.chain cc x.reverse).value.reverse =
        (natural x + cc.carry.toNat * 256 ^ n) / 2 ∧
      (0 < n → (UnaryOp.ror.chain cc x.reverse).cc.carry = (number n x).getLsbD 0) := by
  have total := value_rorChain cc x.reverse
  have small := (UnaryOp.ror.chain cc x.reverse).cc.carry.toNat_le
  rw [List.reverse_reverse, List.length_reverse, length] at total
  rw [Nat.mul_comm cc.carry.toNat, ← total]
  constructor
  · omega
  · intro pos
    have twice := two_pow_eq_half (w := 8 * n) (by omega)
    rw [two_pow_eight_mul] at twice
    rw [getLsbD_eq_decide, toNat_number length, Nat.pow_zero, Nat.div_one]
    rw [twice, Nat.mul_assoc] at total
    cases below : (UnaryOp.ror.chain cc x.reverse).cc.carry with
    | true =>
      rw [below, Bool.toNat_true] at total
      exact (decide_eq_true (by omega)).symm
    | false =>
      rw [below, Bool.toNat_false] at total
      exact (decide_eq_false (by omega)).symm

/-- **Carry chains compute with numbers of any length.** For numbers `x` and `y` of `n` bytes, the
least significant byte first, and any flags to begin with: a chain of ADC adds them with the
carry, and a chain of SBC subtracts them with the borrow, both exactly up to the length, with C,
V and N as they are for the numbers as a whole, so that after a difference without a borrow the
conditions LO and LT compare the numbers. A chain of ROL doubles `x`, and a chain of ROR, from the
most significant byte on, halves it. The masks and E stay as they are. -/
theorem carry_chains_compute (cc : ConditionCodes) {n : Nat} (pos : 0 < n) {x y : List Byte}
    (length : x.length = n) (length' : y.length = n) :
    let carry := cc.carry.toNat
    let sum := ByteOp.adc.chain cc x y
    let difference := ByteOp.sbc.chain cc x y
    let left := UnaryOp.rol.chain cc x
    let right := UnaryOp.ror.chain cc x.reverse
    (sum.value.length = n ∧ natural sum.value = (natural x + natural y + carry) % 256 ^ n ∧
      (sum.cc.carry = true ↔ 256 ^ n ≤ natural x + natural y + carry) ∧
      (sum.cc.overflow = true ↔
        ¬Fits (8 * n) ((number n x).toInt + (number n y).toInt + carry)) ∧
      sum.cc.negative = (number n sum.value).msb) ∧
    (difference.value.length = n ∧
      (natural difference.value : Int) = ((natural x : Int) - natural y - carry) % 256 ^ n ∧
      (difference.cc.carry = true ↔ natural x < natural y + carry) ∧
      (difference.cc.overflow = true ↔
        ¬Fits (8 * n) ((number n x).toInt - (number n y).toInt - carry)) ∧
      difference.cc.negative = (number n difference.value).msb ∧
      (cc.carry = false →
        Condition.lo.holds difference.cc = decide (natural x < natural y) ∧
        Condition.lt.holds difference.cc = decide ((number n x).toInt < (number n y).toInt))) ∧
    (left.value.length = n ∧ natural left.value = (2 * natural x + carry) % 256 ^ n ∧
      left.cc.carry = (number n x).msb) ∧
    (right.value.length = n ∧ natural right.value.reverse = (natural x + carry * 256 ^ n) / 2 ∧
      right.cc.carry = (number n x).getLsbD 0) ∧
    ∀ after ∈ [sum.cc, difference.cc, left.cc, right.cc],
      ∀ flag ∈ [Flag.entire, .firqMask, .irqMask], flag.of after = flag.of cc := by
  intro carry sum difference left right
  have sum_length : sum.value.length = n := ByteOp.length_chain .adc cc length length'
  have difference_length : difference.value.length = n := ByteOp.length_chain .sbc cc length length'
  refine ⟨?sums, ?differences, ?lefts, ?rights, ?kept⟩
  case sums =>
    have added := added_adcChain cc pos length length'
    have value := added.value
    have carries := added.carries
    rw [toNat_number length, toNat_number length', two_pow_eight_mul] at value carries
    rw [toNat_number sum_length] at value
    exact ⟨sum_length, value, carries, added.overflows, added.negative⟩
  case differences =>
    have subtracted := subtracted_sbcChain cc pos length length'
    have value := subtracted.value
    have borrows := subtracted.borrows
    rw [toNat_number length, toNat_number length'] at value borrows
    rw [toNat_number difference_length, two_pow_eq_cast, two_pow_eight_mul,
      Int.natCast_pow] at value
    refine ⟨difference_length, value, borrows, subtracted.overflows, subtracted.negative, ?_⟩
    intro clear
    rw [clear] at subtracted
    have lower := subtracted.carry_eq
    have less := subtracted.less_eq (by omega)
    rw [toNat_number length, toNat_number length'] at lower
    exact ⟨lower, less⟩
  case lefts =>
    obtain ⟨value, above⟩ := rotated_left cc length
    exact ⟨(UnaryOp.length_chain .rol cc x).trans length, value, above pos⟩
  case rights =>
    obtain ⟨value, below⟩ := rotated_right cc length
    refine ⟨?_, value, below pos⟩
    rw [UnaryOp.length_chain, List.length_reverse, length]
  case kept =>
    intro after mem flag other
    simp only [List.mem_cons, List.not_mem_nil, or_false] at mem
    rcases mem with rfl | rfl | rfl | rfl
    · exact ByteOp.flag_chain .adc cc x y other
    · exact ByteOp.flag_chain .sbc cc x y other
    · exact UnaryOp.flag_chain .rol cc x other
    · exact UnaryOp.flag_chain .ror cc x.reverse other

/-- A borrow that goes through zero: `$0100 - $00FF - 1` is 0, where the lower byte takes `$FF` and
a borrow from 0, and the upper one still has to pay. And `$8000 - 1` overflows. -/
theorem carry_chains_compute_borrow :
    let through := ByteOp.sbc.chain { ConditionCodes.none with carry := true }
      [0x00, 0x01] [0xFF, 0x00]
    let beyond := ByteOp.sbc.chain .none [0x00, 0x80] [0x01, 0x00]
    natural through.value = 0 ∧ through.cc.carry = false ∧ beyond.cc.overflow = true ∧
      Condition.lo.holds beyond.cc = false ∧ Condition.lt.holds beyond.cc = true := by
  obtain ⟨-, ⟨-, value, borrows, -⟩, -⟩ :=
    carry_chains_compute { ConditionCodes.none with carry := true } (n := 2) (by decide)
      (x := [0x00, 0x01]) (y := [0xFF, 0x00]) rfl rfl
  obtain ⟨-, ⟨-, -, -, overflows, -, compared⟩, -⟩ :=
    carry_chains_compute .none (n := 2) (by decide) (x := [0x00, 0x80]) (y := [0x01, 0x00]) rfl rfl
  obtain ⟨lower, less⟩ := compared rfl
  refine ⟨?_, ?_, overflows.2 (by decide), ?_, ?_⟩
  · exact Int.natCast_inj.1 (value.trans (by decide))
  · exact Bool.eq_false_iff.2 fun borrow => absurd (borrows.1 borrow) (by decide)
  · exact lower.trans (by decide)
  · exact less.trans (by decide)

end Sim6809.Arithmetic
