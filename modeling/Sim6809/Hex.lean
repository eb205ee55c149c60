/-
Hexadecimal text as the processor's diagnostics write it: upper-case digits, two
for a byte and four for a word.
-/
import Sim6809.Word

set_option autoImplicit false

namespace Sim6809.Hex

/-- The digit of a number below sixteen. -/
def digit (n : Nat) : Char :=
  if n < 10 then Char.ofNat ('0'.toNat + n) else Char.ofNat ('A'.toNat + (n - 10))

/-- The lowest digits of a number, most significant first. -/
def digits : Nat → Nat → List Char
  | 0, _ => []
  | width + 1, n => digits width (n / 16) ++ [digit (n % 16)]

/-- A byte as two digits. -/
def byte (b : Byte) : String := String.ofList (digits 2 b.toNat)

/-- A word as four digits. -/
def word (w : Word) : String := String.ofList (digits 4 w.toNat)

theorem length_digits (width n : Nat) : (digits width n).length = width := by
  induction width generalizing n with
  | zero => rfl
  | succ width ih => simp [digits, ih]

end Sim6809.Hex
