/-
Counts of bus cycles: 64 bits wide, as save-states store them, and never below
zero.
-/

set_option autoImplicit false

namespace Sim6809

/-- A number of bus cycles. -/
structure CycleCount where
  count : UInt64
deriving DecidableEq

namespace CycleCount

def zero : CycleCount := ⟨0⟩

/-- One cycle more. -/
def next (t : CycleCount) : CycleCount := ⟨t.count + 1⟩

/-- The sum of two counts. -/
def add (t u : CycleCount) : CycleCount := ⟨t.count + u.count⟩

/-- The cycles by which one count exceeds another, zero if it does not. -/
def since (t u : CycleCount) : CycleCount := ⟨if t.count < u.count then 0 else t.count - u.count⟩

instance : Add CycleCount := ⟨add⟩

instance : Sub CycleCount := ⟨since⟩

instance : Ord CycleCount := ⟨fun t u => compare t.count u.count⟩

/-- The count in decimal. -/
def text (t : CycleCount) : String := t.count.toNat.repr

theorem toNat_next {t : CycleCount} (h : t.count.toNat + 1 < UInt64.size) :
    t.next.count.toNat = t.count.toNat + 1 := by
  simp only [next, UInt64.toNat_add, UInt64.reduceToNat]
  exact Nat.mod_eq_of_lt h

theorem toNat_sub (t u : CycleCount) :
    (t - u).count.toNat = t.count.toNat - u.count.toNat := by
  -- Subtraction of counts and of numbers both stop at zero.
  change (since t u).count.toNat = _
  simp only [since, UInt64.lt_iff_toNat_lt]
  split
  · simp only [UInt64.toNat_zero]; omega
  · next h => rw [UInt64.toNat_sub_of_le]; rw [UInt64.le_iff_toNat_le]; omega

end CycleCount

end Sim6809
