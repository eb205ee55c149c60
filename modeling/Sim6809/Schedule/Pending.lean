/-
A schedule is a queue: each operation, seen through the list of pending steps.

The list is what the processor relies on, and the slots behind it are bookkeeping.
So the first part below shows that the two bounds of a consistent schedule are kept
by every operation, and the second says what each operation does to the list. The
only condition is room: a push needs a free slot, of which a drained schedule has
all thirty-two.
-/
import Sim6809.Schedule

set_option autoImplicit false

namespace Sim6809.Schedule

/-! ## Consistency

The two bounds in `Nat`, where they are used, and the operations that keep them:
all of them, in fact, since a rewind never moves past the front and an advance or a
push only goes where there is something. -/

theorem consistent_iff {q : Schedule} :
    q.Consistent ↔ q.cursor.toNat ≤ q.filled.toNat ∧ q.filled.toNat ≤ 32 := by
  simp only [Consistent, UInt8.le_iff_toNat_le, UInt8.reduceToNat]

theorem isDrained_iff {q : Schedule} : q.isDrained ↔ q.filled.toNat ≤ q.cursor.toNat := by
  simp only [isDrained, decide_eq_true_eq, UInt8.le_iff_toNat_le]

theorem remaining_le {q : Schedule} (h : q.Consistent) : q.remaining ≤ 32 := by
  have bounds := consistent_iff.1 h
  rw [remaining]
  omega

theorem consistent_empty : empty.Consistent := by decide

theorem consistent_clear (q : Schedule) : q.clear.Consistent := by
  rw [consistent_iff]
  exact ⟨Nat.le_refl _, Nat.zero_le _⟩

theorem Consistent.reclaim {q : Schedule} (h : q.Consistent) : q.reclaim.Consistent := by
  unfold Schedule.reclaim
  split
  · exact consistent_clear q
  · exact h

theorem toNat_filled_store {q : Schedule} (h : q.filled.toNat < 32) (op : MicroOp) :
    (q.store op).filled.toNat = q.filled.toNat + 1 := by
  rw [store, dif_pos h]
  simp only [UInt8.toNat_add, UInt8.reduceToNat]
  omega

theorem cursor_store (q : Schedule) (op : MicroOp) : (q.store op).cursor = q.cursor := by
  unfold store
  split <;> rfl

theorem Consistent.store {q : Schedule} (h : q.Consistent) (op : MicroOp) :
    (q.store op).Consistent := by
  by_cases room : q.filled.toNat < 32
  · rw [consistent_iff] at h ⊢
    rw [toNat_filled_store room op, cursor_store]
    omega
  · rw [Schedule.store, dif_neg room]
    exact h

theorem Consistent.push {q : Schedule} (h : q.Consistent) (op : MicroOp) :
    (q.push op).Consistent :=
  h.reclaim.store op

theorem Consistent.extend {q : Schedule} (h : q.Consistent) (ops : List MicroOp) :
    (q.extend ops).Consistent := by
  induction ops generalizing q with
  | nil => exact h
  | cons op ops ih => exact ih (h.push op)

theorem toNat_cursor_advance {q : Schedule} (h : q.Consistent) (lt : q.cursor < q.filled) :
    q.advance.cursor.toNat = q.cursor.toNat + 1 := by
  rw [consistent_iff] at h
  rw [UInt8.lt_iff_toNat_lt] at lt
  rw [advance, if_pos (UInt8.lt_iff_toNat_lt.2 lt)]
  simp only [UInt8.toNat_add, UInt8.reduceToNat]
  omega

theorem filled_advance (q : Schedule) : q.advance.filled = q.filled := by
  unfold advance
  split <;> rfl

theorem Consistent.advance {q : Schedule} (h : q.Consistent) : q.advance.Consistent := by
  by_cases lt : q.cursor < q.filled
  · have cursor := toNat_cursor_advance h lt
    rw [consistent_iff] at h ⊢
    rw [UInt8.lt_iff_toNat_lt] at lt
    rw [cursor, filled_advance]
    omega
  · rw [Schedule.advance, if_neg lt]
    exact h

theorem Consistent.rewind {q : Schedule} (h : q.Consistent) : q.rewind.Consistent := by
  rw [consistent_iff] at h ⊢
  unfold Schedule.rewind
  split
  · exact ⟨Nat.zero_le _, h.2⟩
  · next positive =>
    -- Byte subtraction is exact here, because the cursor is not zero.
    rw [← UInt8.toNat_inj, UInt8.toNat_zero] at positive
    have le : (1 : Byte) ≤ q.cursor := UInt8.le_iff_toNat_le.2 (by
      rw [UInt8.toNat_one]; omega)
    simp only [UInt8.toNat_sub_of_le _ _ le, UInt8.toNat_one]
    omega

/-! ## The pending list -/

@[simp] theorem pending_empty : empty.pending = [] := rfl

@[simp] theorem pending_clear (q : Schedule) : q.clear.pending = [] := rfl

/-- Nothing is pending in a drained schedule, consistent or not. -/
theorem pending_of_isDrained {q : Schedule} (h : q.isDrained) : q.pending = [] := by
  rw [isDrained_iff] at h
  apply List.drop_eq_nil_of_le
  rw [List.length_take]
  omega

/-- In a consistent schedule the list is empty only if it is drained. -/
theorem isDrained_iff_pending {q : Schedule} (h : q.Consistent) :
    q.isDrained ↔ q.pending = [] := by
  refine ⟨pending_of_isDrained, fun dry => ?_⟩
  rw [consistent_iff] at h
  rw [isDrained_iff]
  have := congrArg List.length dry
  simp only [pending, List.length_drop, List.length_take, Vector.length_toList,
    List.length_nil] at this
  omega

theorem length_pending {q : Schedule} (h : q.Consistent) :
    q.pending.length = q.remaining := by
  rw [consistent_iff] at h
  simp only [pending, remaining, List.length_drop, List.length_take, Vector.length_toList]
  omega

/-- The current step is the head of the pending list. -/
theorem current_eq_head? {q : Schedule} (h : q.Consistent) : q.current = q.pending.head? := by
  rw [consistent_iff] at h
  simp only [current, pending, List.head?_drop]
  split
  · next lt =>
    rw [UInt8.lt_iff_toNat_lt] at lt
    rw [List.getElem?_take_of_lt lt]
    simp
  · next ge =>
    rw [UInt8.lt_iff_toNat_lt] at ge
    rw [List.getElem?_eq_none]
    rw [List.length_take]
    omega

/-- An advance drops the head of the pending list. -/
theorem pending_advance {q : Schedule} (h : q.Consistent) :
    q.advance.pending = q.pending.tail := by
  by_cases lt : q.cursor < q.filled
  · rw [pending, toNat_cursor_advance h lt, filled_advance, pending, List.tail_drop]
    rw [advance, if_pos lt]
  · rw [advance, if_neg lt]
    rw [UInt8.lt_iff_toNat_lt] at lt
    rw [pending_of_isDrained (isDrained_iff.2 (by omega)), List.tail_nil]

@[simp] theorem pending_reclaim (q : Schedule) : q.reclaim.pending = q.pending := by
  unfold reclaim
  split
  · next drained => rw [pending_clear, pending_of_isDrained drained]
  · rfl

/-- A step that finds a slot goes to the end of the pending list. -/
theorem pending_store {q : Schedule} (h : q.Consistent) (room : q.filled.toNat < 32)
    (op : MicroOp) : (q.store op).pending = q.pending ++ [op] := by
  rw [consistent_iff] at h
  have filled := toNat_filled_store room op
  have slots : (q.store op).slots.toList = q.slots.toList.set q.filled.toNat op := by
    rw [store, dif_pos room, Vector.toList_set]
  -- One slot more is taken, and it is the slot just written; the slots before it
  -- are the ones that were there.
  rw [pending, filled, cursor_store, slots, pending, List.take_add_one,
    List.take_set_of_le (Nat.le_refl _), List.getElem?_set_self (by simpa using room),
    Option.toList_some, List.drop_append_of_le_length]
  rw [List.length_take, Vector.length_toList]
  omega

/-- How many slots are in use once those that can be reclaimed are. -/
def used (q : Schedule) : Nat := if q.isDrained then 0 else q.filled.toNat

theorem toNat_filled_reclaim (q : Schedule) : q.reclaim.filled.toNat = q.used := by
  unfold reclaim used
  split <;> rfl

/-- A pushed step goes to the end of the pending list. -/
theorem pending_push {q : Schedule} (h : q.Consistent) (room : q.used < 32) (op : MicroOp) :
    (q.push op).pending = q.pending ++ [op] := by
  rw [push, pending_store h.reclaim (by rwa [toNat_filled_reclaim]), pending_reclaim]

theorem used_push {q : Schedule} (h : q.Consistent) (room : q.used < 32) (op : MicroOp) :
    (q.push op).used = q.used + 1 := by
  have bounds := consistent_iff.1 h.reclaim
  -- The new step lies behind the cursor, so the schedule is not drained any more and
  -- what is used is what is filled.
  have filled : (q.push op).filled.toNat = q.used + 1 := by
    rw [push, toNat_filled_store (by rwa [toNat_filled_reclaim]) op, toNat_filled_reclaim]
  have cursor : (q.push op).cursor = q.reclaim.cursor := cursor_store _ op
  rw [toNat_filled_reclaim] at bounds
  unfold used
  rw [if_neg, filled, used]
  rw [isDrained_iff, filled, cursor]
  omega

/-- Steps for which there is room go to the end of the pending list, in order. -/
theorem pending_extend {q : Schedule} (h : q.Consistent) (ops : List MicroOp)
    (room : q.used + ops.length ≤ 32) : (q.extend ops).pending = q.pending ++ ops := by
  induction ops generalizing q with
  | nil => exact (List.append_nil _).symm
  | cons op ops ih =>
    rw [List.length_cons] at room
    have step := used_push h (by omega) op
    change ((q.push op).extend ops).pending = _
    rw [ih (h.push op) (by omega), pending_push h (by omega), List.append_assoc,
      List.singleton_append]

theorem used_extend {q : Schedule} (h : q.Consistent) (ops : List MicroOp)
    (room : q.used + ops.length ≤ 32) : (q.extend ops).used = q.used + ops.length := by
  induction ops generalizing q with
  | nil => rfl
  | cons op ops ih =>
    rw [List.length_cons] at room ⊢
    have step := used_push h (by omega) op
    change ((q.push op).extend ops).used = _
    rw [ih (h.push op) (by omega), step]
    omega

/-- Slots in use are filled slots. -/
theorem toNat_filled_of_used_pos {q : Schedule} (h : 0 < q.used) : q.filled.toNat = q.used := by
  unfold used at h ⊢
  split at h
  · omega
  · next pending => rw [if_neg pending]

/-- A drained schedule has room for thirty-two steps, and what it is given becomes
all that is pending. -/
theorem pending_extend_of_isDrained {q : Schedule} (h : q.Consistent) (drained : q.isDrained)
    (ops : List MicroOp) (room : ops.length ≤ 32) : (q.extend ops).pending = ops := by
  rw [pending_extend h ops (by rw [used, if_pos drained]; omega),
    pending_of_isDrained drained, List.nil_append]

/-- It is filled from the front, whatever was in the slots. -/
theorem toNat_filled_extend_of_isDrained {q : Schedule} (h : q.Consistent)
    (drained : q.isDrained) {ops : List MicroOp} (busy : ops ≠ []) (room : ops.length ≤ 32) :
    (q.extend ops).filled.toNat = ops.length := by
  have unused : q.used = 0 := if_pos drained
  have used : (q.extend ops).used = ops.length := by
    rw [used_extend h ops (by omega), unused, Nat.zero_add]
  have positive : 0 < ops.length := List.length_pos_iff.2 busy
  rw [toNat_filled_of_used_pos (by omega), used]

theorem pending_extend_of_dry {q : Schedule} (h : q.Consistent) (dry : q.pending = [])
    (ops : List MicroOp) (room : ops.length ≤ 32) : (q.extend ops).pending = ops :=
  pending_extend_of_isDrained h ((isDrained_iff_pending h).2 dry) ops room

/-- Steps that the last pending one queues are all that is pending then. -/
theorem pending_advance_extend {q : Schedule} (h : q.Consistent) {op : MicroOp}
    (last : q.pending = [op]) (ops : List MicroOp) (room : ops.length ≤ 32) :
    (q.advance.extend ops).pending = ops := by
  have dry : q.advance.pending = [] := by
    rw [pending_advance h, last, List.tail_cons]
  exact pending_extend_of_dry h.advance dry ops room

/-! ## Without room -/

/-- A step that is pushed onto a full schedule is dropped. -/
theorem push_of_full {q : Schedule} (full : 32 ≤ q.used) (op : MicroOp) : q.push op = q := by
  unfold used at full
  split at full
  · omega
  · next pending =>
    rw [push, reclaim, if_neg pending, store, dif_neg (by omega)]

theorem extend_of_full {q : Schedule} (full : 32 ≤ q.used) (ops : List MicroOp) :
    q.extend ops = q := by
  induction ops with
  | nil => rfl
  | cons op ops ih =>
    change (q.push op).extend ops = q
    rw [push_of_full full, ih]

/-- With room or without, what a schedule takes is a first part of what it is given,
and not nothing if it is drained. -/
theorem pending_extend_take {q : Schedule} (h : q.Consistent) (ops : List MicroOp) :
    ∃ k, (q.extend ops).pending = q.pending ++ ops.take k ∧
      (q.isDrained → ops ≠ [] → 0 < k) := by
  induction ops generalizing q with
  | nil => exact ⟨0, (List.append_nil _).symm, fun _ nonempty => absurd rfl nonempty⟩
  | cons op ops ih =>
    by_cases room : q.used < 32
    · obtain ⟨k, taken, _⟩ := ih (h.push op)
      refine ⟨k + 1, ?_, fun _ _ => Nat.succ_pos k⟩
      change ((q.push op).extend ops).pending = _
      rw [taken, pending_push h room, List.append_assoc, List.take_succ_cons,
        List.singleton_append]
    · -- Once a step is refused, so are all that follow it.
      refine ⟨0, ?_, fun drained => ?_⟩
      · rw [extend_of_full (by omega), List.take_zero, List.append_nil]
      · rw [used, if_pos drained] at room
        omega

/-! ## Going back -/

/-- A rewind undoes an advance that moved. -/
theorem rewind_advance {q : Schedule} (h : q.Consistent) (lt : q.cursor < q.filled) :
    q.advance.rewind = q := by
  have cursor := toNat_cursor_advance h lt
  have moved : q.advance = { q with cursor := q.cursor + 1 } := by rw [advance, if_pos lt]
  rw [moved] at cursor ⊢
  rw [rewind, if_neg (by rw [← UInt8.toNat_inj, UInt8.toNat_zero]; omega)]
  simp only [UInt8.add_sub_cancel]

end Sim6809.Schedule
