/-
The schedule: the micro-operations still to run, in a store of fixed size.

Thirty-two slots are filled from the front and consumed by a cursor; the space is
reclaimed all at once, by the first push that finds everything consumed. Slots that
were consumed or abandoned keep their contents, and since a save-state holds every
slot, they are part of the value.

What a schedule means is the list of its pending steps, `pending`: a push appends
to it, an advance drops its head, a rewind puts back what an advance dropped. A step
that finds no slot while others are pending is dropped.
-/
import Sim6809.MicroOp

set_option autoImplicit false

namespace Sim6809

/-- Steps in a store of thirty-two, those between cursor and fill still to run. -/
structure Schedule where
  slots : Vector MicroOp 32
  /-- How many slots have been filled. -/
  filled : Byte
  /-- How many of them have been consumed. -/
  cursor : Byte
deriving DecidableEq

namespace Schedule

/-- No step pending and nothing left over. -/
def empty : Schedule := ⟨.replicate 32 (.cycle .dummy), 0, 0⟩

/-- The bounds every schedule keeps that was built by the operations below. One
that was read from a save-state may break them. -/
def Consistent (q : Schedule) : Prop := q.cursor ≤ q.filled ∧ q.filled ≤ 32

instance (q : Schedule) : Decidable q.Consistent := inferInstanceAs (Decidable (_ ∧ _))

/-- The steps still to run, first to last. -/
def pending (q : Schedule) : List MicroOp :=
  (q.slots.toList.take q.filled.toNat).drop q.cursor.toNat

/-- How many steps are still to run. -/
def remaining (q : Schedule) : Nat := q.filled.toNat - q.cursor.toNat

/-- Nothing is left to run. -/
def isDrained (q : Schedule) : Bool := q.filled ≤ q.cursor

/-- The step to run next. -/
def current (q : Schedule) : Option MicroOp :=
  if q.cursor < q.filled then q.slots[q.cursor.toNat]? else none

/-- Forgets every pending step. The slots keep their contents. -/
def clear (q : Schedule) : Schedule := { q with filled := 0, cursor := 0 }

/-- Starts over from the first slot once everything is consumed. -/
def reclaim (q : Schedule) : Schedule := if q.isDrained then q.clear else q

/-- Fills the next slot. A step for which there is none is dropped. -/
def store (q : Schedule) (op : MicroOp) : Schedule :=
  if h : q.filled.toNat < 32 then
    { q with slots := q.slots.set q.filled.toNat op h, filled := q.filled + 1 }
  else q

/-- Adds a step at the end, reclaiming the slots first if it can. -/
def push (q : Schedule) (op : MicroOp) : Schedule := q.reclaim.store op

/-- Adds steps at the end, in order. -/
def extend (q : Schedule) (ops : List MicroOp) : Schedule := ops.foldl push q

/-- Moves past the current step. -/
def advance (q : Schedule) : Schedule :=
  if q.cursor < q.filled then { q with cursor := q.cursor + 1 } else q

/-- Moves back onto the step that was just moved past. -/
def rewind (q : Schedule) : Schedule :=
  { q with cursor := if q.cursor = 0 then 0 else q.cursor - 1 }

end Schedule

end Sim6809
