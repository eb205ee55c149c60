/-
A schedule refines a queue without bounds.

`Schedule/Pending.lean` says what each operation does to the list of pending steps. Here the
operations are put together in any order, and the list is compared with a queue that has no
slots, no cursor and no bound (`Line`). The two agree after every call (`Models.apply`), and
with them what can be asked of a schedule: its current step is the head of the queue, and it
is drained exactly if the queue is empty.

Two calls ask for something. A push needs a slot; it lacks one only if all thirty-two are
filled and not yet reclaimed (`HasRoom`). A rewind puts back what the call before it took from
the front, so there has to be such a call: the slot is still there, but nothing remembers whose
it was. Without rewinds room can be counted: `used` grows by no more than the steps pushed
(`used_apply_le`), so a drained schedule takes thirty-two of them, however much is consumed in
between (`permits_of_used_le`).
-/
import Mathlib.Algebra.GroupWithZero.Nat
import Sim6809.Schedule.Pending

set_option autoImplicit false

namespace Sim6809.Schedule

/-! ## Calls -/

/-- An operation on a schedule, with what it is given. -/
inductive Call
  | push (op : MicroOp)
  | extend (ops : List MicroOp)
  | advance
  | clear
  | rewind
deriving DecidableEq

/-- There is a slot for one more step: not all of them are filled, or they can be reclaimed. -/
def HasRoom (q : Schedule) : Prop := q.filled = 32 → q.isDrained = true

instance (q : Schedule) : Decidable q.HasRoom := inferInstanceAs (Decidable (_ → _))

namespace Call

def apply (call : Call) (q : Schedule) : Schedule :=
  match call with
  | push op => q.push op
  | extend ops => q.extend ops
  | advance => q.advance
  | clear => q.clear
  | rewind => q.rewind

/-- How many steps it pushes. -/
def pushes : Call → Nat
  | push _ => 1
  | extend ops => ops.length
  | advance | clear | rewind => 0

/-- It is an advance that finds a step to move past. -/
def moves (call : Call) (q : Schedule) : Bool := call == advance && !q.isDrained

/-- The call may be made, after one that moved past a step or did not. Each step pushed needs
a slot when its turn comes. -/
def Permitted (q : Schedule) (moved : Bool) : Call → Prop
  | push _ => q.HasRoom
  | extend ops => ∀ k, k < ops.length → (q.extend (ops.take k)).HasRoom
  | advance | clear => True
  | rewind => moved = true

instance (q : Schedule) (moved : Bool) (call : Call) : Decidable (call.Permitted q moved) :=
  match call with
  | push _ => inferInstanceAs (Decidable q.HasRoom)
  | extend ops => inferInstanceAs (Decidable (∀ k, k < ops.length → HasRoom _))
  | advance | clear => inferInstanceAs (Decidable True)
  | rewind => inferInstanceAs (Decidable (moved = true))

end Call

/-- The schedule after some calls, first to last. -/
def after (q : Schedule) (calls : List Call) : Schedule :=
  calls.foldl (fun q call => call.apply q) q

/-- Each of the calls may be made when its turn comes. -/
def Permits (q : Schedule) (moved : Bool) : List Call → Prop
  | [] => True
  | call :: calls => call.Permitted q moved ∧ (call.apply q).Permits (call.moves q) calls

instance decidablePermits (q : Schedule) (moved : Bool) :
    (calls : List Call) → Decidable (q.Permits moved calls)
  | [] => inferInstanceAs (Decidable True)
  | call :: calls =>
    have := decidablePermits (call.apply q) (call.moves q) calls
    inferInstanceAs (Decidable (call.Permitted q moved ∧ _))

/-! ## The queue -/

/-- A queue without bounds. -/
structure Line where
  waiting : List MicroOp
  /-- What the last call took from the front, if it took something. -/
  taken : Option MicroOp

namespace Line

def apply (call : Call) (line : Line) : Line :=
  match call with
  | .push op => ⟨line.waiting ++ [op], none⟩
  | .extend ops => ⟨line.waiting ++ ops, none⟩
  | .advance => ⟨line.waiting.tail, line.waiting.head?⟩
  | .clear => ⟨[], none⟩
  | .rewind => ⟨line.taken.toList ++ line.waiting, none⟩

/-- The queue after some calls. -/
def after (line : Line) (calls : List Call) : Line :=
  calls.foldl (fun line call => line.apply call) line

end Line

/-! ## Room -/

variable {q : Schedule} {line : Line} {call : Call} {moved : Bool}

theorem hasRoom_iff (h : q.Consistent) : q.HasRoom ↔ q.used < 32 := by
  have bounds := consistent_iff.1 h
  have full : q.filled = 32 ↔ q.filled.toNat = 32 := UInt8.toNat_inj.symm
  rw [HasRoom, used, full]
  by_cases drained : q.isDrained = true
  · simp only [drained, implies_true, if_true, Nat.zero_lt_succ]
  · rw [if_neg drained, imp_iff_not drained]
    omega

/-- Steps that each find a slot are no more than there are slots. -/
theorem used_add_length_le (h : q.Consistent) (ops : List MicroOp)
    (room : ∀ k, k < ops.length → (q.extend (ops.take k)).HasRoom) (nonempty : ops ≠ []) :
    q.used + ops.length ≤ 32 := by
  induction ops generalizing q with
  | nil => exact absurd rfl nonempty
  | cons op ops ih =>
    have first := (hasRoom_iff h).1 (room 0 (Nat.succ_pos _))
    by_cases last : ops = []
    · rw [last]
      exact first
    · have rest := ih (h.push op) (fun k inside => room (k + 1) (Nat.succ_lt_succ inside)) last
      rw [used_push h first] at rest
      rw [List.length_cons]
      omega

theorem pending_extend_of_room (h : q.Consistent) (ops : List MicroOp)
    (room : ∀ k, k < ops.length → (q.extend (ops.take k)).HasRoom) :
    (q.extend ops).pending = q.pending ++ ops := by
  by_cases nothing : ops = []
  · rw [nothing]
    exact (List.append_nil _).symm
  · exact pending_extend h ops (used_add_length_le h ops room nothing)

theorem used_push_le (h : q.Consistent) (op : MicroOp) : (q.push op).used ≤ q.used + 1 := by
  by_cases room : q.used < 32
  · exact Nat.le_of_eq (used_push h room op)
  · rw [push_of_full (Nat.le_of_not_lt room)]
    exact Nat.le_succ _

theorem used_extend_le (h : q.Consistent) (ops : List MicroOp) :
    (q.extend ops).used ≤ q.used + ops.length := by
  induction ops generalizing q with
  | nil => exact Nat.le_refl _
  | cons op ops ih =>
    have first := used_push_le h op
    have rest := ih (h.push op)
    rw [List.length_cons]
    change ((q.push op).extend ops).used ≤ _
    omega

theorem used_advance_le (q : Schedule) : q.advance.used ≤ q.used := by
  unfold advance
  split
  · next lt =>
    have busy : q.isDrained = false := by
      rw [isDrained, decide_eq_false_iff_not, UInt8.not_le]
      exact lt
    rw [used, used, busy]
    split
    · exact Nat.zero_le _
    · exact Nat.le_refl _
  · exact Nat.le_refl _

theorem Consistent.apply (h : q.Consistent) (call : Call) : (call.apply q).Consistent := by
  cases call with
  | push op => exact h.push op
  | extend ops => exact h.extend ops
  | advance => exact h.advance
  | clear => exact consistent_clear q
  | rewind => exact h.rewind

/-- A call uses no more slots than it pushes steps. A rewind can: it takes back the last step
of a schedule that was about to be reclaimed. -/
theorem used_apply_le (h : q.Consistent) (call : Call) (forward : call ≠ .rewind) :
    (call.apply q).used ≤ q.used + call.pushes := by
  cases call with
  | push op => exact used_push_le h op
  | extend ops => exact used_extend_le h ops
  | advance => exact used_advance_le q
  | clear => exact Nat.zero_le _
  | rewind => exact absurd rfl forward

/-- Without rewinds, calls may be made as long as the slots in use and the steps still to be
pushed are no more than there are slots. -/
theorem permits_of_used_le (h : q.Consistent) (calls : List Call) (forward : .rewind ∉ calls)
    (few : q.used + (calls.map Call.pushes).sum ≤ 32) : q.Permits moved calls := by
  induction calls generalizing q moved with
  | nil => trivial
  | cons call calls ih =>
    obtain ⟨other, rest⟩ := not_or.1 (mt List.mem_cons.2 forward)
    rw [List.map_cons, List.sum_cons] at few
    have first := used_apply_le h call (Ne.symm other)
    refine ⟨?_, ih (h.apply call) rest (by omega)⟩
    cases call with
    | push op =>
      change q.used + (1 + _) ≤ 32 at few
      exact (hasRoom_iff h).2 (by omega)
    | extend ops =>
      change q.used + (ops.length + _) ≤ 32 at few
      intro k inside
      have so_far := used_extend_le h (ops.take k)
      rw [List.length_take_of_le (Nat.le_of_lt inside)] at so_far
      exact (hasRoom_iff (h.extend _)).2 (by omega)
    | advance | clear => trivial
    | rewind => exact absurd rfl (Ne.symm other)

/-! ## The two side by side -/

/-- The schedule holds what waits in the queue, and behind its cursor what was just taken. -/
structure Models (q : Schedule) (line : Line) : Prop where
  consistent : q.Consistent
  pending : q.pending = line.waiting
  taken : ∀ op, line.taken = some op → q.rewind.pending = op :: line.waiting

theorem Models.start (h : q.Consistent) : q.Models ⟨q.pending, none⟩ := ⟨h, rfl, nofun⟩

/-- An advance moves exactly if the queue has a head to take. -/
theorem Models.moves (h : q.Models line) (call : Call) :
    call.moves q = (line.apply call).taken.isSome := by
  cases call with
  | advance =>
    have dry := isDrained_iff_pending h.consistent
    rw [h.pending] at dry
    change (!q.isDrained) = line.waiting.head?.isSome
    cases waiting : line.waiting with
    | nil => rw [dry.2 waiting]; rfl
    | cons op rest =>
      rw [waiting] at dry
      rw [Bool.not_eq_true _ |>.mp (mt dry.1 (List.cons_ne_nil op rest))]
      rfl
  | push _ | extend _ | clear | rewind => rfl

/-- **One call.** -/
theorem Models.apply (h : q.Models line) (permitted : call.Permitted q line.taken.isSome) :
    (call.apply q).Models (line.apply call) := by
  refine ⟨h.consistent.apply call, ?_, ?_⟩
  · cases call with
    | push op =>
      exact (pending_push h.consistent ((hasRoom_iff h.consistent).1 permitted) op).trans
        (congrArg (· ++ [op]) h.pending)
    | extend ops =>
      exact (pending_extend_of_room h.consistent ops permitted).trans
        (congrArg (· ++ ops) h.pending)
    | advance => exact (pending_advance h.consistent).trans (congrArg List.tail h.pending)
    | clear => rfl
    | rewind =>
      obtain ⟨op, taken⟩ := Option.isSome_iff_exists.1 permitted
      rw [Line.apply, taken]
      exact h.taken op taken
  · intro op taken
    cases call with
    | advance =>
      -- The step is taken from the front, and going back puts the cursor in front of it.
      obtain ⟨rest, waiting⟩ := List.head?_eq_some_iff.1 taken
      have busy : q.cursor < q.filled := by
        rw [← UInt8.not_le]
        intro drained
        have dry := pending_of_isDrained (decide_eq_true drained)
        rw [h.pending, waiting] at dry
        cases dry
      rw [Call.apply, rewind_advance h.consistent busy, h.pending, Line.apply, waiting]
      rfl
    | push _ | extend _ | clear | rewind => cases taken

/-- **A sequence of calls.** -/
theorem Models.after (h : q.Models line) (calls : List Call)
    (permitted : q.Permits line.taken.isSome calls) :
    (q.after calls).Models (line.after calls) := by
  induction calls generalizing q line with
  | nil => exact h
  | cons call calls ih =>
    obtain ⟨now, later⟩ := permitted
    rw [h.moves call] at later
    exact ih (h.apply now) later

theorem Permits.of_append {front back : List Call} (h : q.Permits moved (front ++ back)) :
    q.Permits moved front := by
  induction front generalizing q moved with
  | nil => trivial
  | cons call front ih => exact ⟨h.1, ih h.2⟩

/-- **A schedule is a queue.** Whatever calls are made of it, from power-on or from any
consistent state, it stays consistent and its pending steps are those that wait in a queue
without bounds after the same calls. Its current step is the head of them, and it is drained
exactly if there is none. A push is made only if there is room for it, and a rewind only right
after an advance that moved. As long as no rewind is made, there is room for thirty-two steps
from the moment it is drained, however many are consumed in between. -/
theorem schedule_is_queue {start : Schedule} (consistent : start.Consistent) (calls : List Call)
    (permitted : start.Permits false calls) :
    (∀ done, done <+: calls →
      let q := start.after done
      q.Consistent ∧ q.pending = (Line.after ⟨start.pending, none⟩ done).waiting ∧
        q.current = q.pending.head? ∧ (q.isDrained = true ↔ q.pending = [])) ∧
    (empty.Consistent ∧ empty.pending = []) ∧
    ∀ q : Schedule, q.Consistent → q.isDrained = true → ∀ moved more, .rewind ∉ more →
      (more.map Call.pushes).sum ≤ 32 → q.Permits moved more := by
  refine ⟨?_, ⟨consistent_empty, rfl⟩, ?_⟩
  · rintro done ⟨rest, rfl⟩
    have models := (Models.start consistent).after done permitted.of_append
    exact ⟨models.consistent, models.pending, current_eq_head? models.consistent,
      isDrained_iff_pending models.consistent⟩
  · intro q h drained moved more forward few
    have unused : q.used = 0 := if_pos drained
    exact permits_of_used_le h more forward (by omega)

/-- The slots are filled, one step is taken and put back, all are consumed, and the next push
starts over from the first slot. -/
theorem schedule_is_queue_filled :
    let calls : List Call := [.extend (.replicate 32 (.cycle .dummy)), .advance, .rewind] ++
      .replicate 32 .advance ++ [.push (.cycle .peekPc), .push (.action .jump), .advance]
    empty.Permits false calls ∧ (empty.after calls).pending = [.action .jump] ∧
      (empty.after calls).current = some (.action .jump) := by
  intro calls
  have permitted : empty.Permits false calls := by decide +kernel
  obtain ⟨_, pending, current, _⟩ :=
    (schedule_is_queue consistent_empty calls permitted).1 calls (List.prefix_refl calls)
  have waiting : (Line.after ⟨empty.pending, none⟩ calls).waiting = [.action .jump] := by
    decide +kernel
  rw [waiting] at pending
  rw [pending] at current
  exact ⟨permitted, pending, current⟩

end Sim6809.Schedule
