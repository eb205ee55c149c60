/-
What a program of micro-operations may look like.

Most steps do their work and are gone. A few queue more: an opcode fetch, a postbyte
fetch, the action that takes a vector, and the effect of the four instructions whose
length depends on what they find. `MicroOp.queues` lists them. The property this file
is about is that such a step is always the last one of its program
(`OnlyLastQueues`), since then nothing is pending behind it and what it queues comes
next.

It is shown for every program there is: the frames, the register lists, the vector
fetch, the address cycles of every postbyte, and whatever decodes from an opcode on
any page. The last of these is a statement about 768 slots, decided by trying them;
everything else is read off the definitions.
-/
import Sim6809.Instruction.Decode
import Sim6809.Instruction.Program

set_option autoImplicit false

namespace Sim6809

/-- The steps that queue further ones, in the course of this instruction. -/
def MicroOp.queues (instruction : Instruction) : MicroOp → Bool
  | .cycle .fetchOpcode | .cycle .fetchPostbyte | .action (.vector _) => true
  | .action .operate =>
    match instruction.op with
    | .longBranch _ | .push _ | .pull _ | .rti => true
    | _ => false
  | _ => false

/-- No step queues further ones. -/
def Plain (instruction : Instruction) (ops : List MicroOp) : Prop :=
  ∀ op ∈ ops, op.queues instruction = false

/-- No step but the last one queues further ones. -/
def OnlyLastQueues (instruction : Instruction) (ops : List MicroOp) : Prop :=
  Plain instruction ops.dropLast

instance (instruction : Instruction) (ops : List MicroOp) : Decidable (Plain instruction ops) :=
  inferInstanceAs (Decidable (∀ op ∈ ops, op.queues instruction = false))

instance (instruction : Instruction) (ops : List MicroOp) :
    Decidable (OnlyLastQueues instruction ops) :=
  inferInstanceAs (Decidable (Plain instruction ops.dropLast))

variable {instruction : Instruction}

theorem Plain.append {front back : List MicroOp} (h : Plain instruction front)
    (h' : Plain instruction back) : Plain instruction (front ++ back) := by
  intro op mem
  rcases List.mem_append.1 mem with mem | mem
  · exact h op mem
  · exact h' op mem

theorem Plain.onlyLast {ops : List MicroOp} (h : Plain instruction ops) :
    OnlyLastQueues instruction ops :=
  fun op mem => h op ((List.dropLast_subset ops) mem)

/-- Plain steps in front do not matter. -/
theorem OnlyLastQueues.behind {front back : List MicroOp} (h : Plain instruction front)
    (h' : OnlyLastQueues instruction back) : OnlyLastQueues instruction (front ++ back) := by
  by_cases dry : back = []
  · rw [dry, List.append_nil]
    exact h.onlyLast
  · rw [OnlyLastQueues, List.dropLast_append_of_ne_nil dry]
    exact h.append h'

theorem OnlyLastQueues.tail {ops : List MicroOp} (h : OnlyLastQueues instruction ops) :
    OnlyLastQueues instruction ops.tail := by
  cases ops with
  | nil => exact h
  | cons op rest =>
    by_cases dry : rest = []
    · rw [List.tail_cons, dry]
      intro op mem
      cases mem
    · intro other mem
      rw [List.tail_cons] at mem
      refine h other ?_
      rw [List.dropLast_cons_of_ne_nil dry]
      exact List.mem_cons_of_mem op mem

/-- A step that queues further ones has nothing pending behind it. -/
theorem OnlyLastQueues.rest_eq_nil {op : MicroOp} {rest : List MicroOp}
    (h : OnlyLastQueues instruction (op :: rest)) (queues : op.queues instruction = true) :
    rest = [] := by
  by_cases dry : rest = []
  · exact dry
  · have plain := h op (by
      rw [List.dropLast_cons_of_ne_nil dry]
      exact List.mem_cons_self)
    rw [plain] at queues
    cases queues

/-! ## Frames, lists and vectors -/

theorem plain_vectorFetch : Plain instruction vectorFetch := by
  simp [Plain, vectorFetch, MicroOp.queues]

theorem plain_takeVector : Plain instruction (.cycle .dummy :: vectorFetch) := by
  simp [Plain, vectorFetch, MicroOp.queues]

theorem plain_frame (entire : Bool) : Plain instruction (Frame.program entire) := by
  cases entire <;> simp [Plain, Frame.program, Frame.entirePushed, MicroOp.queues]

theorem length_frame_le (entire : Bool) : (Frame.program entire).length ≤ 14 := by
  cases entire <;> decide

theorem plain_unwind (entire : Bool) : Plain instruction (Frame.unwind entire) := by
  cases entire <;> simp [Plain, Frame.unwind, Frame.entirePulled, MicroOp.queues]

theorem plain_pushes (stack : Stack) (parts : List Part) :
    Plain instruction (parts.map fun part => .cycle (.push stack part)) := by
  intro op mem
  obtain ⟨part, _, rfl⟩ := List.mem_map.1 mem
  rfl

theorem plain_pulls (stack : Stack) (parts : List Part) :
    Plain instruction (parts.map fun part => .cycle (.pull stack part)) := by
  intro op mem
  obtain ⟨part, _, rfl⟩ := List.mem_map.1 mem
  rfl

theorem length_selected_le (order : List (Byte × Part)) (list : Byte) :
    (RegisterList.selected order list).length ≤ order.length := by
  rw [RegisterList.selected, List.length_map]
  exact List.length_filter_le _ _

theorem plain_pullProgram (stack : Stack) (list : Byte) :
    Plain instruction (RegisterList.pullProgram stack list) := by
  refine Plain.append (plain_pulls stack _) ?_
  simp [Plain, MicroOp.queues]

theorem length_pushProgram_le (stack : Stack) (list : Byte) :
    (RegisterList.pushProgram stack list).length ≤ 12 := by
  rw [RegisterList.pushProgram, List.length_map]
  exact length_selected_le (RegisterList.pushOrder stack) list

theorem length_pullProgram_le (stack : Stack) (list : Byte) :
    (RegisterList.pullProgram stack list).length ≤ 13 := by
  rw [RegisterList.pullProgram, List.length_append, List.length_map, List.length_singleton]
  exact Nat.succ_le_succ (length_selected_le (RegisterList.pullOrder stack) list)

theorem fetchPostbyte_not_mem_fetchOpcode :
    MicroOp.cycle .fetchPostbyte ∉ [MicroOp.cycle .fetchOpcode] := by
  decide

/-! ## Address cycles of a postbyte -/

theorem plain_indexProgram (postbyte : Byte) :
    Plain instruction (IndexForm.program postbyte) := by
  refine Plain.append ?_ ?_
  · cases IndexForm.ofPostbyte postbyte <;> simp [Plain, IndexForm.cycles, MicroOp.queues]
  · split <;> simp [Plain, IndexForm.indirection, MicroOp.queues]

theorem length_indexProgram_le (postbyte : Byte) :
    (IndexForm.program postbyte).length ≤ 11 := by
  have cycles : (IndexForm.ofPostbyte postbyte).cycles.length ≤ 7 := by
    cases IndexForm.ofPostbyte postbyte <;> decide
  have indirection : (if IndexForm.isIndirect postbyte then IndexForm.indirection
      else []).length ≤ 4 := by
    split <;> decide
  rw [IndexForm.program, List.length_append]
  omega

/-! ## Decoded instructions -/

/-- An instruction is well laid out if only the last step of its program queues
further ones, and, should that be a postbyte fetch, the same is true of the body that
is then queued. The numbers bound the slots it takes. -/
structure Instruction.LaidOut (i : Instruction) : Prop where
  program : OnlyLastQueues i i.program
  length : i.program.length ≤ 18
  indexed : .cycle .fetchPostbyte ∈ i.program → i.mode = .indexed
  body : i.mode = .indexed → OnlyLastQueues i i.body
  lengthBody : i.mode = .indexed → i.body.length ≤ 5
  noPostbyte : .cycle .fetchPostbyte ∉ i.body

/-- The same, as a check. -/
theorem Instruction.laidOut_iff (i : Instruction) :
    i.LaidOut ↔ OnlyLastQueues i i.program ∧ i.program.length ≤ 18 ∧
      (.cycle .fetchPostbyte ∈ i.program → i.mode = .indexed) ∧
      (i.mode = .indexed → OnlyLastQueues i i.body) ∧
      (i.mode = .indexed → i.body.length ≤ 5) ∧ .cycle .fetchPostbyte ∉ i.body :=
  ⟨fun h => ⟨h.program, h.length, h.indexed, h.body, h.lengthBody, h.noPostbyte⟩,
    fun ⟨program, length, indexed, body, lengthBody, noPostbyte⟩ =>
      ⟨program, length, indexed, body, lengthBody, noPostbyte⟩⟩

instance (i : Instruction) : Decidable i.LaidOut := decidable_of_iff _ i.laidOut_iff.symm

/-- What holds of every slot of the three pages, at its opcode, holds of everything that
decodes. -/
theorem Instruction.decode_induction_at {P : Byte → Instruction → Prop}
    (slot0 : ∀ n : Fin 256, P (UInt8.ofNat n) (page0 (UInt8.ofNat n)))
    (slot2 : ∀ n : Fin 256, ∀ i ∈ page2 (UInt8.ofNat n), P (UInt8.ofNat n) i)
    (slot3 : ∀ n : Fin 256, ∀ i ∈ page3 (UInt8.ofNat n), P (UInt8.ofNat n) i)
    (page opcode : Byte) : P opcode (decode page opcode) := by
  have base : P opcode (page0 opcode) := Byte.of_table opcode slot0
  have fallback : ∀ slot : Option Instruction, (∀ i ∈ slot, P opcode i) →
      P opcode (slot.getD (page0 opcode)) := by
    intro slot defined
    cases slot with
    | none => exact base
    | some i => exact defined i rfl
  unfold decode
  split
  · exact fallback _ (Byte.of_table opcode slot2)
  · exact fallback _ (Byte.of_table opcode slot3)
  · exact base

/-- The same for what does not depend on the opcode. -/
theorem Instruction.decode_induction {P : Instruction → Prop}
    (slot0 : ∀ n : Fin 256, P (page0 (UInt8.ofNat n)))
    (slot2 : ∀ n : Fin 256, ∀ i ∈ page2 (UInt8.ofNat n), P i)
    (slot3 : ∀ n : Fin 256, ∀ i ∈ page3 (UInt8.ofNat n), P i) (page opcode : Byte) :
    P (decode page opcode) :=
  decode_induction_at (P := fun _ => P) slot0 slot2 slot3 page opcode

/-- Every decoded instruction is well laid out. -/
theorem Instruction.laidOut_decode (page opcode : Byte) : (decode page opcode).LaidOut :=
  decode_induction (by decide +kernel) (by decide +kernel) (by decide +kernel) page opcode

/-! ## Page selections -/

/-- The page that an operation selects, if that is what it does. -/
def Operation.selects? : Operation → Option Byte
  | .selectPage page => some page
  | _ => none

theorem Operation.selects?_eq_some_iff {op : Operation} {page : Byte} :
    op.selects? = some page ↔ op = .selectPage page := by
  cases op <;> simp [selects?]

/-- The same two opcodes select a page wherever they stand. -/
theorem Instruction.selects?_decode (page opcode : Byte) :
    (decode page opcode).op.selects? =
      if opcode = 0x10 then some 2 else if opcode = 0x11 then some 3 else none :=
  decode_induction_at
    (P := fun opcode i =>
      i.op.selects? = if opcode = 0x10 then some 2 else if opcode = 0x11 then some 3 else none)
    (by decide +kernel) (by decide +kernel) (by decide +kernel) page opcode

/-- There are two pages to select. -/
theorem Instruction.eq_of_selectPage {page opcode selected : Byte}
    (selects : (decode page opcode).op = .selectPage selected) : selected = 2 ∨ selected = 3 := by
  have table := selects?_decode page opcode
  rw [Operation.selects?_eq_some_iff.2 selects] at table
  split at table
  · exact Or.inl (Option.some.inj table)
  · split at table
    · exact Or.inr (Option.some.inj table)
    · cases table

/-- No slot selects page 0, so a page once selected stays selected. -/
theorem Instruction.decode_ne_selectPage_zero (page opcode : Byte) :
    (decode page opcode).op ≠ .selectPage 0 := by
  intro selects
  rcases eq_of_selectPage selects with zero | zero <;> cases zero

/-- Whatever was selected before a selection, a page is after it. -/
theorem Instruction.selected_ne_zero {page opcode selected : Byte}
    (selects : (decode page opcode).op = .selectPage selected) :
    (if page = 0 then selected else page) ≠ 0 := by
  split
  · rintro rfl
    exact decode_ne_selectPage_zero _ _ selects
  · next other => exact other

end Sim6809
