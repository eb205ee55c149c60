/-
Interrupt frames: what lies in memory after stacking, and what comes back.

A frame is written downward and read upward, by two lists that have to mirror each
other. Both are described here by the bytes they leave or expect in memory, as an
overlay on what is there: `enact_frame` says that stacking a frame overlays its image
right below the stack pointer, and `enact_unwind` that RTI, finding the bytes of an
image, puts the registers back. That the two fit is then no more than that they speak
of the same image.
-/
import Sim6809.Proofs.Straight

set_option autoImplicit false

namespace Sim6809

theorem Word.sub_sub (w m n : Word) : w - m - n = w - (m + n) := by
  apply UInt16.toNat_inj.1
  have bound := w.toNat_lt
  have bound' := m.toNat_lt
  have bound'' := n.toNat_lt
  simp only [UInt16.toNat_sub, UInt16.toNat_add]
  omega

/-! ## Bytes laid over memory -/

/-- Memory with the bytes from `base` on replaced, around the end of memory if they
come to it. -/
def Ram.overlay (ram : Ram) (base : Word) (bytes : List Byte) : Ram :=
  fun a => (bytes[(a - base).toNat]?).getD (ram a)

@[simp] theorem Ram.overlay_nil (ram : Ram) (base : Word) : ram.overlay base [] = ram := rfl

/-- Behind the last of the bytes, around the end of memory again, it is as it was. -/
theorem Ram.overlay_of_outside (ram : Ram) {base address : Word} {bytes : List Byte}
    (outside : bytes.length ≤ (address - base).toNat) :
    ram.overlay base bytes address = ram address := by
  rw [overlay, List.getElem?_eq_none outside, Option.getD_none]

/-- Bytes grow downward by one at a time. -/
theorem Ram.put_overlay (ram : Ram) (base : Word) (bytes : List Byte) (byte : Byte) :
    (ram.overlay base bytes).put (base - 1) byte = ram.overlay (base - 1) (byte :: bytes) := by
  funext a
  by_cases here : base - 1 = a
  · have zero : (a - (base - 1)).toNat = 0 := by
      rw [here, UInt16.sub_self]
      rfl
    rw [Ram.put, if_pos here, Ram.overlay, zero]
    rfl
  · have next : (a - (base - 1)).toNat = (a - base).toNat + 1 := by
      have ne : (base - 1).toNat ≠ a.toNat := fun same => here (UInt16.toNat_inj.1 same)
      have bound := a.toNat_lt
      have bound' := base.toNat_lt
      simp only [UInt16.toNat_sub, UInt16.reduceToNat] at ne ⊢
      omega
    rw [Ram.put, if_neg here, Ram.overlay, Ram.overlay, next, List.getElem?_cons_succ]

/-- These bytes lie in memory from `base` on. -/
def Ram.Holds (ram : Ram) (base : Word) (bytes : List Byte) : Prop :=
  ∀ k (h : k < bytes.length), ram (base + UInt16.ofNat k) = bytes[k]

namespace Ram.Holds

variable {ram : Ram} {base : Word} {byte : Byte} {bytes : List Byte}

theorem head (h : ram.Holds base (byte :: bytes)) : ram base = byte := by
  have first := h 0 (Nat.succ_pos _)
  rw [show base + UInt16.ofNat 0 = base from UInt16.add_zero base] at first
  exact first

theorem tail (h : ram.Holds base (byte :: bytes)) : ram.Holds (base + 1) bytes := by
  intro k inside
  have next := h (k + 1) (Nat.succ_lt_succ inside)
  rw [UInt16.ofNat_add, UInt16.add_comm (UInt16.ofNat k), ← UInt16.add_assoc] at next
  exact next

/-- What is laid over memory is there, unless it is longer than memory. -/
theorem overlay (ram : Ram) (base : Word) (fits : bytes.length ≤ 65536) :
    (ram.overlay base bytes).Holds base bytes := by
  intro k inside
  have offset : (base + UInt16.ofNat k - base).toNat = k := by
    have bound := base.toNat_lt
    rw [UInt16.toNat_sub, UInt16.toNat_add, UInt16.toNat_ofNat']
    omega
  rw [Ram.overlay, offset, List.getElem?_eq_getElem inside, Option.getD_some]

end Ram.Holds

/-! ## Stacking -/

namespace Frame

/-- A frame as it lies in memory, lowest address first. -/
def image (entire : Bool) (r : RegisterFile) : List Byte :=
  let cc := ({ r.cc with entire := entire } : ConditionCodes).toByte
  if entire then
    [cc, r.a, r.b, r.dp, Word.high r.x, Word.low r.x, Word.high r.y, Word.low r.y,
      Word.high r.u, Word.low r.u, Word.high r.pc, Word.low r.pc]
  else [cc, Word.high r.pc, Word.low r.pc]

/-- How many bytes that is. -/
def size (entire : Bool) : Nat := if entire then 12 else 3

theorem length_image (entire : Bool) (r : RegisterFile) :
    (image entire r).length = size entire := by
  cases entire <;> rfl

/-- The registers once the frame is stacked. -/
def stacked (entire : Bool) (r : RegisterFile) : RegisterFile :=
  { r with s := r.s - UInt16.ofNat (size entire), cc := { r.cc with entire := entire } }

/-- Memory once the frame is stacked. -/
def memory (entire : Bool) (r : RegisterFile) (ram : Ram) : Ram :=
  ram.overlay (r.s - UInt16.ofNat (size entire)) (image entire r)

end Frame

/-- The register that points to a stack. -/
def Stack.pointer : Stack → Pointer
  | .s => .s
  | .u => .u

/-- Neither half of the pointer to this stack. -/
def Part.Apart (stack : Stack) (part : Part) : Prop :=
  part ≠ .high stack.pointer ∧ part ≠ .low stack.pointer

instance (stack : Stack) (part : Part) : Decidable (part.Apart stack) :=
  inferInstanceAs (Decidable (_ ∧ _))

namespace Part.Apart

theorem part {stack : Stack} {part : Part} (h : part.Apart stack) (r : RegisterFile) (w : Word) :
    (r.setStack stack w).part part = r.part part := by
  obtain ⟨high, low⟩ := h
  cases stack with
  | s | u =>
    cases part with
    | high register | low register => cases register <;> first | rfl | contradiction
    | _ => rfl

theorem setPart {stack : Stack} {part : Part} (h : part.Apart stack) (r : RegisterFile) (w : Word)
    (value : Byte) :
    (r.setStack stack w).setPart part value = (r.setPart part value).setStack stack w := by
  obtain ⟨high, low⟩ := h
  cases stack with
  | s | u =>
    cases part with
    | high register | low register => cases register <;> first | rfl | contradiction
    | _ => rfl

end Part.Apart

/-- Neither half of the hardware stack pointer. -/
def Part.OffStack (part : Part) : Prop := part ≠ .high .s ∧ part ≠ .low .s

instance (part : Part) : Decidable part.OffStack := inferInstanceAs (Decidable (_ ∧ _))

theorem Part.OffStack.part {part : Part} (h : part.OffStack) (r : RegisterFile) (s : Word) :
    ({ r with s := s }).part part = r.part part :=
  @Part.Apart.part .s part h r s

namespace RegisterFile

@[simp] theorem stack_setStack (r : RegisterFile) (stack : Stack) (w : Word) :
    (r.setStack stack w).stack stack = w := by
  cases stack <;> rfl

@[simp] theorem setStack_setStack (r : RegisterFile) (stack : Stack) (v w : Word) :
    (r.setStack stack v).setStack stack w = r.setStack stack w := by
  cases stack <;> rfl

@[simp] theorem setStack_stack (r : RegisterFile) (stack : Stack) :
    r.setStack stack (r.stack stack) = r := by
  cases stack <;> rfl

end RegisterFile

/-- Pushes lay their bytes below the stack pointer, the last one lowest. -/
theorem enact_pushes (stack : Stack) {parts : List Part} (off : ∀ part ∈ parts, part.Apart stack)
    (c : Processor) (ram : Ram) (bytes : List Byte) :
    enactAll (parts.map fun part => .cycle (.push stack part))
        (c, ram.overlay (c.regs.stack stack) bytes) =
      ({ c with regs :=
          c.regs.setStack stack (c.regs.stack stack - UInt16.ofNat parts.length) },
        ram.overlay (c.regs.stack stack - UInt16.ofNat parts.length)
          ((parts.map c.regs.part).reverse ++ bytes)) := by
  induction parts generalizing c bytes with
  | nil =>
    have still : c.regs.stack stack - UInt16.ofNat ([] : List Part).length = c.regs.stack stack :=
      UInt16.sub_zero _
    rw [still, RegisterFile.setStack_stack]
    rfl
  | cons part parts ih =>
    have head := off part List.mem_cons_self
    have further : c.regs.stack stack - 1 - UInt16.ofNat parts.length =
        c.regs.stack stack - UInt16.ofNat (parts.length + 1) := by
      rw [UInt16.ofNat_add, Word.sub_sub, UInt16.add_comm]
      rfl
    have pushed : MicroOp.enact (.cycle (.push stack part))
          (c, ram.overlay (c.regs.stack stack) bytes) =
        ({ c with regs := c.regs.setStack stack (c.regs.stack stack - 1) },
          ram.overlay (c.regs.stack stack - 1) (c.regs.part part :: bytes)) := by
      rw [← Ram.put_overlay, ← head.part c.regs (c.regs.stack stack - 1)]
      cases stack <;> rfl
    have same : parts.map (c.regs.setStack stack (c.regs.stack stack - 1)).part =
        parts.map c.regs.part :=
      List.map_congr_left fun other mem =>
        (off other (List.mem_cons_of_mem part mem)).part c.regs (c.regs.stack stack - 1)
    have on := ih (fun other mem => off other (List.mem_cons_of_mem part mem))
      { c with regs := c.regs.setStack stack (c.regs.stack stack - 1) } (c.regs.part part :: bytes)
    simp only [RegisterFile.stack_setStack, RegisterFile.setStack_setStack] at on
    rw [List.map_cons, enactAll, pushed, on, same, List.map_cons, List.reverse_cons,
      List.append_assoc, List.singleton_append, List.length_cons, further]

/-- The pushes of a frame, in one list. -/
def Frame.pushes (entire : Bool) : List Part :=
  [.low .pc, .high .pc] ++ (if entire then Frame.entirePushed else []) ++ [.cc]

theorem Frame.program_eq (entire : Bool) :
    Frame.program entire = .action (.markEntire entire) :: .cycle .dummy ::
      (Frame.pushes entire).map fun part => .cycle (.push .s part) := by
  cases entire <;> rfl

theorem Frame.pushes_reverse (entire : Bool) (r : RegisterFile) :
    ((Frame.pushes entire).map
      ({ r with cc := { r.cc with entire := entire } } : RegisterFile).part).reverse =
        Frame.image entire r := by
  cases entire <;> rfl

/-- Stacking a frame lays its image below the stack pointer, with E telling which frame
it is; nothing else changes. -/
theorem enact_frame (entire : Bool) (c : Processor) (ram : Ram) :
    enactAll (Frame.program entire) (c, ram) =
      ({ c with regs := Frame.stacked entire c.regs }, Frame.memory entire c.regs ram) := by
  have off : ∀ part ∈ Frame.pushes entire, part.Apart .s := by
    cases entire <;> decide
  have length : (Frame.pushes entire).length = Frame.size entire := by
    cases entire <;> rfl
  have marked : MicroOp.enact (.cycle .dummy) (MicroOp.enact (.action (.markEntire entire))
      (c, ram)) = (c.setFlags { c.regs.cc with entire := entire }, ram) := rfl
  have pushed := enact_pushes .s off (c.setFlags { c.regs.cc with entire := entire }) ram []
  rw [List.append_nil, Ram.overlay_nil, length] at pushed
  rw [Frame.program_eq, enactAll, enactAll, marked, pushed]
  change (_, ram.overlay _ ((Frame.pushes entire).map
    ({ c.regs with cc := { c.regs.cc with entire := entire } } : RegisterFile).part).reverse) = _
  rw [Frame.pushes_reverse]
  rfl

/-! ## Unwinding -/

/-- The registers with some parts copied from others. -/
def RegisterFile.copied (r from' : RegisterFile) (parts : List Part) : RegisterFile :=
  parts.foldl (fun q part => q.setPart part (from'.part part)) r

theorem RegisterFile.copied_setStack {stack : Stack} {parts : List Part}
    (off : ∀ part ∈ parts, part.Apart stack) (r from' : RegisterFile) (w : Word) :
    (r.setStack stack w).copied from' parts = (r.copied from' parts).setStack stack w := by
  induction parts generalizing r with
  | nil => rfl
  | cons part parts ih =>
    rw [copied, List.foldl_cons, (off part List.mem_cons_self).setPart]
    exact ih (fun other mem => off other (List.mem_cons_of_mem part mem)) _

/-- Pulls find their bytes from the stack pointer up. One that loads the hardware stack pointer
arms NMI. -/
theorem enact_pulls (stack : Stack) {parts : List Part} (off : ∀ part ∈ parts, part.Apart stack)
    (c : Processor) (ram : Ram) (r : RegisterFile)
    (found : ram.Holds (c.regs.stack stack) (parts.map r.part)) :
    ∃ inputs, enactAll (parts.map fun part => .cycle (.pull stack part)) (c, ram) =
      ({ c with
          regs := (c.regs.copied r parts).setStack stack
            (c.regs.stack stack + UInt16.ofNat parts.length)
          inputs := inputs }, ram) := by
  induction parts generalizing c with
  | nil =>
    have still : c.regs.stack stack + UInt16.ofNat ([] : List Part).length = c.regs.stack stack :=
      UInt16.add_zero _
    refine ⟨c.inputs, ?_⟩
    rw [still]
    change _ = (({ c with regs := c.regs.setStack stack (c.regs.stack stack) } : Processor), ram)
    rw [RegisterFile.setStack_stack]
    rfl
  | cons part parts ih =>
    have head := off part List.mem_cons_self
    have tail := fun other mem => off other (List.mem_cons_of_mem part mem)
    have further : c.regs.stack stack + 1 + UInt16.ofNat parts.length =
        c.regs.stack stack + UInt16.ofNat (parts.length + 1) := by
      rw [UInt16.ofNat_add, UInt16.add_assoc, UInt16.add_comm 1]
      rfl
    rw [List.map_cons] at found
    have byte : ram (c.regs.stack stack) = r.part part := found.head
    obtain ⟨armed, pulled⟩ : ∃ armed, MicroOp.enact (.cycle (.pull stack part)) (c, ram) =
        ({ c with
            regs := (c.regs.setPart part (r.part part)).setStack stack (c.regs.stack stack + 1)
            inputs := armed }, ram) := by
      rw [← byte, ← head.setPart]
      exact ⟨_, rfl⟩
    obtain ⟨inputs, on⟩ := ih tail
      { c with
        regs := (c.regs.setPart part (r.part part)).setStack stack (c.regs.stack stack + 1)
        inputs := armed } (by simpa using found.tail)
    refine ⟨inputs, ?_⟩
    rw [List.map_cons, enactAll, pulled, on, RegisterFile.copied_setStack tail]
    simp only [RegisterFile.stack_setStack, RegisterFile.setStack_setStack]
    rw [further, List.length_cons]
    rfl

/-- The pulls of a frame below the flags. -/
def Frame.pulls (entire : Bool) : List Part :=
  (if entire then Frame.entirePulled else []) ++ [.high .pc, .low .pc]

theorem Frame.unwind_eq (entire : Bool) :
    Frame.unwind entire =
      ((Frame.pulls entire).map fun part => .cycle (.pull .s part)) ++ [.cycle .dummy] := by
  cases entire <;> rfl

/-- The image is the flags and what is pulled after them, in that order. -/
theorem Frame.image_eq (entire : Bool) (r : RegisterFile) :
    Frame.image entire r =
      ({ r.cc with entire := entire } : ConditionCodes).toByte ::
        (Frame.pulls entire).map r.part := by
  cases entire <;> rfl

theorem enact_unwind (entire : Bool) (c : Processor) (ram : Ram) (r : RegisterFile)
    (found : ram.Holds c.regs.s ((Frame.pulls entire).map r.part)) :
    seen (enactAll (Frame.unwind entire) (c, ram)) =
      ({ c.regs.copied r (Frame.pulls entire) with
          s := c.regs.s + UInt16.ofNat (Frame.pulls entire).length }, ram) := by
  have off : ∀ part ∈ Frame.pulls entire, part.Apart .s := by
    cases entire <;> decide
  obtain ⟨inputs, pulled⟩ := enact_pulls .s off c ram r found
  rw [Frame.unwind_eq, enactAll_append, pulled]
  rfl

/-- The registers after the return from a frame of `r`: all of them, or just PC and the
flags while `q` keeps the others. -/
def Frame.resumed (entire : Bool) (q r : RegisterFile) : RegisterFile :=
  if entire then { r with cc := { r.cc with entire := true } }
  else { q with s := r.s, pc := r.pc, cc := { r.cc with entire := false } }

/-- With the flags back, the pulls complete the return. -/
theorem Frame.copied_pulls (entire : Bool) (q r : RegisterFile) (s : Word) :
    { RegisterFile.copied { q with s := s, cc := { r.cc with entire := entire } } r
        (Frame.pulls entire) with s := r.s } = Frame.resumed entire q r := by
  cases entire <;>
    simp [RegisterFile.copied, Frame.pulls, Frame.entirePulled, Frame.resumed,
      RegisterFile.setPart, RegisterFile.part, RegisterFile.setA, RegisterFile.setB,
      RegisterFile.setPointer, RegisterFile.pointer, RegisterFile.a, RegisterFile.b,
      Word.withHigh, Word.withLow]

end Sim6809
