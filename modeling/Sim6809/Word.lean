/-
Bytes and words: the two widths the 6809 computes with, and how a word is put
together from two bytes and taken apart again.

Everything the processor moves is one of these. A word is big-endian wherever it
meets the bus, so the high byte always comes first in the functions below. All of
them are defined from `ofBytes`, `high` and `low`, and those three by arithmetic,
so that the laws at the end of the file are facts about quotient and remainder by
256: the halves of a word rebuild it, and each half can be read back.
-/

set_option autoImplicit false

namespace Sim6809

/-- Eight bits: one bus transfer, one accumulator. -/
abbrev Byte := UInt8

/-- Sixteen bits: an address, an index register, the pair of accumulators.
Arithmetic on words wraps, as addresses do at the top of memory. -/
abbrev Word := UInt16

/-- What all 256 values have, every byte has. Over `Fin` it can be decided. -/
@[elab_as_elim]
theorem Byte.of_table {motive : Byte → Prop} (b : Byte)
    (table : ∀ k : Fin 256, motive (UInt8.ofNat k)) : motive b := by
  have same : UInt8.ofNat (⟨b.toNat, b.toNat_lt⟩ : Fin 256) = b := by simp
  rw [← same]
  exact table _

namespace Word

/-- The more significant byte. -/
def high (w : Word) : Byte := (w / 256).toUInt8

/-- The less significant byte. -/
def low (w : Word) : Byte := w.toUInt8

/-- The word whose halves are the two bytes. -/
def ofBytes (high low : Byte) : Word := high.toUInt16 * 256 + low.toUInt16

/-- Replaces the high half. -/
def withHigh (w : Word) (b : Byte) : Word := ofBytes b (low w)

/-- Replaces the low half. -/
def withLow (w : Word) (b : Byte) : Word := ofBytes (high w) b

/-- Moves the low byte up and puts a new byte below it: how operands longer than
one byte are assembled, most significant byte first. What was in the high byte is
forgotten, so two bytes shifted in determine the word. -/
def shiftIn (w : Word) (b : Byte) : Word := ofBytes (low w) b

/-- The byte read as a two's-complement number and widened. -/
def signExtend (b : Byte) : Word := ofBytes (if b < 0x80 then 0x00 else 0xFF) b

/-- The low five bits of a byte read as a two's-complement number and widened. -/
def signExtend5 (b : Byte) : Word :=
  let offset := b % 0x20
  -- `$10` to `$1F` stand for -16 to -1.
  if offset < 0x10 then ofBytes 0x00 offset else ofBytes 0xFF (offset + 0xE0)

/-! ## A word is its two halves -/

theorem toNat_high (w : Word) : (high w).toNat = w.toNat / 256 := by
  have := w.toNat_lt
  simp only [high, UInt16.toNat_toUInt8, UInt16.toNat_div, UInt16.reduceToNat]
  omega

theorem toNat_low (w : Word) : (low w).toNat = w.toNat % 256 := by
  simp only [low, UInt16.toNat_toUInt8]

theorem toNat_ofBytes (h l : Byte) : (ofBytes h l).toNat = h.toNat * 256 + l.toNat := by
  have := h.toNat_lt
  have := l.toNat_lt
  simp only [ofBytes, UInt16.toNat_add, UInt16.toNat_mul, UInt8.toNat_toUInt16,
    UInt16.reduceToNat]
  omega

/-- The halves of a word rebuild it. -/
@[simp] theorem ofBytes_high_low (w : Word) : ofBytes (high w) (low w) = w := by
  apply UInt16.toNat_inj.1
  rw [toNat_ofBytes, toNat_high, toNat_low]
  omega

@[simp] theorem high_ofBytes (h l : Byte) : high (ofBytes h l) = h := by
  have := l.toNat_lt
  apply UInt8.toNat_inj.1
  rw [toNat_high, toNat_ofBytes]
  omega

@[simp] theorem low_ofBytes (h l : Byte) : low (ofBytes h l) = l := by
  have := l.toNat_lt
  apply UInt8.toNat_inj.1
  rw [toNat_low, toNat_ofBytes]
  omega

/-- A word whose first byte is fetched before its second is the word of the two,
whatever was there before. -/
@[simp] theorem shiftIn_shiftIn (w : Word) (h l : Byte) :
    shiftIn (shiftIn w h) l = ofBytes h l := by
  simp [shiftIn]

/-- Only the low byte of what is there takes part, so one byte shifted in fixes
the byte that comes back out. -/
@[simp] theorem low_shiftIn (w : Word) (b : Byte) : low (shiftIn w b) = b := by
  simp [shiftIn]

end Word

end Sim6809
