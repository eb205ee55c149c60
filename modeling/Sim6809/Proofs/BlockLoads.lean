/-
Loading a block: which of its bytes end up where.

A block is copied byte by byte to ascending addresses, and the addresses wrap at the top of
memory. So the byte at index `i` lands at `start + i` modulo the size of memory, and several
bytes land at one address once a block is longer than that. Each overwrites the one before, so
the last of them stays, and an address at which none lands keeps what it held.

The induction is on the block. What is left of it after its first byte is a block that is
loaded one address further up, so an index there is one less than it was (`lands_succ`).
-/
import Sim6809.Memory

set_option autoImplicit false

namespace Sim6809.Memory

/-! ## Where a byte lands -/

/-- The byte at index `i` of a block that is loaded at `start` lands at this address. -/
def Lands (start : Word) (i : Nat) (address : Word) : Prop :=
  (start.toNat + i) % 65536 = address.toNat

/-- No byte that lands there has a higher index, in a block of this length. -/
structure LandsLast (start : Word) (length i : Nat) (address : Word) : Prop where
  inside : i < length
  lands : Lands start i address
  last : ∀ j, i < j → j < length → ¬Lands start j address

variable {start address : Word} {length i : Nat}

theorem lands_zero : Lands start 0 address ↔ start = address := by
  rw [Lands, Nat.add_zero, Nat.mod_eq_of_lt start.toNat_lt, UInt16.toNat_inj]

theorem lands_succ : Lands start (i + 1) address ↔ Lands (start + 1) i address := by
  have next : (start + 1).toNat = (start.toNat + 1) % 65536 := UInt16.toNat_add start 1
  rw [Lands, Lands, next, Nat.mod_add_mod, Nat.add_assoc, Nat.add_comm 1 i]

/-- A block that starts with one more byte has the same bytes one index later. -/
theorem LandsLast.succ (h : LandsLast (start + 1) length i address) :
    LandsLast start (length + 1) (i + 1) address where
  inside := Nat.succ_lt_succ h.inside
  lands := lands_succ.2 h.lands
  last := by
    intro j after inside
    obtain ⟨k, rfl⟩ : ∃ k, j = k + 1 := ⟨j - 1, by omega⟩
    rw [lands_succ]
    exact h.last k (Nat.lt_of_succ_lt_succ after) (Nat.lt_of_succ_lt_succ inside)

/-- Its own first byte stays where it lands unless one of the others lands there. -/
theorem landsLast_zero (lands : Lands start 0 address)
    (others : ∀ j, j < length → ¬Lands (start + 1) j address) :
    LandsLast start (length + 1) 0 address where
  inside := Nat.succ_pos length
  lands := lands
  last := by
    intro j after inside
    obtain ⟨k, rfl⟩ : ∃ k, j = k + 1 := ⟨j - 1, by omega⟩
    rw [lands_succ]
    exact others k (Nat.lt_of_succ_lt_succ inside)

/-! ## What a load leaves -/

theorem cycles_load (m : Memory) (start : Word) (bytes : List Byte) :
    (m.load start bytes).cycles = m.cycles := by
  induction bytes generalizing m start with
  | nil => rfl
  | cons byte rest ih => exact (ih (m.poke start byte) (start + 1)).trans (cycles_poke m start byte)

/-- An address holds the last byte that lands there, or what it held before. -/
theorem peek_load (m : Memory) (start : Word) (bytes : List Byte) (address : Word) :
    (∃ i, LandsLast start bytes.length i address ∧
        bytes[i]? = some ((m.load start bytes).peek address)) ∨
      (∀ i, i < bytes.length → ¬Lands start i address) ∧
        (m.load start bytes).peek address = m.peek address := by
  induction bytes generalizing m start with
  | nil => exact Or.inr ⟨nofun, rfl⟩
  | cons byte rest ih =>
    rw [load, List.length_cons]
    rcases ih (m.poke start byte) (start + 1) with ⟨i, last, holds⟩ | ⟨others, kept⟩
    · exact Or.inl ⟨i + 1, last.succ, by rw [List.getElem?_cons_succ, holds]⟩
    · rw [kept, peek_poke]
      by_cases first : start = address
      · refine Or.inl ⟨0, landsLast_zero (lands_zero.2 first) others, ?_⟩
        rw [if_pos first, List.getElem?_cons_zero]
      · refine Or.inr ⟨?_, if_neg first⟩
        intro i inside
        cases i with
        | zero => rwa [lands_zero]
        | succ i =>
          rw [lands_succ]
          exact others i (Nat.lt_of_succ_lt_succ inside)

/-- A block may be loaded in two parts. -/
theorem load_append (m : Memory) (start : Word) (front back : List Byte) :
    m.load start (front ++ back) =
      (m.load start front).load (start + UInt16.ofNat front.length) back := by
  induction front generalizing m start with
  | nil => exact congrArg (fun start => m.load start back) (UInt16.add_zero start).symm
  | cons byte front ih =>
    have further : start + 1 + UInt16.ofNat front.length =
        start + UInt16.ofNat (front.length + 1) := by
      rw [UInt16.ofNat_add, UInt16.add_assoc, UInt16.add_comm 1]
      rfl
    rw [List.cons_append, load, load, ih, further, List.length_cons]

/-- **A load is a wrapping block copy**, of any length. Afterwards each address holds the last
byte of the block that lands there, and what it held before if none does. A load is no access,
so none is counted. A block may be cut anywhere and loaded in two parts, the second where the
first one ended. -/
theorem load_copies_block (m : Memory) (start : Word) (bytes : List Byte) :
    (∀ address,
      (∃ i, LandsLast start bytes.length i address ∧
          bytes[i]? = some ((m.load start bytes).peek address)) ∨
        (∀ i, i < bytes.length → ¬Lands start i address) ∧
          (m.load start bytes).peek address = m.peek address) ∧
      (m.load start bytes).cycles = m.cycles ∧
      ∀ front back, m.load start (front ++ back) =
        (m.load start front).load (start + UInt16.ofNat front.length) back :=
  ⟨peek_load m start bytes, cycles_load m start bytes, load_append m start⟩

end Sim6809.Memory
