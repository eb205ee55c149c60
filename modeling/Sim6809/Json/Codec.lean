/-
Values written as JSON trees and read back.

A type has one way of being written, `encode`, and `decode` accepts at least that:
the law is part of the class, so whatever is assembled from codecs can be read
back too. Reading is otherwise strict about values and lenient about order. A
number has to be an integer in range; a record needs every one of its fields, but
may list them in any order among others.

A value of a type with several alternatives is written as its tag alone if the
alternative holds nothing, and otherwise as an object whose one member is the tag
with what is held: `"Nop"`, but `{"Read": 1}`. The alternatives of a type are a
table, which is searched by tag.
-/
import Sim6809.CycleCount
import Sim6809.Json

set_option autoImplicit false

namespace Sim6809

/-- A type whose values are written as JSON. -/
class Codec (α : Type) where
  encode : α → Json
  decode : Json → Option α
  /-- What is written is read back. -/
  decode_encode : ∀ value, decode (encode value) = some value

namespace Codec

attribute [simp] decode_encode

/-! ## Scalars -/

instance : Codec Bool where
  encode := .bool
  decode
    | .bool value => some value
    | _ => none
  decode_encode := fun _ => rfl

/-- A natural number below a bound. -/
def decodeBelow (bound : Nat) : Json → Option Nat
  | .integer value => if 0 ≤ value ∧ value < bound then some value.toNat else none
  | _ => none

theorem decodeBelow_integer {bound n : Nat} (h : n < bound) :
    decodeBelow bound (.integer n) = some n := by
  simp only [decodeBelow]
  rw [if_pos ⟨Int.natCast_nonneg n, by omega⟩]
  simp

instance : Codec UInt8 where
  encode value := .integer value.toNat
  decode json := (decodeBelow 256 json).map UInt8.ofNat
  decode_encode value := by rw [decodeBelow_integer value.toNat_lt]; simp

instance : Codec UInt16 where
  encode value := .integer value.toNat
  decode json := (decodeBelow 65536 json).map UInt16.ofNat
  decode_encode value := by rw [decodeBelow_integer value.toNat_lt]; simp

instance : Codec UInt64 where
  encode value := .integer value.toNat
  decode json := (decodeBelow 18446744073709551616 json).map UInt64.ofNat
  decode_encode value := by rw [decodeBelow_integer value.toNat_lt]; simp

instance : Codec CycleCount where
  encode value := encode value.count
  decode json := (decode json).map CycleCount.mk
  decode_encode value := by simp

/-! ## Sequences -/

theorem mapM_decode_encode {α : Type} [Codec α] (values : List α) :
    (values.map encode).mapM (decode (α := α)) = some values := by
  induction values with
  | nil => rfl
  | cons value values ih => simp [ih]

/-- A sequence of known length, read only if it has that length. -/
instance {α : Type} [Codec α] {n : Nat} : Codec (Vector α n) where
  encode values := .array (values.toList.map encode)
  decode
    | .array items => do
      let values ← items.mapM decode
      if h : values.length = n then some ⟨values.toArray, by simpa using h⟩ else none
    | _ => none
  decode_encode values := by
    -- The `do` block is a bind, and the elements read back are those written.
    change ((values.toList.map encode).mapM decode).bind _ = _
    rw [mapM_decode_encode]
    simp [Vector.toList]

/-! ## Alternatives -/

/-- One alternative of a type: its tag, and how what it holds is read. -/
abbrev Alternative (α : Type) := String × (Option Json → Option α)

/-- An alternative that holds nothing. -/
def plain {α : Type} (tag : String) (value : α) : Alternative α :=
  (tag, fun
    | none | some .null => some value
    | some _ => none)

/-- An alternative that holds one value. -/
def holding {α β : Type} [Codec β] (tag : String) (make : β → α) : Alternative α :=
  (tag, fun held => (held.bind decode).map make)

/-- An alternative that holds two values, written as an array. -/
def holdingTwo {α β γ : Type} [Codec β] [Codec γ] (tag : String) (make : β → γ → α) :
    Alternative α :=
  (tag, fun
    | some (.array [first, second]) => do
      let first ← decode first
      let second ← decode second
      some (make first second)
    | _ => none)

/-- The tag with one value held. -/
def tagged {β : Type} [Codec β] (tag : String) (held : β) : Json :=
  .object [(tag, encode held)]

/-- The tag with two values held. -/
def taggedTwo {β γ : Type} [Codec β] [Codec γ] (tag : String) (first : β) (second : γ) : Json :=
  .object [(tag, .array [encode first, encode second])]

/-- Reads one of the alternatives of a table. -/
def choose {α : Type} (table : List (Alternative α)) : Json → Option α
  | .string tag => (table.lookup tag).bind fun read => read none
  | .object [(tag, held)] => (table.lookup tag).bind fun read => read (some held)
  | _ => none

end Codec

end Sim6809
