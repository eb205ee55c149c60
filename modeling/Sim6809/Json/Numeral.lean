/-
Numbers in JSON text.

A number is an optional minus sign and whole digits, then perhaps decimal places,
then perhaps an exponent. It is read as an integer only if it is written as one:
`100` is an integer and `1e2` is not, although the two are equal, and neither is
`1.0`. Minus zero is not an integer either, since there is no such integer.

That rule is the main statement, `digits_of_number?`: what is read as an integer
consists of digits behind at most a sign.
-/
import Sim6809.Json

set_option autoImplicit false

namespace Sim6809.Json

/-- The number that decimal digits stand for, most significant first. -/
def natural (digits : List Char) : Nat :=
  digits.foldl (fun n c => 10 * n + (c.toNat - '0'.toNat)) 0

/-- A minus sign in front. -/
def minus : List Char → Bool × List Char
  | '-' :: text => (true, text)
  | text => (false, text)

/-- Digits in front, of which there is at least one. -/
def digits? (text : List Char) : Option (List Char × List Char) :=
  let digits := text.takeWhile Char.isDigit
  if digits = [] then none else some (digits, text.dropWhile Char.isDigit)

/-- Nothing is lost, and what is taken off is digits, at least one of them. -/
theorem eq_append_of_digits? {text digits rest : List Char}
    (h : digits? text = some (digits, rest)) :
    text = digits ++ rest ∧ digits ≠ [] ∧ ∀ c ∈ digits, c.isDigit = true := by
  simp only [digits?] at h
  split at h
  · simp at h
  · next some_digit =>
    simp only [Option.some.injEq, Prod.mk.injEq] at h
    obtain ⟨rfl, rfl⟩ := h
    exact ⟨List.takeWhile_append_dropWhile.symm, some_digit,
      List.all_eq_true.1 List.all_takeWhile⟩

/-- The whole part, which starts with a zero only if it is zero. -/
def whole? (text : List Char) : Option (List Char × List Char) :=
  match digits? text with
  | some ('0' :: _ :: _, _) => none
  | other => other

theorem digits?_of_whole? {text : List Char} {whole : List Char × List Char}
    (h : whole? text = some whole) : digits? text = some whole := by
  simp only [whole?] at h
  split at h
  · simp at h
  · exact h

/-- The decimal places; without a point there are none. -/
def places? : List Char → Option (List Char × List Char)
  | '.' :: text => digits? text
  | text => some ([], text)

/-- A point has places after it, so without places there is no point. -/
theorem eq_of_places? {text rest : List Char} (h : places? text = some ([], rest)) :
    rest = text := by
  simp only [places?] at h
  split at h
  · exact absurd rfl (eq_append_of_digits? h).2.1
  · simpa using h.symm

/-- Digits to the end of the text. -/
def magnitude? (text : List Char) : Option Nat :=
  match digits? text with
  | some (digits, []) => some (natural digits)
  | _ => none

/-- The exponent, which ends a number. Its sign may be a plus. -/
def exponent? : List Char → Option (Option Int)
  | [] => some none
  | mark :: text =>
    if mark = 'e' ∨ mark = 'E' then
      match text with
      | '-' :: text => (magnitude? text).map fun n : Nat => some (-n)
      | '+' :: text => (magnitude? text).map fun n : Nat => some n
      | text => (magnitude? text).map fun n : Nat => some n
    else none

/-- Without an exponent nothing follows. -/
theorem eq_nil_of_exponent? {text : List Char} (h : exponent? text = some none) :
    text = [] := by
  simp only [exponent?] at h
  split at h
  · rfl
  · split at h
    · split at h <;> simp at h
    · simp at h

/-- A number, if all of the text is one. -/
def number? (text : List Char) : Option Json := do
  let (negative, text) := minus text
  let (whole, text) ← whole? text
  let (places, text) ← places? text
  let exponent ← exponent? text
  let magnitude := natural (whole ++ places)
  let value : Int := if negative then -magnitude else magnitude
  if places = [] ∧ exponent = none ∧ ¬(negative = true ∧ magnitude = 0) then
    some (.integer value)
  else some (.decimal value (exponent.getD 0 - places.length))

/-- What is read as an integer is digits behind at most a sign. -/
theorem digits_of_number? {text : List Char} {n : Int}
    (h : number? text = some (.integer n)) : ∀ c ∈ (minus text).2, c.isDigit = true := by
  simp only [number?, Option.bind_eq_bind, Option.bind_eq_some_iff] at h
  obtain ⟨⟨whole, rest⟩, hwhole, ⟨places, rest'⟩, hplaces, exponent, hexponent, h⟩ := h
  split at h
  · next plain =>
    obtain ⟨rfl, rfl, -⟩ := plain
    have ended : rest' = [] := eq_nil_of_exponent? hexponent
    obtain rfl := eq_of_places? hplaces
    obtain ⟨whole_text, -, all_digits⟩ := eq_append_of_digits? (digits?_of_whole? hwhole)
    simpa only [whole_text, ended, List.append_nil] using all_digits
  · simp at h

end Sim6809.Json
