/-
The tokens of JSON text: brackets, separators, and values without parts.

Text is scanned one character at a time, and `Scan` is all that is remembered of
the token being read. So the scan is a fold over the text: no character is looked at
twice, and none is looked ahead to.

A string is read as the list of its code units. A character stands for itself,
whatever its code; only an escape can be half of a surrogate pair, and halves are
put together at the end, when both are there.
-/
import Sim6809.Json.Numeral

set_option autoImplicit false

namespace Sim6809.Json

/-- One token. -/
inductive Token
  /-- A string, a number, or one of the three words. -/
  | leaf (value : Json)
  | openArray
  | closeArray
  | openObject
  | closeObject
  | comma
  | colon

/-! ## Values without parts -/

/-- What is written without quotes: a word or a number. -/
def bare? (run : List Char) : Option Json :=
  match String.ofList run with
  | "null" => some .null
  | "true" => some (.bool true)
  | "false" => some (.bool false)
  | _ => number? run

/-- The first half of a surrogate pair. -/
def isHighHalf (unit : Nat) : Bool := 0xD800 ≤ unit && unit < 0xDC00

/-- The second half of a surrogate pair. -/
def isLowHalf (unit : Nat) : Bool := 0xDC00 ≤ unit && unit < 0xE000

/-- The characters of code units that are listed last first, in front of `text`. A
half without its other half is no character. -/
def joinUnits (text : List Char) : List Nat → Option (List Char)
  | [] => some text
  | [unit] => if isHighHalf unit || isLowHalf unit then none else some (Char.ofNat unit :: text)
  | unit :: before :: rest =>
    if isLowHalf unit then
      if isHighHalf before then
        let code := 0x10000 + 0x400 * (before - 0xD800) + (unit - 0xDC00)
        joinUnits (Char.ofNat code :: text) rest
      else none
    else if isHighHalf unit then none
    else joinUnits (Char.ofNat unit :: text) (before :: rest)

/-- The code unit of an escape of one letter. -/
def escape? (letter : Char) : Option Nat :=
  match letter with
  | '"' | '\\' | '/' => some letter.toNat
  | 'b' => some 0x08
  | 'f' => some 0x0C
  | 'n' => some 0x0A
  | 'r' => some 0x0D
  | 't' => some 0x09
  | _ => none

/-- The value of a hexadecimal digit of either case. -/
def hexDigit? (c : Char) : Option Nat :=
  if c.isDigit then some (c.toNat - '0'.toNat)
  else if 'A' ≤ c ∧ c ≤ 'F' then some (c.toNat - 'A'.toNat + 10)
  else if 'a' ≤ c ∧ c ≤ 'f' then some (c.toNat - 'a'.toNat + 10)
  else none

/-! ## The scan -/

/-- The token being read, its characters or units last first. -/
inductive Scan
  /-- None. -/
  | between
  /-- A word or a number. -/
  | bare (run : List Char)
  /-- A string. -/
  | quoted (units : List Nat)
  /-- A string, right after a backslash. -/
  | escape (units : List Nat)
  /-- A string, in an escape by code with so many digits left to come. -/
  | code (units : List Nat) (left value : Nat)

/-- Space that may stand between tokens. -/
def isBlank (c : Char) : Bool := c = ' ' || c = '\t' || c = '\n' || c = '\r'

/-- The characters of words and numbers. -/
def isBare (c : Char) : Bool := c.isAlphanum || c = '-' || c = '+' || c = '.'

/-- The token that a character is by itself. -/
def punctuation? (c : Char) : Option Token :=
  match c with
  | '[' => some .openArray
  | ']' => some .closeArray
  | '\x7b' => some .openObject
  | '\x7d' => some .closeObject
  | ',' => some .comma
  | ':' => some .colon
  | _ => none

/-- A character after the end of a token. The tokens so far are listed last first. -/
def start (tokens : List Token) (c : Char) : Option (List Token × Scan) :=
  if isBlank c then some (tokens, .between)
  else if c = '"' then some (tokens, .quoted [])
  else if isBare c then some (tokens, .bare [c])
  else (punctuation? c).map fun token => (token :: tokens, .between)

/-- One character more. -/
def scan : List Token × Scan → Char → Option (List Token × Scan)
  | (tokens, .between), c => start tokens c
  | (tokens, .bare run), c =>
    if isBare c then some (tokens, .bare (c :: run))
    else (bare? run.reverse).bind fun value => start (.leaf value :: tokens) c
  | (tokens, .quoted units), c =>
    if c = '"' then
      (joinUnits [] units).map fun text =>
        (.leaf (.string (String.ofList text)) :: tokens, .between)
    else if c = '\\' then some (tokens, .escape units)
    -- A control character has to be escaped.
    else if c < ' ' then none
    else some (tokens, .quoted (c.toNat :: units))
  | (tokens, .escape units), c =>
    if c = 'u' then some (tokens, .code units 4 0)
    else (escape? c).map fun unit => (tokens, .quoted (unit :: units))
  | (tokens, .code units left value), c =>
    (hexDigit? c).map fun digit =>
      let value := 16 * value + digit
      (tokens, if left ≤ 1 then .quoted (value :: units) else .code units (left - 1) value)

/-- The tokens of a text. A string has to be closed; a word or a number is ended by
the text's own end. -/
def tokens? (text : String) : Option (List Token) := do
  let (tokens, last) ← text.toList.foldlM scan ([], .between)
  match last with
  | .between => some tokens.reverse
  | .bare run => (bare? run.reverse).map fun value => (Token.leaf value :: tokens).reverse
  | _ => none

end Sim6809.Json
