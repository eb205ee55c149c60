/-
Indexed addressing: what a postbyte means.

```text
0RRnnnnn          n,R     five-bit signed offset
1RRI0000          ,R+     (no indirect form)
1RRI0001          ,R++
1RRI0010          ,-R     (no indirect form)
1RRI0011          ,--R
1RRI0100          ,R
1RRI0101          B,R
1RRI0110          A,R     (0111 is an undocumented duplicate)
1RRI1000          n8,R
1RRI1001          n16,R
1RRI1010          undocumented: PC | $FF
1RRI1011          D,R
1RRI1100          n8,PCR
1RRI1101          n16,PCR
1RRI1110          undocumented: $FFFF
1RRI1111          [n16]
```

`RR` picks X, Y, U or S, and `I` adds the fetch of a pointer from the address
computed. The chip decodes `I` in every form whose top bit is set, so the two
forms without an indirect variant have one all the same, and the undocumented
forms take the cycles of their neighbours.

Forms that need registers only give their address at once. The others fetch offset
bytes first and form the address in an action, so their cycle list contains it.
-/
import Sim6809.MicroOp

set_option autoImplicit false

namespace Sim6809

/-- How an indexed address is formed. -/
inductive IndexForm
  /-- A signed offset in the low five bits of the postbyte. -/
  | shortOffset
  /-- The register, which then grows by one. -/
  | postIncrement1
  /-- The register, which then grows by two. -/
  | postIncrement2
  /-- The register after it shrinks by one. -/
  | preDecrement1
  /-- The register after it shrinks by two. -/
  | preDecrement2
  | plain
  | accumulatorA
  | accumulatorB
  | accumulatorD
  | offset8
  | offset16
  | pcOffset8
  | pcOffset16
  /-- Undocumented: the last byte of the page PC is in. -/
  | pageTop
  /-- Undocumented: all address lines high. -/
  | allOnes
  /-- The next word. -/
  | absolute
deriving DecidableEq

namespace IndexForm

/-- The form a postbyte selects. -/
def ofPostbyte (postbyte : Byte) : IndexForm :=
  if postbyte < 0x80 then shortOffset
  else
    match postbyte &&& 0x0F with
    | 0x0 => postIncrement1
    | 0x1 => postIncrement2
    | 0x2 => preDecrement1
    | 0x3 => preDecrement2
    | 0x4 => plain
    | 0x5 => accumulatorB
    | 0x6 | 0x7 => accumulatorA
    | 0x8 => offset8
    | 0x9 => offset16
    | 0xA => pageTop
    | 0xB => accumulatorD
    | 0xC => pcOffset8
    | 0xD => pcOffset16
    | 0xE => allOnes
    | _ => absolute

/-- Whether a postbyte asks for the pointer at the address instead of the address. -/
def isIndirect (postbyte : Byte) : Bool := postbyte &&& 0x90 == 0x90

/-- The address of a form that needs no offset bytes. PC is the address after the
postbyte. -/
def address? (form : IndexForm) (postbyte : Byte) (r : RegisterFile) : Option Word :=
  let base := r.index (.ofPostbyte postbyte)
  match form with
  | shortOffset => some (base + Word.signExtend5 postbyte)
  | postIncrement1 | postIncrement2 | plain => some base
  | preDecrement1 => some (base - 1)
  | preDecrement2 => some (base - 2)
  | accumulatorA => some (base + Word.signExtend r.a)
  | accumulatorB => some (base + Word.signExtend r.b)
  | accumulatorD => some (base + r.d)
  | pageTop => some (r.pc ||| 0x00FF)
  | allOnes => some 0xFFFF
  | offset8 | offset16 | pcOffset8 | pcOffset16 | absolute => none

/-- What a form adds to its register. -/
def step : IndexForm → Word
  | postIncrement1 => 1
  | postIncrement2 => 2
  | preDecrement1 => 0 - 1
  | preDecrement2 => 0 - 2
  | _ => 0

/-- The bus cycles that form the address, after the postbyte was read. -/
def cycles : IndexForm → List MicroOp
  | shortOffset | accumulatorA | accumulatorB => [.cycle .peekPc, .cycle .dummy]
  | postIncrement1 | preDecrement1 => [.cycle .peekPc, .cycle .dummy, .cycle .dummy]
  | postIncrement2 | preDecrement2 | pageTop | allOnes =>
    [.cycle .peekPc, .cycle .dummy, .cycle .dummy, .cycle .dummy]
  | plain => [.cycle .peekPc]
  -- The two bytes that follow are read, though the form has no use for them.
  | accumulatorD =>
    [.cycle .peekPc, .cycle .peekPcNext, .cycle .dummy, .cycle .dummy, .cycle .dummy]
  | offset8 => [.cycle .fetchOperand, .action .indexOffset8, .cycle .dummy]
  | offset16 =>
    [.cycle .fetchOperand, .cycle .fetchOperand, .action .indexOffset16,
      .cycle .dummy, .cycle .dummy, .cycle .dummy]
  | pcOffset8 => [.cycle .fetchOperand, .action .pcOffset8, .cycle .dummy]
  | pcOffset16 =>
    [.cycle .fetchOperand, .cycle .fetchOperand, .action .pcOffset16, .cycle .peekPc,
      .cycle .dummy, .cycle .dummy, .cycle .dummy]
  -- The address bytes go to the address register at once, and no action is needed.
  | absolute => [.cycle .fetchAddress, .cycle .fetchAddress, .cycle .dummy]

/-- The bus cycles that follow a pointer to the address it holds. -/
def indirection : List MicroOp :=
  [.cycle (.readPointer 0), .cycle (.readPointer 1), .action .indirect, .cycle .dummy]

/-- All cycles between the postbyte and the instruction's own. -/
def program (postbyte : Byte) : List MicroOp :=
  (ofPostbyte postbyte).cycles ++ if isIndirect postbyte then indirection else []

end IndexForm

end Sim6809
