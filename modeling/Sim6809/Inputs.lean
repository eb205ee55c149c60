/-
The interrupt and halt inputs, and the two stages each passes before the processor
acts on it.

A level is driven from outside at any time. At the end of every bus cycle it is
sampled into a latch, and at the start of the next cycle the latch is copied to
the stage that decisions are made on, so a change between two cycles is acted on
one full cycle later. HALT, FIRQ and IRQ follow their levels. NMI is an edge: its
latch is set only by a sample that is high after one that was low, and only once
the stack pointer has been loaded, and then stays set until the interrupt is
taken.
-/

set_option autoImplicit false

namespace Sim6809

/-- One level for each input. -/
structure Levels where
  halt : Bool
  nmi : Bool
  firq : Bool
  irq : Bool
deriving DecidableEq

namespace Levels

/-- Every input released. -/
def low : Levels := ⟨false, false, false, false⟩

/-- Some interrupt is asserted; HALT is not one. -/
def interrupting (l : Levels) : Bool := l.nmi || l.firq || l.irq

end Levels

/-- The inputs with both of their stages. -/
structure Inputs where
  /-- Levels as driven from outside. -/
  live : Levels
  /-- Sampled at the end of the last bus cycle. -/
  latched : Levels
  /-- What the processor acts on during the current cycle. -/
  active : Levels
  /-- NMI edges count: the stack pointer has been loaded. -/
  nmiArmed : Bool
  /-- The NMI level of the last sample. -/
  nmiPrevious : Bool
deriving DecidableEq

namespace Inputs

/-- Nothing asserted, nothing sampled, NMI disarmed. -/
def released : Inputs := ⟨.low, .low, .low, false, false⟩

/-- Start of a bus cycle: what was latched becomes what is acted on. -/
def activate (i : Inputs) : Inputs := { i with active := i.latched }

/-- End of a bus cycle: the live levels are latched, NMI only on a rising edge
while armed. -/
def latch (i : Inputs) : Inputs :=
  let edge := i.live.nmi && !i.nmiPrevious && i.nmiArmed
  { i with
    latched := { i.live with nmi := i.latched.nmi || edge }
    nmiPrevious := i.live.nmi }

/-- One whole bus cycle. The access itself lies between the two halves and depends
on neither. -/
def cycle (i : Inputs) : Inputs := i.activate.latch

/-- Forgets every sampled interrupt and disarms NMI, as reset does. The live levels
are outside the processor and stay; HALT keeps following its level, so a processor
held in reset stays held. -/
def clear (i : Inputs) : Inputs :=
  let held := { Levels.low with halt := i.live.halt }
  { i with latched := held, active := held, nmiArmed := false, nmiPrevious := i.live.nmi }

/-- Drops a taken NMI, so that one edge is served once. -/
def acknowledgeNmi (i : Inputs) : Inputs :=
  { i with
    latched := { i.latched with nmi := false }
    active := { i.active with nmi := false } }

/-- Lets NMI edges count from now on. -/
def armNmi (i : Inputs) : Inputs := { i with nmiArmed := true }

/-! ## Driving the levels -/

def setHalt (i : Inputs) (level : Bool) : Inputs :=
  { i with live := { i.live with halt := level } }

def setNmi (i : Inputs) (level : Bool) : Inputs :=
  { i with live := { i.live with nmi := level } }

def setFirq (i : Inputs) (level : Bool) : Inputs :=
  { i with live := { i.live with firq := level } }

def setIrq (i : Inputs) (level : Bool) : Inputs :=
  { i with live := { i.live with irq := level } }

end Inputs

end Sim6809
