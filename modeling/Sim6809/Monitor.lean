/-
Instrumentation: hooks that are called while the processor runs, and the log.

A hook sees what happens and keeps notes in a state of its own. It never drives
the bus and never writes a register. Only the instruction hook has a say, in that
it can hold the processor before a fetch; the others have nothing to answer. A
hook that is not installed is not called.
-/
import Sim6809.Access
import Sim6809.Report

set_option autoImplicit false

namespace Sim6809

/-- The instruction hook's answer. -/
inductive Verdict
  /-- Fetch the instruction. -/
  | proceed
  /-- Return before the fetch. The same fetch is not announced again. -/
  | hold
deriving DecidableEq

/-- The hooks installed, with notes of type `σ`. -/
structure Hooks (σ : Type) where
  /-- Before the first opcode byte of an instruction. -/
  instruction : Option (RegisterFile → σ → Verdict × σ)
  /-- After an instruction. -/
  retired : Option (RegisterFile → σ → σ)
  /-- After an operand was read, with its address and value. -/
  read : Option (Word → Byte → σ → σ)
  /-- After an operand was written. -/
  write : Option (Word → Byte → σ → σ)

namespace Hooks

variable {σ : Type}

/-- No hook. -/
def none : Hooks σ := ⟨.none, .none, .none, .none⟩

/-- Which hooks are installed, as one line. -/
def summary (hooks : Hooks σ) : String :=
  let field (name : String) (installed : Bool) := name ++ ": " ++ toString installed
  "Hooks \x7b " ++
    ", ".intercalate
      [field "instruction" hooks.instruction.isSome, field "posthook" hooks.retired.isSome,
        field "read" hooks.read.isSome, field "write" hooks.write.isSome] ++
    " \x7d"

end Hooks

/-- Hooks and a log, which share their notes. -/
structure Monitor (σ : Type) where
  hooks : Hooks σ
  log : Notice → σ → σ

namespace Monitor

variable {σ : Type}

/-- Nobody listens. -/
def silent : Monitor σ := ⟨.none, fun _ notes => notes⟩

/-- Asks the instruction hook. Without one, the processor goes on. -/
def ask (m : Monitor σ) (regs : RegisterFile) (notes : σ) : Verdict × σ :=
  match m.hooks.instruction with
  | some hook => hook regs notes
  | none => (.proceed, notes)

/-- Passes on one report. -/
def hear (m : Monitor σ) (notes : σ) : Report → σ
  | .notice notice => m.log notice notes
  | .retired regs =>
    match m.hooks.retired with
    | some hook => hook regs notes
    | none => notes

/-- Passes on reports in order. -/
def hearAll (m : Monitor σ) (notes : σ) (reports : List Report) : σ :=
  reports.foldl m.hear notes

/-- Passes on an operand's access. -/
def watch (m : Monitor σ) (access : Access) (byte : Byte) (notes : σ) : σ :=
  match access with
  | .read address =>
    match m.hooks.read with
    | some hook => hook address byte notes
    | none => notes
  | .write address value =>
    match m.hooks.write with
    | some hook => hook address value notes
    | none => notes

end Monitor

end Sim6809
