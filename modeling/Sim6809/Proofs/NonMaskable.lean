/-
NMI: armed by a load of S, latched on an edge, and served once.

NMI passes three gates. Edges count only while it is armed; a counted edge is latched
until it is served; and what is latched is acted on from the next cycle on. The gates are
worked from many places, so everything here rests on one list of what can happen to the
inputs (`InputsChange`, `Occurs.inputsChange`): they are sampled by a bus cycle, cleared
by reset, acknowledged by serving NMI, driven from outside, or armed, and arming has a
list of its own (`LoadsStack`).

From the list follow the order of the gates (`Gated`), what arms and disarms, and that
between two servings of NMI an edge was sampled: serving one leaves the latch empty, and
only a sample fills it.
-/
import Sim6809.Proofs.Provenance

set_option autoImplicit false

namespace Sim6809

/-! ## What arms NMI -/

/-- The effect of the instruction loads the hardware stack pointer. -/
inductive EffectLoadsStack (c : Processor) : Prop
  | lds (op : c.instruction.op = .loadWord .s)
  | leas (op : c.instruction.op = .lea .s)
  | tfr (op : c.instruction.op = .tfr)
      (target : Transferable.ofCode (Word.low c.data) = some (.word .s))
  /-- Both registers of an exchange are written. -/
  | exg (op : c.instruction.op = .exg)
      (target : Transferable.ofCode (Word.low c.data) = some (.word .s) ∨
        Transferable.ofCode (Word.low c.data >>> 4) = some (.word .s))

theorem EffectLoadsStack.of_same {c d : Processor} (h : EffectLoadsStack c)
    (instruction : d.instruction = c.instruction) (data : d.data = c.data) :
    EffectLoadsStack d := by
  cases h with
  | lds op => exact .lds (by rw [instruction, op])
  | leas op => exact .leas (by rw [instruction, op])
  | tfr op target => exact .tfr (by rw [instruction, op]) (by rw [data]; exact target)
  | exg op target => exact .exg (by rw [instruction, op]) (by rw [data]; exact target)

/-- A load of the hardware stack pointer: by the effect of an instruction, or one byte
at a time by PULU with S in its list. -/
inductive LoadsStack (c : Processor) : Event → Prop
  | effect {m : Move} {rest : List MicroOp}
      (pending : c.schedule.pending = .action .operate :: rest) (loads : EffectLoadsStack c) :
      LoadsStack c (.move m)
  | pulu {part : Part} (byte : Byte) (due : c.due? = some (.pull .u part))
      (half : part = .high .s ∨ part = .low .s) (op : c.instruction.op = .pull .u)
      (listed : Word.low c.data &&& 0x40 ≠ 0) : LoadsStack c (.access byte)

/-- A word operation whose result would go to S. -/
def Operation.computesStack : Operation → Bool
  | .word op register => op.keepsResult && register == .s
  | _ => false

/-- There is none: word operations on S are compares. -/
theorem Instruction.computesStack_decode (page opcode : Byte) :
    (decode page opcode).op.computesStack = false :=
  decode_induction (P := fun i => i.op.computesStack = false)
    (by decide +kernel) (by decide +kernel) (by decide +kernel) page opcode

namespace Processor

theorem inputs_loadRegister_cases (c : Processor) (register : WordRegister) (value : Word) :
    (c.loadRegister register value).inputs = c.inputs ∨
      register = .s ∧ (c.loadRegister register value).inputs = c.inputs.armNmi := by
  by_cases s : register = .s
  · exact Or.inr ⟨s, if_pos s⟩
  · exact Or.inl (if_neg s)

theorem inputs_transfer_cases (c : Processor) (code : Byte) (value : Word) :
    (c.transfer code value).inputs = c.inputs ∨
      Transferable.ofCode code = some (.word .s) ∧
        (c.transfer code value).inputs = c.inputs.armNmi := by
  by_cases s : Transferable.ofCode code = some (.word .s)
  · exact Or.inr ⟨s, if_pos s⟩
  · exact Or.inl (if_neg s)

/-- An effect leaves the inputs alone, unless it loads S. -/
theorem inputs_effect_cases (c : Processor) (decoded : c.instruction.op.computesStack = false) :
    c.effect.inputs = c.inputs ∨ EffectLoadsStack c ∧ c.effect.inputs = c.inputs.armNmi := by
  unfold effect
  dsimp only
  split
  all_goals try exact Or.inl rfl
  -- word operations
  · next op register word =>
    rw [word] at decoded
    split
    · next keeps =>
      refine Or.inl (if_neg ?_)
      rintro rfl
      rw [Operation.computesStack, keeps] at decoded
      cases decoded
    · exact Or.inl rfl
  -- word loads
  · next register load =>
    rcases inputs_loadRegister_cases (c.setFlags (Arithmetic.passWord c.regs.cc c.data).cc) register
      (Arithmetic.passWord c.regs.cc c.data).value with same | ⟨rfl, armed⟩
    · exact Or.inl same
    · exact Or.inr ⟨.lds load, armed⟩
  -- branches
  · split <;> exact Or.inl rfl
  · split <;> exact Or.inl rfl
  -- address loads
  · next register lea =>
    split
    · exact Or.inl rfl
    · exact Or.inl rfl
    · rcases inputs_loadRegister_cases c register c.ea with same | ⟨rfl, armed⟩
      · exact Or.inl same
      · exact Or.inr ⟨.leas lea, armed⟩
  -- an exchange is two transfers
  · next exg =>
    have second := inputs_transfer_cases
      (c.transfer (Word.low c.data >>> 4) (c.regs.readCode (Word.low c.data)))
      (Word.low c.data) (c.regs.readCode (Word.low c.data >>> 4))
    rcases inputs_transfer_cases c (Word.low c.data >>> 4) (c.regs.readCode (Word.low c.data)) with
      same | ⟨high, armed⟩
    · rw [same] at second
      rcases second with same | ⟨low, armed⟩
      · exact Or.inl same
      · exact Or.inr ⟨.exg exg (Or.inl low), armed⟩
    · rw [armed] at second
      rcases second with same | ⟨_, again⟩
      · exact Or.inr ⟨.exg exg (Or.inr high), same⟩
      · exact Or.inr ⟨.exg exg (Or.inr high), again⟩
  · next tfr =>
    rcases inputs_transfer_cases c (Word.low c.data)
      (c.regs.readCode (Word.low c.data >>> 4)) with same | ⟨target, armed⟩
    · exact Or.inl same
    · exact Or.inr ⟨.tfr tfr target, armed⟩

/-- And an effect that loads S arms NMI. -/
theorem nmiArmed_effect (c : Processor) (loads : EffectLoadsStack c) :
    c.effect.inputs.nmiArmed = true := by
  have low : ∀ (d : Processor) (code : Byte) (value : Word),
      Transferable.ofCode code = some (.word .s) →
        (d.transfer code value).inputs.nmiArmed = true := by
    intro d code value target
    change (if Transferable.ofCode code = some (.word .s) then d.inputs.armNmi
      else d.inputs).nmiArmed = true
    rw [if_pos target]
    rfl
  have kept : ∀ (d : Processor) (code : Byte) (value : Word), d.inputs.nmiArmed = true →
      (d.transfer code value).inputs.nmiArmed = true := by
    intro d code value armed
    rcases inputs_transfer_cases d code value with same | ⟨_, again⟩
    · rw [same]
      exact armed
    · rw [again]
      rfl
  cases loads with
  | lds op =>
    simp only [effect, op]
    rfl
  | leas op =>
    simp only [effect, op]
    rfl
  | tfr op target =>
    simp only [effect, op]
    exact low _ _ _ target
  | exg op target =>
    simp only [effect, op]
    rcases target with second | first
    · exact low _ _ _ second
    · exact kept _ _ _ (low _ _ _ first)

end Processor

/-! ## What can happen to the inputs -/

/-- The ways in which the inputs of a processor change. -/
inductive InputsChange (c : Processor) : Event → Inputs → Prop
  | same (event : Event) (unseen : ∀ byte, event ≠ .access byte)
      (unreset : ∀ m, event = .move m → .notice .resetBegun ∉ m.reports) :
      InputsChange c event c.inputs
  | drive (levels : Levels) :
      InputsChange c (.call (.drive levels)) { c.inputs with live := levels }
  | arm {m : Move} (loads : LoadsStack c (.move m)) (unreset : .notice .resetBegun ∉ m.reports) :
      InputsChange c (.move m) c.inputs.armNmi
  | sample (byte : Byte) : InputsChange c (.access byte) c.inputs.cycle
  | sampleArm {byte : Byte} (loads : LoadsStack c (.access byte)) :
      InputsChange c (.access byte) c.inputs.cycle.armNmi
  | acknowledge (recognised : c.inputs.active.nmi = true) :
      InputsChange c (.move (c.serving .nmi)) c.inputs.acknowledgeNmi
  | clear {m : Move} (phase : c.phase = .reset) (reset : .notice .resetBegun ∈ m.reports) :
      InputsChange c (.move m) c.inputs.clear

theorem HardwareInterrupt.active_of_recognised_nmi {active : Levels} {cc : ConditionCodes}
    (recognised : HardwareInterrupt.recognised active cc = some .nmi) : active.nmi = true := by
  have eligible := List.find?_some recognised
  exact eligible

variable {c d : Processor} {allowed : HostCall → Prop} {event : Event}

theorem inputsChange_serving (interrupt : HardwareInterrupt)
    (recognised : HardwareInterrupt.recognised c.inputs.active c.regs.cc = some interrupt) :
    InputsChange c (.move (c.serving interrupt)) (c.serving interrupt).landed.inputs := by
  cases interrupt with
  | nmi => exact .acknowledge (HardwareInterrupt.active_of_recognised_nmi recognised)
  | firq | irq =>
    refine .same _ (fun _ same => nomatch same) ?_
    rintro m same
    cases same
    intro mem
    cases List.mem_singleton.1 mem

/-- A byte moves the inputs on, and arms NMI if it is pulled into S. -/
theorem inputsChange_carryOut {cycle : BusCycle} (h : Orderly c) (sourced : Sourced c)
    (due : c.due? = some cycle) (byte : Byte) :
    InputsChange c (.access byte) (c.carryOut cycle byte).inputs := by
  cases cycle with
  | fetchOpcode =>
    rw [Processor.inputs_carryOut_fetchOpcode]
    exact .sample byte
  | pull stack part =>
    by_cases half : part = .high .s ∨ part = .low .s
    · have armed : (c.carryOut (.pull stack part) byte).inputs = c.inputs.cycle.armNmi :=
        if_pos half
      rw [armed]
      obtain ⟨rest, pending⟩ := (Processor.due?_eq_some_iff h.consistent).1 due
      have odd : (MicroOp.cycle (.pull stack part)).ordinary = false := by
        rcases half with rfl | rfl <;> rfl
      cases sourced.remarkable h (by rw [pending]; exact List.mem_cons_self) odd with
      | fetch fetch _ => cases fetch
      | pull pull _ instruction listed =>
        cases pull
        exact .sampleArm (.pulu byte due half instruction listed)
      | enter enter _ _ => cases enter
    · have same : (c.carryOut (.pull stack part) byte).inputs = c.inputs.cycle := if_neg half
      rw [same]
      exact .sample byte
  | _ => exact .sample byte

theorem Occurs.inputsChange (occurs : Occurs allowed c event d) (h : Orderly c)
    (sourced : Sourced c) : InputsChange c event d.inputs := by
  have quiet : ∀ m : Move, .notice .resetBegun ∉ m.reports →
      InputsChange c (.move m) c.inputs := by
    intro m unreset
    refine .same _ (by rintro _ ⟨⟩) ?_
    intro other same
    cases same
    exact unreset
  cases event with
  | move m =>
    obtain ⟨happens, rfl⟩ := occurs.moveHappens h.consistent
    cases happens with
    | @act action rest pending =>
      cases action with
      | operate =>
        obtain ⟨page, opcode, decoded⟩ := h.decoded
        have census := Instruction.computesStack_decode page opcode
        rw [decoded] at census
        change InputsChange c _
          ({ c with schedule := c.schedule.advance } : Processor).effect.inputs
        rcases Processor.inputs_effect_cases { c with schedule := c.schedule.advance } census with
          same | ⟨loads, armed⟩
        · rw [same]
          exact quiet _ (by intro mem; cases mem)
        · rw [armed]
          exact .arm (.effect pending (loads.of_same rfl rfl)) (by intro mem; cases mem)
      | vector which =>
        exact quiet _ (by intro mem; cases List.mem_singleton.1 mem)
      | enter phase =>
        refine quiet _ ?_
        intro mem
        rcases List.mem_cons.1 mem with entry | retired
        · simp only [Notice.ofEntry, Report.notice.injEq] at entry
          split at entry <;> cases entry
        · cases List.mem_singleton.1 retired
      | _ => exact quiet _ (by intro mem; cases mem)
    | phase dry goes =>
      cases goes with
      | reset phase => exact .clear phase List.mem_cons_self
      | served phase recognised => exact inputsChange_serving _ recognised
      | release _ _ | retire _ => exact quiet _ (by intro mem; cases List.mem_singleton.1 mem)
      | boundary _ _ | asked _ _ | unasked _ _ | unserved _ _ =>
        exact quiet _ (by intro mem; cases mem)
    | wake dry phase free recognised => exact inputsChange_serving _ recognised
  | announce =>
    cases occurs
    rw [Processor.announce_eq]
    exact .same _ (by rintro _ ⟨⟩) (by rintro _ ⟨⟩)
  | access byte =>
    cases occurs with
    | @cycle cycle _ due _ => exact inputsChange_carryOut h sourced due byte
    | idle _ _ _ _ =>
      rw [Processor.idled_eq]
      exact .sample byte
  | call call =>
    cases occurs
    cases call with
    | drive levels => exact .drive levels
    | reset | setPc _ | registers _ =>
      exact .same _ (by rintro _ ⟨⟩) (by rintro _ ⟨⟩)

/-- A load of S arms NMI, whichever it is. -/
theorem LoadsStack.arms (loads : LoadsStack c event) (occurs : Occurs allowed c event d)
    (h : Orderly c) : d.inputs.nmiArmed = true := by
  cases loads with
  | effect pending loads =>
    obtain ⟨happens, rfl⟩ := occurs.moveHappens h.consistent
    cases happens with
    | act same =>
      rw [pending] at same
      cases same
      exact Processor.nmiArmed_effect { c with schedule := c.schedule.advance }
        (loads.of_same rfl rfl)
    | phase dry _ | wake dry _ _ _ =>
      rw [pending] at dry
      cases dry
  | pulu byte due half _ _ =>
    cases occurs with
    | cycle _ same _ =>
      rw [due] at same
      cases same
      change (if _ then _ else _ : Inputs).nmiArmed = true
      rw [if_pos half]
      rfl
    | idle _ _ _ none =>
      rw [due] at none
      cases none

/-! ## The gates -/

/-- Each gate is open only if the one before it is. -/
structure Inputs.Gated (i : Inputs) : Prop where
  acted : i.active.nmi = true → i.latched.nmi = true
  counted : i.latched.nmi = true → i.nmiArmed = true

theorem Inputs.Gated.cycle {i : Inputs} (h : i.Gated) : i.cycle.Gated where
  acted := fun latched => by
    have kept : i.latched.nmi = true := latched
    change (i.latched.nmi || _) = true
    rw [kept, Bool.true_or]
  counted := fun latched => by
    change i.nmiArmed = true
    rcases Bool.or_eq_true_iff.1 latched with kept | edge
    · exact h.counted kept
    · exact (Bool.and_eq_true_iff.1 edge).2

theorem Inputs.Gated.armNmi {i : Inputs} (h : i.Gated) : i.armNmi.Gated := ⟨h.acted, fun _ => rfl⟩

theorem Inputs.gated_of_empty {i : Inputs} (active : i.active.nmi = false)
    (latched : i.latched.nmi = false) : i.Gated where
  acted := fun holds => by rw [active] at holds; cases holds
  counted := fun holds => by rw [latched] at holds; cases holds

namespace InputsChange

variable {i : Inputs}

theorem gated (change : InputsChange c event i) (h : c.inputs.Gated) : i.Gated := by
  cases change with
  | same _ _ _ => exact h
  | drive _ => exact ⟨h.acted, h.counted⟩
  | arm _ _ => exact h.armNmi
  | sample _ => exact h.cycle
  | sampleArm _ => exact h.cycle.armNmi
  | acknowledge _ => exact Inputs.gated_of_empty rfl rfl
  | clear _ _ => exact Inputs.gated_of_empty rfl rfl

/-- Only loads of S arm NMI. -/
theorem arms (change : InputsChange c event i) (disarmed : c.inputs.nmiArmed = false)
    (armed : i.nmiArmed = true) : LoadsStack c event := by
  have other : c.inputs.nmiArmed ≠ true := by
    rw [disarmed]
    decide
  cases change with
  | arm loads _ => exact loads
  | sampleArm loads => exact loads
  | same _ _ _ | drive _ | sample _ | acknowledge _ => exact absurd armed other
  | clear _ _ => cases armed

/-- Only reset disarms it. -/
theorem disarms (change : InputsChange c event i) (armed : c.inputs.nmiArmed = true)
    (disarmed : i.nmiArmed = false) :
    c.phase = .reset ∧ ∃ m, event = .move m ∧ .notice .resetBegun ∈ m.reports := by
  have other : c.inputs.nmiArmed ≠ false := by
    rw [armed]
    decide
  cases change with
  | clear phase reset => exact ⟨phase, _, rfl, reset⟩
  | arm _ _ | sampleArm _ => cases disarmed
  | same _ _ _ | drive _ | sample _ | acknowledge _ => exact absurd disarmed other

end InputsChange

/-- A sample that sees NMI high after a low one, while edges count. -/
structure Occurrence.SeesEdge (o : Occurrence) : Prop where
  sample : ∃ byte, o.event = .access byte
  high : o.before.inputs.live.nmi = true
  low : o.before.inputs.nmiPrevious = false
  armed : o.before.inputs.nmiArmed = true

/-- Only an edge fills the latch. -/
theorem InputsChange.latches {i : Inputs} (change : InputsChange c event i)
    (empty : ¬c.inputs.latched.nmi = true) (full : i.latched.nmi = true) :
    (⟨c, event⟩ : Occurrence).SeesEdge := by
  have edge : c.inputs.cycle.latched.nmi = true →
      c.inputs.live.nmi = true ∧ c.inputs.nmiPrevious = false ∧ c.inputs.nmiArmed = true := by
    intro sampled
    rcases Bool.or_eq_true_iff.1 sampled with kept | edge
    · exact absurd kept empty
    · obtain ⟨rise, armed⟩ := Bool.and_eq_true_iff.1 edge
      obtain ⟨high, low⟩ := Bool.and_eq_true_iff.1 rise
      have before : (!c.inputs.nmiPrevious) = true := low
      exact ⟨high, by simpa using before, armed⟩
  cases change with
  | sample byte => exact ⟨⟨byte, rfl⟩, (edge full).1, (edge full).2.1, (edge full).2.2⟩
  | @sampleArm byte _ => exact ⟨⟨byte, rfl⟩, (edge full).1, (edge full).2.1, (edge full).2.2⟩
  | same _ _ _ | drive _ | arm _ _ => exact absurd full empty
  | acknowledge _ | clear _ _ => cases full

/-! ## Along a history -/

/-- The NMI level at the latest sample; a reset takes one, too. -/
def lastSample (past : List Occurrence) : Bool :=
  past.foldl (fun level o =>
    match o.event with
    | .access _ => o.before.inputs.live.nmi
    | .move m => if .notice .resetBegun ∈ m.reports then o.before.inputs.live.nmi else level
    | _ => level) false

/-- What holds of the inputs in a history. -/
theorem Path.gates {past : List Occurrence} (path : History allowed past c) :
    Orderly c ∧ Sourced c ∧ c.inputs.Gated :=
  path.preserves (P := fun c => Orderly c ∧ Sourced c ∧ c.inputs.Gated)
    (fun ⟨orderly, sourced, gated⟩ occurs =>
      ⟨occurs.orderly orderly, sourced.occurs orderly occurs,
        (occurs.inputsChange orderly sourced).gated gated⟩)
    ⟨Processor.orderly_powerOn, sourced_powerOn, Inputs.gated_of_empty rfl rfl⟩

theorem Path.nmiPrevious {past : List Occurrence} (path : History allowed past c) :
    c.inputs.nmiPrevious = lastSample past := by
  induction path with
  | here => rfl
  | @on past d e event before occurs ih =>
    obtain ⟨orderly, sourced, _⟩ := before.gates
    rw [lastSample, List.foldl_append, ← lastSample, ← ih, List.foldl_cons, List.foldl_nil]
    have change := occurs.inputsChange orderly sourced
    generalize e.inputs = after at change
    cases change with
    | same _ unseen unreset =>
      cases event with
      | access byte => exact absurd rfl (unseen byte)
      | move m => exact (if_neg (unreset m rfl)).symm
      | announce | call _ => rfl
    | drive levels => rfl
    | arm _ unreset => exact (if_neg unreset).symm
    | sample _ | sampleArm _ => rfl
    | acknowledge _ => exact (if_neg (by intro mem; cases List.mem_singleton.1 mem)).symm
    | clear _ reset => exact (if_pos reset).symm

/-- Once NMI is served, its latch is empty. -/
theorem latched_serving_nmi (c : Processor) : (c.serving .nmi).landed.inputs.latched.nmi = false :=
  rfl

/-- NMI is served only from a full latch. -/
theorem Occurs.latched_of_takes (occurs : Occurs allowed c event d) (h : Orderly c)
    (sourced : Sourced c) (gated : c.inputs.Gated) (takes : (⟨c, event⟩ : Occurrence).Takes .nmi) :
    c.inputs.latched.nmi = true ∧ d.inputs.latched.nmi = false := by
  rcases occurs.takes h.consistent takes with
    ⟨rest, pending⟩ | ⟨interrupt, vector, _, _, recognised, _, rfl⟩
  · exact absurd rfl
      (sourced.ne_hardware h (by rw [pending]; exact List.mem_cons_self) .nmi)
  · cases interrupt with
    | nmi =>
      exact ⟨gated.acted (HardwareInterrupt.active_of_recognised_nmi recognised),
        latched_serving_nmi c⟩
    | firq | irq => cases vector

/-- Between two servings of NMI an edge is sampled. -/
theorem Path.edge_between {past front mid back : List Occurrence} {first second : Occurrence}
    (path : History allowed past c) (split : past = front ++ first :: mid ++ second :: back)
    (once : first.Takes .nmi) (twice : second.Takes .nmi) :
    ∃ early o late, mid = early ++ o :: late ∧ o.SeesEdge ∧
      o.before.inputs.nmiPrevious = lastSample (front ++ first :: early) := by
  rw [split] at path
  obtain ⟨toSecond, _, second', _⟩ := path.split
  obtain ⟨toFirst, e, first', between⟩ := toSecond.split
  obtain ⟨orderly, sourced, gated⟩ := toFirst.gates
  obtain ⟨orderly', sourced', gated'⟩ := toSecond.gates
  have empty := (first'.latched_of_takes orderly sourced gated once).2
  have full := (second'.latched_of_takes orderly' sourced' gated' twice).1
  obtain ⟨early, o, late, f, rfl, toEdge, still, occurs, filled⟩ :=
    between.turns (P := fun d => d.inputs.latched.nmi = true) (by rw [empty]; decide) full
  have whole : History allowed (front ++ first :: early) o.before := by
    rw [← List.singleton_append, ← List.append_assoc]
    exact (Path.on toFirst first').trans toEdge
  obtain ⟨orderly'', sourced'', _⟩ := whole.gates
  exact ⟨early, o, late, rfl, (occurs.inputsChange orderly'' sourced'').latches still filled,
    whole.nmiPrevious⟩

/-- **NMI is served once per armed edge.** In every reachable state, and at every time
within a clock, what is acted on was latched, and what is latched was counted while NMI
was armed; so while it is disarmed no frame is begun for it and its vector is not taken.
Only a load of S arms it, and only reset disarms it. Between any two servings there is a
sample that saw the level high after the sample before it had seen it low. -/
theorem nmi_served_once_per_armed_edge :
    (∀ c, Reachable anyCall c → c.inputs.Gated ∧ ∃ past, History anyCall past c) ∧
      ∀ past c, History anyCall past c →
        c.inputs.Gated ∧ c.inputs.nmiPrevious = lastSample past ∧
          (∀ event d, Occurs anyCall c event d →
            (c.inputs.nmiArmed = false → ¬(⟨c, event⟩ : Occurrence).Begins .nmi ∧
              ¬(⟨c, event⟩ : Occurrence).Takes .nmi) ∧
            (c.inputs.nmiArmed = false → (d.inputs.nmiArmed = true ↔ LoadsStack c event)) ∧
            (c.inputs.nmiArmed = true → d.inputs.nmiArmed = false →
              c.phase = .reset ∧ ∃ m, event = .move m ∧ .notice .resetBegun ∈ m.reports)) ∧
          ∀ front first mid second back, past = front ++ first :: mid ++ second :: back →
            first.Takes .nmi → second.Takes .nmi →
              ∃ early o late, mid = early ++ o :: late ∧ o.SeesEdge ∧
                o.before.inputs.nmiPrevious = lastSample (front ++ first :: early) := by
  refine ⟨?_, ?_⟩
  · intro c reachable
    obtain ⟨past, path⟩ := reachable.history
    exact ⟨path.gates.2.2, past, path⟩
  · intro past c path
    obtain ⟨orderly, sourced, gated⟩ := path.gates
    refine ⟨gated, path.nmiPrevious, ?_, fun _ _ _ _ _ => path.edge_between⟩
    intro event d occurs
    have change := occurs.inputsChange orderly sourced
    have inactive : c.inputs.nmiArmed = false → ¬c.inputs.latched.nmi = true := by
      intro disarmed latched
      rw [gated.counted latched] at disarmed
      cases disarmed
    refine ⟨fun disarmed => ⟨?_, ?_⟩, fun disarmed => ⟨change.arms disarmed, ?_⟩, change.disarms⟩
    · intro begins
      exact inactive disarmed
        (gated.acted (HardwareInterrupt.active_of_recognised_nmi begins.recognised))
    · intro takes
      exact inactive disarmed (occurs.latched_of_takes orderly sourced gated takes).1
    · exact fun loads => loads.arms occurs orderly

/-- Two pulses on NMI, the second one while the handler of the first is running. -/
theorem nmi_served_once_per_armed_edge_twice :
    ∃ past c front first mid second back, History anyCall past c ∧
      past = front ++ first :: mid ++ second :: back ∧ first.Takes .nmi ∧ second.Takes .nmi ∧
        ∃ early o late, mid = early ++ o :: late ∧ o.SeesEdge := by
  let pulse : List Levels := [{ Levels.low with nmi := true }]
  let lines := List.replicate 10 .low ++ pulse ++ List.replicate 22 .low ++ pulse ++
    List.replicate 22 .low
  have log : (Board.clocks .logging lines waitingBoard).notes =
      [.resetBegun, .resetReleased] ++ .vectorTaken .nmi 0x1006 ::
        ([] ++ .vectorTaken .nmi 0x1006 :: []) := by decide +kernel
  have drives : ∀ levels, anyCall (.drive levels) := fun _ => trivial
  obtain ⟨past, happened⟩ := Board.past_clocks .logging drives lines waitingBoard
    Processor.orderly_powerOn.consistent
  have path := happened.path
  have noted := happened.notes_logging Processor.orderly_powerOn.consistent
  rw [log] at noted
  obtain ⟨front, first, rest, rfl, taken, more⟩ := exists_of_noted noted.symm
  obtain ⟨mid, second, back, rfl, again, _⟩ := exists_of_noted more
  have split : front ++ first :: (mid ++ second :: back) =
      front ++ first :: mid ++ second :: back := by
    rw [List.append_assoc, List.cons_append]
  have once := Occurrence.takes_of_notice? taken
  have twice := Occurrence.takes_of_notice? again
  obtain ⟨early, o, late, same, edge, _⟩ :=
    (nmi_served_once_per_armed_edge.2 _ _ path).2.2.2 front first mid second back split once twice
  exact ⟨_, _, front, first, mid, second, back, path, split, once, twice, early, o, late, same,
    edge⟩

end Sim6809
