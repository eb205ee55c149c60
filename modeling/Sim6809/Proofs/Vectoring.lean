/-
The fetch of a vector: what happens between serving an interrupt and the first
instruction of its handler.

Four accesses follow, whatever the lines do: an idle one, the two bytes of the
handler's address, and an idle one after the jump. Each stage is a constructor of
`Vectoring`, with the transfers made since the vector was taken, so that the bytes read
are there when PC gets them. `Vectoring.occurs` is the step and `Path.vectoring` the run;
the last stage lasts until a fifth access is made.
-/
import Sim6809.Proofs.Stacking

set_option autoImplicit false

namespace Sim6809

variable {c d : Processor} {event : Event} {allowed : HostCall → Prop}

/-! ## Stage by stage -/

/-- How far the fetch of a vector has come, with the transfers since it was taken. The
registers are `r` up to the jump. -/
inductive Vectoring (which : InterruptVector) (r : RegisterFile) :
    List Transfer → Processor → Prop
  | taken {c : Processor} (pending : c.schedule.pending = .cycle .dummy :: vectorFetch)
      (ea : c.ea = which.address) (regs : c.regs = r) (phase : c.phase = .boundary) :
      Vectoring which r [] c
  | high {c : Processor} {first : Byte} (pending : c.schedule.pending = vectorFetch)
      (ea : c.ea = which.address) (regs : c.regs = r) (phase : c.phase = .boundary) :
      Vectoring which r [⟨.idle, first⟩] c
  | low {c : Processor} {first high : Byte} (pending : c.schedule.pending = vectorFetch.tail)
      (data : Word.low c.data = high)
      (ea : c.ea = which.address) (regs : c.regs = r) (phase : c.phase = .boundary) :
      Vectoring which r [⟨.idle, first⟩, ⟨.read which.address, high⟩] c
  | jump {c : Processor} {first high low : Byte}
      (pending : c.schedule.pending = [.action .jump, .cycle .dummy])
      (data : c.data = Word.ofBytes high low) (regs : c.regs = r) (phase : c.phase = .boundary) :
      Vectoring which r [⟨.idle, first⟩, ⟨.read which.address, high⟩,
        ⟨.read (which.address + 1), low⟩] c
  | last {c : Processor} {first high low : Byte} (pending : c.schedule.pending = [.cycle .dummy])
      (regs : c.regs = { r with pc := Word.ofBytes high low }) (phase : c.phase = .boundary) :
      Vectoring which r [⟨.idle, first⟩, ⟨.read which.address, high⟩,
        ⟨.read (which.address + 1), low⟩] c
  | handler {c : Processor} {first high low last : Byte}
      (rest : c.schedule.pending = [] ∧ (c.phase = .boundary ∨ c.phase = .arbitration) ∨
        ∃ cycle rest, c.schedule.pending = .cycle cycle :: rest)
      (regs : c.regs = { r with pc := Word.ofBytes high low }) :
      Vectoring which r [⟨.idle, first⟩, ⟨.read which.address, high⟩,
        ⟨.read (which.address + 1), low⟩, ⟨.idle, last⟩] c

namespace Vectoring

variable {which : InterruptVector} {r : RegisterFile} {done : List Transfer}

/-- Only some of the state matters. -/
theorem of_same (h : Vectoring which r done c) (schedule : d.schedule = c.schedule)
    (ea : d.ea = c.ea) (data : d.data = c.data) (regs : d.regs = c.regs)
    (phase : d.phase = c.phase) : Vectoring which r done d := by
  have pending := congrArg Schedule.pending schedule
  cases h with
  | taken next address same at_ =>
    exact .taken (pending.trans next) (ea.trans address) (regs.trans same) (phase.trans at_)
  | high next address same at_ =>
    exact .high (pending.trans next) (ea.trans address) (regs.trans same) (phase.trans at_)
  | low next read address same at_ =>
    exact .low (pending.trans next) (by rw [data, read]) (ea.trans address) (regs.trans same)
      (phase.trans at_)
  | jump next read same at_ =>
    exact .jump (pending.trans next) (data.trans read) (regs.trans same) (phase.trans at_)
  | last next same at_ => exact .last (pending.trans next) (regs.trans same) (phase.trans at_)
  | handler rest same =>
    refine .handler ?_ (regs.trans same)
    rw [pending, phase]
    exact rest

/-- With nothing pending the handler is next. -/
theorem handler_of_dry (h : Vectoring which r done c) (dry : c.schedule.pending = []) :
    done.length = 4 ∧ (c.phase = .boundary ∨ c.phase = .arbitration) ∧
      ∀ d : Processor, d.regs = c.regs →
        (d.schedule.pending = [] ∧ (d.phase = .boundary ∨ d.phase = .arbitration) ∨
          ∃ cycle rest, d.schedule.pending = .cycle cycle :: rest) → Vectoring which r done d := by
  cases h with
  | handler rest regs =>
    refine ⟨rfl, ?_, fun d same next => .handler next (same.trans regs)⟩
    rcases rest with ⟨_, phase⟩ | ⟨_, _, pending⟩
    · exact phase
    · rw [dry] at pending
      cases pending
  | taken pending | high pending | low pending | jump pending | last pending =>
    rw [dry] at pending
    cases pending

/-- After four transfers PC is the word that was read. -/
theorem of_length (h : Vectoring which r done c) (four : done.length = 4) :
    ∃ first high low last,
      done = [⟨.idle, first⟩, ⟨.read which.address, high⟩, ⟨.read (which.address + 1), low⟩,
        ⟨.idle, last⟩] ∧
      c.regs = { r with pc := Word.ofBytes high low } := by
  cases h with
  | handler _ regs => exact ⟨_, _, _, _, rfl, regs⟩
  | taken _ _ _ _ | high _ _ _ _ | low _ _ _ _ _ | jump _ _ _ _ | last _ _ _ => cases four

/-- The only action is the jump. -/
theorem act (h : Vectoring which r done c) {action : Action} {rest : List MicroOp}
    (next : c.schedule.pending = .action action :: rest) :
    action = .jump ∧
      ∀ d : Processor, d.schedule.pending = rest → d.regs = { c.regs with pc := c.data } →
        d.phase = c.phase → Vectoring which r done d := by
  cases h with
  | jump pending data regs phase =>
    rw [pending] at next
    cases next
    refine ⟨rfl, fun d used jumped same => .last used ?_ (same.trans phase)⟩
    rw [jumped, regs, data]
  | handler rest _ =>
    rcases rest with ⟨dry, _⟩ | ⟨_, _, pending⟩
    · rw [dry] at next
      cases next
    · rw [pending] at next
      cases next
  | taken pending | high pending | low pending | last pending =>
    rw [pending] at next
    cases next

/-- A bus cycle leads to the next stage; a fifth access ends the last one. -/
theorem carryOut (h : Vectoring which r done c) (orderly : Orderly c) {cycle : BusCycle}
    (due : c.due? = some cycle) (byte : Byte) :
    Vectoring which r (done ++ [⟨c.access, byte⟩]) (c.carryOut cycle byte) ∨
      4 < (done ++ [(⟨c.access, byte⟩ : Transfer)]).length := by
  obtain ⟨rest, next⟩ := (Processor.due?_eq_some_iff orderly.consistent).1 due
  have access : c.access = cycle.access c := by rw [Processor.access, due]
  have landed := Processor.pending_carryOut orderly due byte
  rw [access]
  cases h with
  | taken pending ea regs phase =>
    rw [pending] at next landed
    cases next
    exact Or.inl (.high landed ea regs phase)
  | high pending ea regs phase =>
    rw [pending] at next landed
    cases next
    have address : BusCycle.access c (.readPointer 0) = .read which.address := by
      rw [BusCycle.access, ea]
      exact congrArg Access.read (UInt16.add_zero _)
    rw [address]
    exact Or.inl (.low landed (Word.low_shiftIn c.data byte) ea regs phase)
  | low pending data ea regs phase =>
    rw [pending] at next landed
    cases next
    have address : BusCycle.access c (.readPointer 1) = .read (which.address + 1) := by
      rw [BusCycle.access, ea]
      rfl
    rw [address]
    refine Or.inl (.jump landed ?_ regs phase)
    rw [← data]
    rfl
  | jump pending _ _ _ =>
    rw [pending] at next
    cases next
  | last pending regs phase =>
    rw [pending] at next landed
    cases next
    exact Or.inl (.handler (Or.inl ⟨landed, Or.inl phase⟩) regs)
  | handler _ _ => exact Or.inr (Nat.lt_succ_self 4)

/-- The stages go on one by one, and no vector is taken meanwhile. -/
theorem occurs (h : Vectoring which r done c) (orderly : Orderly c)
    (occurs : Occurs allowed c event d) (drives : event.CallsOnlyDrive) :
    (Vectoring which r (done ++ transfers [⟨c, event⟩]) d ∨
        4 < (done ++ transfers [⟨c, event⟩]).length) ∧
      (⟨c, event⟩ : Occurrence).Quiet := by
  have still : done ++ [] = done := List.append_nil done
  refine ⟨?_, ?_⟩
  · cases event with
    | call call =>
      obtain ⟨levels, rfl⟩ := drives call rfl
      cases occurs
      rw [show transfers [⟨c, .call (.drive levels)⟩] = [] from rfl, still]
      exact Or.inl (h.of_same rfl rfl rfl rfl rfl)
    | announce =>
      cases occurs
      rw [show transfers [⟨c, .announce⟩] = [] from rfl, still]
      refine Or.inl (h.of_same (Processor.schedule_announce c) ?_ ?_ ?_ ?_)
      all_goals rw [Processor.announce_eq]
    | access byte =>
      cases occurs with
      | cycle _ due _ => exact h.carryOut orderly due byte
      | idle _ rest _ idle =>
        have dry := Processor.pending_of_idle orderly.consistent rest idle
        have four := (h.handler_of_dry dry).1
        refine Or.inr ?_
        rw [List.length_append, four]
        exact Nat.lt_succ_self 4
    | move m =>
      have landed := occurs.pending_landed orderly
      obtain ⟨happens, rfl⟩ := occurs.moveHappens orderly.consistent
      rw [show transfers [⟨c, .move m⟩] = [] from rfl, still]
      cases happens with
      | act pending =>
        obtain ⟨rfl, on⟩ := h.act pending
        rw [pending] at landed
        exact Or.inl (on _ (landed.trans (List.append_nil _)) rfl rfl)
      | wake dry phase _ _ =>
        rcases (h.handler_of_dry dry).2.1 with other | other
        all_goals
          rw [phase] at other
          cases other
      | phase dry goes =>
        obtain ⟨_, here, on⟩ := h.handler_of_dry dry
        rw [dry, List.tail_nil, List.nil_append] at landed
        cases goes with
        | boundary _ _ => exact Or.inl (on _ rfl (Or.inl ⟨landed, Or.inr rfl⟩))
        | asked _ _ | unasked _ _ => exact Or.inl (on _ rfl (Or.inr ⟨_, _, landed⟩))
        | reset phase | release phase _ | retire phase | served phase _ | unserved phase _ =>
          rw [phase] at here
          rcases here with other | other <;> cases other
  · intro which takes
    rcases occurs.takes orderly.consistent takes with ⟨rest, pending⟩ | ⟨_, _, dry, waits, _⟩
    · cases (h.act pending).1
    · rcases (h.handler_of_dry dry).2.1 with here | here
      all_goals
        rw [here] at waits
        rcases waits with other | other <;> cases other

end Vectoring

/-- The fetch of a vector begins when an interrupt is served. -/
theorem Occurs.vectoring_of_serves (occurs : Occurs allowed c event d) (orderly : Orderly c)
    {interrupt : HardwareInterrupt} (serves : (⟨c, event⟩ : Occurrence).Serves interrupt) :
    Vectoring interrupt.vector
      { c.regs with cc := c.regs.cc.raise interrupt.vector.mask } [] d := by
  obtain rfl : event = .move (c.serving interrupt) := serves.event
  have dry : c.schedule.pending = [] := serves.dry
  have landed := occurs.pending_landed orderly
  obtain ⟨_, rfl⟩ := occurs.moveHappens orderly.consistent
  rw [dry] at landed
  cases interrupt <;> exact .taken landed rfl rfl rfl

/-- **A vector is fetched in four accesses.** Whatever the lines do, up to the fifth access
the fetch has come as far as the transfers say, and no other vector is taken. -/
theorem Path.vectoring {which : InterruptVector} {r : RegisterFile} {later : List Occurrence}
    {e : Processor} (path : Path allowed d later e)
    (drives : ∀ o ∈ later, o.event.CallsOnlyDrive) (orderly : Orderly d)
    (start : Vectoring which r [] d) (few : (accesses later).length ≤ 4) :
    Vectoring which r (transfers later) e ∧ ∀ o ∈ later, o.Quiet := by
  induction path with
  | here => exact ⟨start, fun _ mem => nomatch mem⟩
  | @on later e f event before occurs ih =>
    have shorter : (accesses later).length ≤ 4 := by
      rw [accesses_append, List.length_append] at few
      omega
    obtain ⟨at_, quiet⟩ := ih (fun o mem => drives o (List.mem_append_left _ mem)) shorter
    have calls := drives _ (List.mem_append_right later List.mem_cons_self)
    obtain ⟨next, last⟩ := at_.occurs (before.orderly orderly) occurs calls
    rw [← transfers_append] at next
    refine ⟨next.resolve_right ?_,
      List.forall_mem_append.2 ⟨quiet, List.forall_mem_singleton.2 last⟩⟩
    rw [accesses, List.length_map] at few
    exact Nat.not_lt.2 few

end Sim6809
