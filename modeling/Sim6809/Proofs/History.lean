/-
Histories: a run as the list of all that happened in it, one piece of work at a time.

Between two clocks a processor has gone through several states, and some statements are
about those: which interrupt was recognised, which frame was stacked before a vector was
taken, what a sample saw. So a clock is taken apart here. `Occurs` says what can happen
to a processor next: a move, the announcement of a fetch, an access with whatever byte
it meets, or a call from outside. `Path` is a sequence of these that remembers each of
them and the processor it happened to.

Nothing is lost by it: every clock is such a path, with the transfers that the bus
recorded and the notes that the monitor took (`Board.past_clock`), and so every
reachable processor has a history from power-on (`Reachable.history`). An invariant is
then shown for each occurrence, and `Path.preserves` is the induction for all of them.
The ways in which a phase goes on are given names for that purpose (`PhaseGoes`).
-/
import Sim6809.Proofs.InterruptEntry
import Sim6809.Proofs.OneAccess

set_option autoImplicit false

namespace Sim6809

/-! ## What can happen -/

/-- What happens to a processor at one time. -/
inductive Event
  /-- Work that takes no time is done. -/
  | move (m : Move)
  /-- The fetch that comes next is announced. -/
  | announce
  /-- A bus cycle is made, with this byte on the data lines. -/
  | access (byte : Byte)
  /-- Something is done to the processor from outside. -/
  | call (call : HostCall)

/-- Something that happened, and the processor it happened to. -/
structure Occurrence where
  before : Processor
  event : Event

/-- What can happen next, and what it leads to. An access waits until everything else is
done; a call is possible at any time. -/
inductive Occurs (allowed : HostCall → Prop) (c : Processor) : Event → Processor → Prop
  | move {m : Move} (due : c.move? = some m) : Occurs allowed c (.move m) m.landed
  | wake {m : Move} (due : c.wake? = some m) : Occurs allowed c (.move m) m.landed
  | announce (asks : c.asksFirst = true) : Occurs allowed c .announce c.announce
  | cycle {cycle : BusCycle} (byte : Byte) (due : c.due? = some cycle)
      (announced : c.asksFirst = false) :
      Occurs allowed c (.access byte) (c.carryOut cycle byte)
  | idle (byte : Byte) (still : c.move? = none) (asleep : c.wake? = none)
      (idle : c.due? = none) : Occurs allowed c (.access byte) c.idled.state
  | call {call : HostCall} (allow : allowed call) :
      Occurs allowed c (.call call) (call.apply c)

theorem Occurs.mono {allowed more : HostCall → Prop} {c d : Processor} {event : Event}
    (wider : ∀ call, allowed call → more call) (occurs : Occurs allowed c event d) :
    Occurs more c event d := by
  cases occurs with
  | move due => exact .move due
  | wake due => exact .wake due
  | announce asks => exact .announce asks
  | cycle byte due announced => exact .cycle byte due announced
  | idle byte still asleep idle => exact .idle byte still asleep idle
  | call allow => exact .call (wider _ allow)

/-- All that happened on the way from `c`, first to last, and where it led. -/
inductive Path (allowed : HostCall → Prop) (c : Processor) : List Occurrence → Processor → Prop
  | here : Path allowed c [] c
  | on {past : List Occurrence} {d e : Processor} {event : Event}
      (before : Path allowed c past d) (occurs : Occurs allowed d event e) :
      Path allowed c (past ++ [⟨d, event⟩]) e

/-- Only the lines are driven. -/
def linesOnly : HostCall → Prop
  | .drive _ => True
  | _ => False

/-- A path from power-on. -/
abbrev History (allowed : HostCall → Prop) : List Occurrence → Processor → Prop :=
  Path allowed .powerOn

/-- Then that is all a call does. -/
theorem Occurs.drives {c d : Processor} {call : HostCall}
    (occurs : Occurs linesOnly c (.call call) d) :
    ∃ levels, call = .drive levels ∧ d = c.withLevels levels := by
  cases occurs with
  | call allow =>
    cases call with
    | drive levels => exact ⟨levels, rfl, rfl⟩
    | _ => exact allow.elim

namespace Path

variable {allowed : HostCall → Prop} {c d e : Processor} {past front back : List Occurrence}

theorem single {event : Event} (occurs : Occurs allowed c event d) :
    Path allowed c [⟨c, event⟩] d :=
  .on .here occurs

theorem trans (first : Path allowed c front d) (second : Path allowed d back e) :
    Path allowed c (front ++ back) e := by
  induction second with
  | here =>
    rw [List.append_nil]
    exact first
  | on _ occurs ih =>
    rw [← List.append_assoc]
    exact .on ih occurs

/-- A path passes through a processor wherever its list is cut. -/
theorem cut (path : Path allowed c (front ++ back) e) :
    ∃ d, Path allowed c front d ∧ Path allowed d back e := by
  generalize whole : front ++ back = past at path
  induction path generalizing back with
  | here =>
    obtain ⟨rfl, rfl⟩ := List.append_eq_nil_iff.1 whole
    exact ⟨c, .here, .here⟩
  | @on past d e event before occurs ih =>
    rcases List.eq_nil_or_concat back with rfl | ⟨shorter, last, rfl⟩
    · rw [List.append_nil] at whole
      rw [whole]
      exact ⟨e, .on before occurs, .here⟩
    · rw [List.concat_eq_append, ← List.append_assoc] at whole
      obtain ⟨same, final⟩ := List.append_inj' whole rfl
      cases final
      obtain ⟨f, first, second⟩ := ih same
      rw [List.concat_eq_append]
      exact ⟨f, first, .on second occurs⟩

/-- What is in the list did happen, to the processor the path had come to. -/
theorem split {o : Occurrence} (path : Path allowed c (front ++ o :: back) e) :
    Path allowed c front o.before ∧
      ∃ d, Occurs allowed o.before o.event d ∧ Path allowed d back e := by
  rw [← List.singleton_append, ← List.append_assoc] at path
  obtain ⟨d, first, second⟩ := path.cut
  obtain ⟨past, last⟩ : ∃ past, past = front ++ [o] := ⟨_, rfl⟩
  rw [← last] at first
  cases first with
  | here => cases front <;> cases last
  | on before occurs =>
    obtain ⟨rfl, same⟩ := List.append_inj' last rfl
    cases same
    exact ⟨before, d, occurs, second⟩

/-- What every occurrence preserves, a path preserves. -/
theorem preserves {P : Processor → Prop}
    (step : ∀ {c d : Processor} {event : Event}, P c → Occurs allowed c event d → P d)
    (path : Path allowed c past d) (h : P c) : P d := by
  induction path with
  | here => exact h
  | on _ occurs ih => exact step ih occurs

/-- What does not hold at the start of a path and holds at its end was brought about by
something that happened on the way. -/
theorem turns {P : Processor → Prop} (path : Path allowed c past d) (not : ¬P c) (holds : P d) :
    ∃ front o back e, past = front ++ o :: back ∧ Path allowed c front o.before ∧
      ¬P o.before ∧ Occurs allowed o.before o.event e ∧ P e := by
  induction path with
  | here => exact absurd holds not
  | @on past d e event before occurs ih =>
    by_cases already : P d
    · obtain ⟨front, o, back, f, rfl, path, change⟩ := ih already
      exact ⟨front, o, back ++ [⟨d, event⟩], f, by rw [List.append_assoc]; rfl, path, change⟩
    · exact ⟨past, ⟨d, event⟩, [], e, rfl, before, already, occurs, holds⟩

theorem mono {more : HostCall → Prop} (wider : ∀ call, allowed call → more call)
    (path : Path allowed c past d) : Path more c past d := by
  induction path with
  | here => exact .here
  | on _ occurs ih => exact .on ih (occurs.mono wider)

end Path

/-! ## What is kept all along -/

theorem Occurs.consistent {allowed : HostCall → Prop} {c d : Processor} {event : Event}
    (occurs : Occurs allowed c event d) (h : c.schedule.Consistent) : d.schedule.Consistent := by
  cases occurs with
  | move due => exact Processor.consistent_landed h due
  | wake due =>
    obtain ⟨_, _, _, served⟩ := Processor.wake?_eq_some due
    apply Schedule.Consistent.extend
    rw [(Processor.serve?_eq_some served).1]
    exact h
  | announce asks =>
    rw [Processor.schedule_announce]
    exact h
  | cycle byte due announced => exact Processor.consistent_carryOut h _ byte
  | idle byte still asleep idle =>
    rw [Processor.schedule_idled]
    exact h
  | @call call allow =>
    cases call with
    | drive levels => exact h
    | registers regs => exact h
    | reset => exact Schedule.consistent_clear _
    | setPc pc => exact (Schedule.consistent_clear _).push _

theorem Path.consistent {allowed : HostCall → Prop} {c d : Processor} {past : List Occurrence}
    (path : Path allowed c past d) (h : c.schedule.Consistent) : d.schedule.Consistent :=
  path.preserves (fun kept occurs => occurs.consistent kept) h

theorem Occurs.orderly {allowed : HostCall → Prop} {c d : Processor} {event : Event}
    (occurs : Occurs allowed c event d) (h : Orderly c) : Orderly d := by
  cases occurs with
  | move due => exact (Processor.orderly_move h due).landed
  | wake due => exact (Processor.orderly_wake h due).landed
  | announce asks =>
    exact h.of_same (Processor.schedule_announce _) (by rw [Processor.announce_eq])
  | cycle byte due announced => exact Processor.orderly_carryOut h byte due
  | idle byte still asleep idle =>
    exact h.of_same (Processor.schedule_idled _) (by rw [Processor.idled_eq])
  | @call call allow => exact Processor.orderly_call h call

theorem Path.orderly {allowed : HostCall → Prop} {c d : Processor} {past : List Occurrence}
    (path : Path allowed c past d) (h : Orderly c) : Orderly d :=
  path.preserves (fun kept occurs => occurs.orderly kept) h

/-! ## What is seen of it -/

namespace Occurrence

/-- The access that was made, with the byte it met. -/
def transfer? (o : Occurrence) : Option Transfer :=
  match o.event with
  | .access byte => some ⟨o.before.access, byte⟩
  | _ => none

/-- What was reported. -/
def reports (o : Occurrence) : List Report :=
  match o.event with
  | .move m => m.reports
  | .access _ => if o.before.due? = none then o.before.idled.reports else []
  | _ => []

/-- A scheduled cycle reports nothing. -/
theorem reports_of_due {c : Processor} {cycle : BusCycle} (due : c.due? = some cycle)
    (byte : Byte) : (⟨c, .access byte⟩ : Occurrence).reports = [] := by
  simp only [reports, due, reduceCtorEq, if_false]

theorem reports_of_idle {c : Processor} (idle : c.due? = none) (byte : Byte) :
    (⟨c, .access byte⟩ : Occurrence).reports = c.idled.reports := by
  rw [reports, if_pos idle]

end Occurrence

/-- The transfers of a path. -/
def transfers (past : List Occurrence) : List Transfer := past.filterMap (·.transfer?)

/-- The accesses of a path. -/
def accesses (past : List Occurrence) : List Access := (transfers past).map (·.access)

@[simp] theorem transfers_append (front back : List Occurrence) :
    transfers (front ++ back) = transfers front ++ transfers back :=
  List.filterMap_append

@[simp] theorem accesses_append (front back : List Occurrence) :
    accesses (front ++ back) = accesses front ++ accesses back := by
  rw [accesses, transfers_append, List.map_append, accesses, accesses]

/-- Every access takes one cycle, and nothing else takes any. -/
theorem Path.cycles {allowed : HostCall → Prop} {c d : Processor} {past : List Occurrence}
    (path : Path allowed c past d) :
    d.cycles.count = c.cycles.count + UInt64.ofNat (accesses past).length := by
  induction path with
  | here => exact (UInt64.add_zero _).symm
  | @on past d e event _ occurs ih =>
    rw [accesses_append, List.length_append, UInt64.ofNat_add, ← UInt64.add_assoc, ← ih]
    have untimed : e.cycles = d.cycles → e.cycles.count = d.cycles.count + UInt64.ofNat 0 := by
      intro same
      rw [same]
      exact (UInt64.add_zero _).symm
    have timed : e.cycles = d.cycles.next → e.cycles.count = d.cycles.count + UInt64.ofNat 1 :=
      fun next => by rw [next]; rfl
    cases occurs with
    | move due => exact untimed (Processor.cycles_move due)
    | wake due => exact untimed (Processor.cycles_wake due)
    | announce asks => exact untimed (by rw [Processor.announce_eq])
    | cycle byte due _ => exact timed (Processor.cycles_carryOut d _ byte)
    | idle byte _ _ _ => exact timed (by rw [Processor.idled_eq])
    | @call call _ =>
      cases call with
      | drive _ | reset | setPc _ | registers _ => exact untimed rfl

/-- What a monitor makes of an occurrence. -/
def Monitor.follow {σ : Type} (m : Monitor σ) (notes : σ) (o : Occurrence) : σ :=
  match o.event with
  | .announce => (m.ask o.before.regs notes).2
  | .access byte =>
    m.hearAll (if o.before.operandDue then m.watch o.before.access byte notes else notes) o.reports
  | _ => m.hearAll notes o.reports

/-! ## A clock is a path -/

/-- Nothing but moves. -/
def OnlyMoves (past : List Occurrence) : Prop := ∀ o ∈ past, ∃ m, o.event = .move m

theorem OnlyMoves.nil : OnlyMoves [] := fun _ mem => nomatch mem

theorem OnlyMoves.append {front back : List Occurrence} (h : OnlyMoves front)
    (h' : OnlyMoves back) : OnlyMoves (front ++ back) := by
  intro o mem
  rcases List.mem_append.1 mem with mem | mem
  · exact h o mem
  · exact h' o mem

theorem OnlyMoves.transfers {past : List Occurrence} (h : OnlyMoves past) :
    transfers past = [] := by
  refine List.filterMap_eq_nil_iff.2 fun o mem => ?_
  obtain ⟨m, move⟩ := h o mem
  rw [Occurrence.transfer?, move]

theorem OnlyMoves.notes {σ : Type} (m : Monitor σ) {past : List Occurrence} (h : OnlyMoves past)
    (notes : σ) : past.foldl m.follow notes = m.hearAll notes (past.flatMap (·.reports)) := by
  induction past generalizing notes with
  | nil => rfl
  | cons o past ih =>
    obtain ⟨move, event⟩ := h o List.mem_cons_self
    rw [List.foldl_cons, ih fun o' mem => h o' (List.mem_cons_of_mem o mem), List.flatMap_cons,
      Monitor.hearAll, Monitor.hearAll, List.foldl_append, Monitor.follow, event]
    rfl

namespace Processor

variable (allowed : HostCall → Prop)

theorem path_settleWithin (fuel : Nat) (c : Processor) :
    ∃ past, Path allowed c past (settleWithin fuel c).state ∧ OnlyMoves past ∧
      past.flatMap (·.reports) = (settleWithin fuel c).reports := by
  have rest : ∀ c : Processor, ∃ past, Path allowed c past c ∧ OnlyMoves past ∧
      past.flatMap (·.reports) = [] := fun c => ⟨[], .here, .nil, rfl⟩
  induction fuel generalizing c with
  | zero => exact rest c
  | succ fuel ih =>
    rw [settleWithin]
    cases due : c.move? with
    | none => exact rest c
    | some m =>
      obtain ⟨past, path, only, reports⟩ := ih m.landed
      refine ⟨⟨c, .move m⟩ :: past, (Path.single (.move due)).trans path, ?_, ?_⟩
      · intro o mem
        rcases List.mem_cons.1 mem with rfl | mem
        · exact ⟨m, rfl⟩
        · exact only o mem
      · rw [List.flatMap_cons, reports]
        rfl

/-- Settling is a path of moves. -/
theorem path_settle (c : Processor) :
    ∃ past, Path allowed c past c.settle.state ∧ OnlyMoves past ∧
      past.flatMap (·.reports) = c.settle.reports :=
  path_settleWithin allowed _ c

/-- So is what is left to do before an access. -/
theorem path_prepare (c : Processor) :
    ∃ past, Path allowed c past c.prepare.state ∧ OnlyMoves past ∧
      past.flatMap (·.reports) = c.prepare.reports := by
  obtain ⟨past, path, only, reports⟩ := path_settle allowed c
  rcases prepare_cases c with ⟨_, same⟩ | ⟨m, wake, woken⟩
  · rw [same]
    exact ⟨past, path, only, reports⟩
  · rw [woken]
    refine ⟨past ++ [⟨c.settle.state, .move m⟩], .on path (.wake wake), ?_, ?_⟩
    · refine only.append fun o mem => ?_
      rw [List.mem_singleton] at mem
      exact ⟨m, by rw [mem]⟩
    · rw [List.flatMap_append, reports, List.flatMap_singleton]
      rfl

/-- What asks to be announced is a fetch. -/
theorem due?_of_asksFirst {c : Processor} (asks : c.asksFirst = true) :
    c.due? = some .fetchOpcode := by
  simp only [asksFirst, Bool.and_eq_true, beq_iff_eq] at asks
  exact asks.1.1

/-- Once it is announced, it is made. -/
theorem asksFirst_announce (c : Processor) : c.announce.asksFirst = false := by
  unfold announce
  split
  · rw [asksFirst, Bool.not_true, Bool.and_false]
  · next unasked => simpa using unasked

theorem wake?_announce {c : Processor} (asks : c.asksFirst = true) : c.announce.wake? = none := by
  have fetch := due?_of_asksFirst asks
  have current : c.announce.schedule.current = some (.cycle .fetchOpcode) := by
    rw [schedule_announce]
    unfold due? at fetch
    split at fetch
    · next current => rw [current, Option.some.inj fetch]
    · cases fetch
  simp only [wake?, current]

/-- The announcement of a fetch, if one is due. -/
def announcement (c : Processor) : List Occurrence := if c.asksFirst then [⟨c, .announce⟩] else []

theorem path_announcement (c : Processor) : Path allowed c c.announcement c.announce := by
  cases asks : c.asksFirst with
  | true =>
    rw [announcement, asks]
    exact .single (.announce asks)
  | false =>
    rw [announcement, announce_of_unasked asks, asks]
    exact .here

theorem transfers_announcement (c : Processor) : transfers c.announcement = [] := by
  unfold announcement
  split <;> rfl

/-- The processor before an access comes about by moves, and maybe an announcement. -/
theorem path_ready (c : Processor) :
    ∃ past, Path allowed c past c.ready ∧ transfers past = [] := by
  obtain ⟨front, path, only, _⟩ := path_prepare allowed c
  refine ⟨front ++ c.prepare.state.announcement, path.trans (path_announcement allowed _), ?_⟩
  rw [transfers_append, only.transfers, transfers_announcement]
  rfl

/-- There it stays until the access is made. -/
theorem still_ready {c : Processor} (h : c.schedule.Consistent) :
    c.ready.move? = none ∧ c.ready.wake? = none := by
  have still := move?_prepare h
  refine ⟨move?_announce still, ?_⟩
  cases asks : c.prepare.state.asksFirst with
  | true => exact wake?_announce asks
  | false =>
    rw [ready, announce_of_unasked asks]
    exact wake?_prepare h

/-- An access, and the moves after it. -/
theorem path_complete {c : Processor} (h : c.schedule.Consistent) (byte : Byte) :
    ∃ back, Path allowed c.ready (⟨c.ready, .access byte⟩ :: back) (c.ready.complete byte).state ∧
      OnlyMoves back := by
  cases due : c.ready.due? with
  | some cycle =>
    obtain ⟨back, path, only, _⟩ := path_settle allowed (c.ready.carryOut cycle byte)
    rw [complete, due]
    exact ⟨back, (Path.single (.cycle byte due (asksFirst_announce _))).trans path, only⟩
  | none =>
    obtain ⟨still, asleep⟩ := still_ready h
    rw [complete, due]
    exact ⟨[], .single (.idle byte still asleep due), .nil⟩

end Processor

/-- A recorder appends the access that is made. -/
theorem Recorded.transfers_perform {β : Type} [Bus β] (access : Access) (bus : Recorded β) :
    (access.perform bus).2.transfers.toList =
      bus.transfers.toList ++ [⟨access, (access.perform bus).1⟩] := by
  rw [Recorded.perform]
  exact Array.toList_push

namespace Board

variable {β σ : Type}

/-- A clock is a path, on whatever bus. -/
theorem path_clock [Bus β] (m : Monitor σ) (allowed : HostCall → Prop) {b : Board β σ}
    (h : b.cpu.schedule.Consistent) : ∃ past, Path allowed b.cpu past (clock m b).2.cpu := by
  obtain ⟨front, ready, _⟩ := b.cpu.path_ready allowed
  rcases clock_cases m b with ⟨_, notes, held⟩ | ⟨notes, made⟩
  · rw [held]
    exact ⟨front, ready⟩
  · obtain ⟨back, complete, _⟩ :=
      Processor.path_complete allowed h (b.cpu.ready.access.perform b.bus).1
    rw [made]
    exact ⟨_, ready.trans complete⟩

theorem consistent_clock [Bus β] (m : Monitor σ) {b : Board β σ}
    (h : b.cpu.schedule.Consistent) : (clock m b).2.cpu.schedule.Consistent := by
  obtain ⟨_, path⟩ := path_clock m anyCall h
  exact path.consistent h

/-- What happened to the processor between two states of a board, as the bus recorded
it and as the monitor followed it. -/
structure Past (m : Monitor σ) (allowed : HostCall → Prop) (b : Board (Recorded β) σ)
    (past : List Occurrence) (b' : Board (Recorded β) σ) : Prop where
  path : Path allowed b.cpu past b'.cpu
  transfers : b'.bus.transfers.toList = b.bus.transfers.toList ++ transfers past
  notes : b'.notes = past.foldl m.follow b.notes

namespace Past

variable {m : Monitor σ} {allowed : HostCall → Prop} {b b' b'' : Board (Recorded β) σ}
  {front back : List Occurrence}

theorem trans (first : Past m allowed b front b') (second : Past m allowed b' back b'') :
    Past m allowed b (front ++ back) b'' where
  path := first.path.trans second.path
  transfers := by rw [second.transfers, first.transfers, transfers_append, List.append_assoc]
  notes := by rw [second.notes, first.notes, List.foldl_append]

/-- Moves go unnoticed by the bus. -/
theorem of_moves {past : List Occurrence} {c d : Processor} {bus : Recorded β} {notes : σ}
    {reports : List Report} (path : Path allowed c past d) (only : OnlyMoves past)
    (heard : past.flatMap (·.reports) = reports) :
    Past m allowed ⟨c, bus, notes⟩ past ⟨d, bus, m.hearAll notes reports⟩ where
  path := path
  transfers := by rw [only.transfers, List.append_nil]
  notes := by rw [only.notes, heard]

/-- A call goes unnoticed by both. -/
theorem of_call {call : HostCall} (allow : allowed call) (b : Board (Recorded β) σ) :
    Past m allowed b [⟨b.cpu, .call call⟩] { b with cpu := call.apply b.cpu } where
  path := .single (.call allow)
  transfers := (List.append_nil _).symm
  notes := rfl

theorem of_announcement (c : Processor) (bus : Recorded β) (notes : σ) :
    Past m allowed ⟨c, bus, notes⟩ c.announcement ⟨c.announce, bus, asked m c notes⟩ where
  path := c.path_announcement allowed
  transfers := by rw [c.transfers_announcement, List.append_nil]
  notes := by
    unfold asked Processor.announcement
    split <;> rfl

end Past

/-- The board once the work before the access is done. -/
def prepared (m : Monitor σ) (b : Board β σ) : Board β σ :=
  ⟨b.cpu.prepare.state, b.bus, m.hearAll b.notes b.cpu.prepare.reports⟩

/-- The board right before its access, whether that is held or made. -/
def readied (m : Monitor σ) (b : Board β σ) : Board β σ :=
  ⟨b.cpu.ready, b.bus, asked m (prepared m b).cpu (prepared m b).notes⟩

/-- The instruction hook is asked and holds the processor. -/
def holds (m : Monitor σ) (b : Board β σ) : Bool :=
  (prepared m b).cpu.asksFirst &&
    (m.ask (prepared m b).cpu.regs (prepared m b).notes).1 == .hold

/-- A clock gets the board ready, and then makes the access or does not. -/
theorem clock_eq [Bus β] (m : Monitor σ) (b : Board β σ) :
    clock m b =
      if holds m b then (.held, readied m b) else (.cycle, exchange m (readied m b)) := by
  obtain ⟨cpu, bus, notes⟩ := b
  cases asks : cpu.prepare.state.asksFirst with
  | false =>
    have unannounced : cpu.ready = cpu.prepare.state := Processor.announce_of_unasked asks
    simp only [clock, asks, holds, prepared, readied, asked, unannounced]
    rfl
  | true =>
    cases answer : m.ask cpu.prepare.state.regs (m.hearAll notes cpu.prepare.reports) with
    | mk verdict heard =>
      simp only [clock, asks, answer, holds, prepared, readied, asked, if_true]
      cases verdict <;> rfl

theorem holds_iff {m : Monitor σ} {b : Board β σ} :
    holds m b = true ↔ (prepared m b).cpu.asksFirst = true ∧
      (m.ask (prepared m b).cpu.regs (prepared m b).notes).1 = .hold := by
  rw [holds, Bool.and_eq_true, beq_iff_eq]

/-- What happens before the access: moves, and the announcement if one is due. -/
theorem past_prepared (m : Monitor σ) (allowed : HostCall → Prop) (b : Board (Recorded β) σ) :
    ∃ front, OnlyMoves front ∧ Past m allowed b front (prepared m b) := by
  obtain ⟨front, path, only, reports⟩ := Processor.path_prepare allowed b.cpu
  exact ⟨front, only, .of_moves path only reports⟩

theorem past_readied (m : Monitor σ) (allowed : HostCall → Prop) (b : Board (Recorded β) σ) :
    Past m allowed (prepared m b) (prepared m b).cpu.announcement (readied m b) :=
  .of_announcement _ _ _

/-- The access of a processor that has nothing else to do, and what follows it. -/
theorem past_exchange [Bus β] (m : Monitor σ) (allowed : HostCall → Prop) {c : Processor}
    (still : c.move? = none) (asleep : c.wake? = none) (announced : c.asksFirst = false)
    (bus : Recorded β) (notes : σ) :
    ∃ back, OnlyMoves back ∧
      Past m allowed ⟨c, bus, notes⟩ (⟨c, .access (c.access.perform bus).1⟩ :: back)
        (exchange m ⟨c, bus, notes⟩) := by
  have recorded := Recorded.transfers_perform c.access bus
  cases due : c.due? with
  | some cycle =>
    obtain ⟨back, path, only, reports⟩ :=
      Processor.path_settle allowed (c.carryOut cycle (c.access.perform bus).1)
    have access : Past m allowed ⟨c, bus, notes⟩ [⟨c, .access (c.access.perform bus).1⟩]
        ⟨c.carryOut cycle (c.access.perform bus).1, (c.access.perform bus).2,
          if c.operandDue then m.watch c.access (c.access.perform bus).1 notes else notes⟩ := by
      refine ⟨.single (.cycle _ due announced), recorded, ?_⟩
      rw [List.foldl_cons, List.foldl_nil, Monitor.follow, Occurrence.reports_of_due due]
      rfl
    have whole := access.trans (.of_moves path only reports)
    rw [List.singleton_append] at whole
    exact ⟨back, only, by simpa only [exchange, Processor.complete, due] using whole⟩
  | none =>
    refine ⟨[], .nil, ?_, recorded, ?_⟩
    · simp only [exchange, Processor.complete, due]
      exact .single (.idle _ still asleep due)
    · rw [List.foldl_cons, List.foldl_nil, Monitor.follow, Occurrence.reports_of_idle due]
      simp only [exchange, Processor.complete, due]

/-- What happens after that: the access with the moves that follow, unless it is held. -/
theorem past_access [Bus β] (m : Monitor σ) (allowed : HostCall → Prop)
    (b : Board (Recorded β) σ) (h : b.cpu.schedule.Consistent) :
    ∃ back, OnlyMoves back ∧
      Past m allowed (readied m b)
        (if holds m b then [] else
          ⟨b.cpu.ready, .access (b.cpu.ready.access.perform b.bus).1⟩ :: back) (clock m b).2 := by
  obtain ⟨still, asleep⟩ := b.cpu.still_ready h
  obtain ⟨back, after, exchanged⟩ := past_exchange m allowed still asleep
    (Processor.asksFirst_announce _) b.bus (readied m b).notes
  refine ⟨back, after, ?_⟩
  rw [clock_eq]
  split
  · exact ⟨.here, (List.append_nil _).symm, rfl⟩
  · exact exchanged

/-- **A clock is a path.** It makes one access, or it is held and makes none; then a
fetch was announced. -/
theorem past_clock [Bus β] (m : Monitor σ) (allowed : HostCall → Prop)
    (b : Board (Recorded β) σ) (h : b.cpu.schedule.Consistent) :
    ∃ past, Past m allowed b past (clock m b).2 ∧
      (transfers past).length = (clock m b).1.accesses ∧
      ((clock m b).1 = .held → ∃ c, ⟨c, .announce⟩ ∈ past ∧ c.due? = some .fetchOpcode) := by
  obtain ⟨front, moves, prepares⟩ := past_prepared m allowed b
  obtain ⟨back, after, accesses⟩ := past_access m allowed b h
  refine ⟨_, (prepares.trans (past_readied m allowed b)).trans accesses, ?_, ?_⟩
  · rw [transfers_append, transfers_append, moves.transfers, Processor.transfers_announcement,
      clock_eq]
    split
    · rfl
    · exact congrArg (· + 1) (congrArg List.length after.transfers)
  · intro held
    rw [clock_eq] at held
    split at held
    · next holds =>
      have asks := (holds_iff.1 holds).1
      refine ⟨(prepared m b).cpu, ?_, Processor.due?_of_asksFirst asks⟩
      rw [Processor.announcement, asks]
      exact List.mem_append_left _ (List.mem_append_right _ List.mem_cons_self)
    · cases held

/-- A run with the lines driven before every clock is a path, too. -/
theorem past_clocks [Bus β] (m : Monitor σ) {allowed : HostCall → Prop}
    (drives : ∀ levels, allowed (.drive levels)) (lines : List Levels) (b : Board (Recorded β) σ)
    (h : b.cpu.schedule.Consistent) : ∃ past, Past m allowed b past (clocks m lines b) := by
  induction lines generalizing b with
  | nil => exact ⟨[], .here, (List.append_nil _).symm, rfl⟩
  | cons levels more ih =>
    have driven : Past m allowed b [⟨b.cpu, .call (.drive levels)⟩] (b.withLevels levels) :=
      .of_call (drives levels) b
    obtain ⟨now, clocked, _⟩ := past_clock m allowed (b.withLevels levels) h
    obtain ⟨later, run⟩ := ih (tick m (b.withLevels levels)) (clocked.path.consistent h)
    exact ⟨_, (driven.trans clocked).trans run⟩

end Board

/-! ## Histories -/

/-- Whatever is reachable has a history. -/
theorem Reachable.history {allowed : HostCall → Prop} {c : Processor}
    (reachable : Reachable allowed c) : ∃ past, History allowed past c := by
  refine reachable.preserves (P := fun c => ∃ past, History allowed past c) ?_ ?_ ?_ ?_
  · exact ⟨[], .here⟩
  · rintro c ⟨past, path⟩
    obtain ⟨more, ready, _⟩ := Processor.path_ready allowed c
    exact ⟨past ++ more, path.trans ready⟩
  · rintro c byte ⟨past, path⟩
    obtain ⟨more, ready, _⟩ := Processor.path_ready allowed c
    obtain ⟨last, complete, _⟩ := Processor.path_complete allowed
      (path.consistent Processor.orderly_powerOn.consistent) byte
    exact ⟨_, (path.trans ready).trans complete⟩
  · rintro c call allow ⟨past, path⟩
    exact ⟨past ++ [⟨c, .call call⟩], .on path (.call allow)⟩

/-- A run with the lines driven leads from one reachable processor to another. -/
theorem Reachable.clocks {β σ : Type} [Bus β] (m : Monitor σ) {allowed : HostCall → Prop}
    (drives : ∀ levels, allowed (.drive levels)) (lines : List Levels) (b : Board β σ)
    (before : Reachable allowed b.cpu) : Reachable allowed (Board.clocks m lines b).cpu := by
  induction lines generalizing b with
  | nil => exact before
  | cons levels lines ih =>
    exact ih _ (.clock m (b.withLevels levels) (.call (.drive levels) (drives levels) before))

/-! ## What is recognised -/

namespace HardwareInterrupt

variable {active : Levels} {cc : ConditionCodes}

/-- The order in which interrupts are looked at: the lower the rank, the sooner. -/
def rank : HardwareInterrupt → Nat
  | nmi => 0
  | firq => 1
  | irq => 2

theorem recognised_eq_none_iff :
    recognised active cc = none ↔ ∀ interrupt, eligible active cc interrupt = false := by
  rw [recognised, List.find?_eq_none]
  refine ⟨fun all interrupt => ?_, fun all interrupt _ => ?_⟩
  · refine Bool.eq_false_iff.2 (all interrupt ?_)
    cases interrupt <;> decide
  · rw [all interrupt]
    decide

/-- What is recognised is eligible, and nothing before it is. -/
theorem recognised_eq_some_iff {interrupt : HardwareInterrupt} :
    recognised active cc = some interrupt ↔
      eligible active cc interrupt = true ∧
        ∀ other, other.rank < interrupt.rank → eligible active cc other = false := by
  have before : (∀ other, other.rank < interrupt.rank → eligible active cc other = false) ↔
      (0 < interrupt.rank → eligible active cc nmi = false) ∧
        (1 < interrupt.rank → eligible active cc firq = false) := by
    refine ⟨fun all => ⟨all nmi, all firq⟩, fun ⟨first, second⟩ other less => ?_⟩
    cases other with
    | nmi => exact first less
    | firq => exact second less
    | irq => cases interrupt <;> cases less <;> contradiction
  rw [before]
  cases interrupt <;> cases h : eligible active cc nmi <;> cases h' : eligible active cc firq <;>
    cases h'' : eligible active cc irq <;> simp [recognised, rank, List.find?, h, h', h'']

/-- HALT has no part in it, nor have the flags that mask nothing. -/
theorem recognised_congr {active' : Levels} {cc' : ConditionCodes} (nmi : active.nmi = active'.nmi)
    (firq : active.firq = active'.firq) (irq : active.irq = active'.irq)
    (firqMask : cc.firqMask = cc'.firqMask) (irqMask : cc.irqMask = cc'.irqMask) :
    recognised active cc = recognised active' cc' := by
  have same : eligible active cc = eligible active' cc' := by
    funext interrupt
    cases interrupt with
    | nmi => exact nmi
    | firq => rw [eligible, eligible, firq, firqMask]
    | irq => rw [eligible, eligible, irq, irqMask]
  rw [recognised, recognised, same]

end HardwareInterrupt

/-! ## The moves by name -/

namespace Processor

/-- The move that serves an interrupt. -/
def serving (c : Processor) (interrupt : HardwareInterrupt) : Move :=
  ({ (if interrupt = .nmi then c.drive .acknowledgeNmi else c) with
    phase := .boundary } : Processor).takeVector interrupt.vector

theorem page_serving (c : Processor) (interrupt : HardwareInterrupt) :
    (c.serving interrupt).landed.page = c.page := by
  cases interrupt <;> rfl

theorem announced_serving (c : Processor) (interrupt : HardwareInterrupt) :
    (c.serving interrupt).landed.announced = c.announced := by
  cases interrupt <;> rfl

theorem serve?_eq_map (c : Processor) :
    c.serve? = (HardwareInterrupt.recognised c.inputs.active c.regs.cc).map c.serving := rfl

theorem eq_serving_of_serve? {c : Processor} {m : Move} (served : c.serve? = some m) :
    ∃ interrupt, HardwareInterrupt.recognised c.inputs.active c.regs.cc = some interrupt ∧
      m = c.serving interrupt := by
  rw [serve?_eq_map, Option.map_eq_some_iff] at served
  obtain ⟨interrupt, recognised, rfl⟩ := served
  exact ⟨interrupt, recognised, rfl⟩

/-- The ways in which a phase goes on once nothing is pending. -/
inductive PhaseGoes (c : Processor) : Move → Prop
  | reset (phase : c.phase = .reset) :
      PhaseGoes c { next := c.beginReset, reports := [.notice .resetBegun] }
  | release (phase : c.phase = .resetHold) (free : c.inputs.active.halt = false) :
      PhaseGoes c
        { next := { c with ea := InterruptVector.reset.address, phase := .boundary }
          queued := vectorFetch
          reports := [.notice .resetReleased] }
  | boundary (phase : c.phase = .boundary) (free : c.inputs.active.halt = false) :
      PhaseGoes c { next := { c with phase := .arbitration } }
  | asked {interrupt : HardwareInterrupt} (phase : c.phase = .arbitration)
      (recognised : HardwareInterrupt.recognised c.inputs.active c.regs.cc = some interrupt) :
      PhaseGoes c
        { next := { c with phase := .dispatch }
          queued := [.cycle .peekPc, .cycle .peekPc] ++ Frame.program interrupt.stacksEntire }
  | unasked (phase : c.phase = .arbitration)
      (recognised : HardwareInterrupt.recognised c.inputs.active c.regs.cc = none) :
      PhaseGoes c { next := { c with phase := .execution }, queued := [.cycle .fetchOpcode] }
  | retire (phase : c.phase = .execution) :
      PhaseGoes c { next := { c with phase := .boundary }, reports := [.retired c.regs] }
  | served {interrupt : HardwareInterrupt} (phase : c.phase = .dispatch)
      (recognised : HardwareInterrupt.recognised c.inputs.active c.regs.cc = some interrupt) :
      PhaseGoes c (c.serving interrupt)
  | unserved (phase : c.phase = .dispatch)
      (recognised : HardwareInterrupt.recognised c.inputs.active c.regs.cc = none) :
      PhaseGoes c { next := { c with phase := .cwaiWait } }

theorem phaseGoes {c : Processor} {m : Move} (due : c.phaseMove? = some m) : PhaseGoes c m := by
  unfold phaseMove? at due
  split at due
  · next phase =>
    cases due
    exact .reset phase
  · next phase =>
    split at due
    · cases due
    · next free =>
      cases due
      exact .release phase (by simpa using free)
  · next phase =>
    split at due
    · cases due
    · next free =>
      cases due
      exact .boundary phase (by simpa using free)
  · next phase =>
    split at due
    · next recognised =>
      cases due
      exact .asked phase recognised
    · next recognised =>
      cases due
      exact .unasked phase recognised
  · next phase =>
    cases due
    exact .retire phase
  · next phase =>
    cases recognised : HardwareInterrupt.recognised c.inputs.active c.regs.cc with
    | none =>
      rw [serve?_eq_map, recognised] at due
      cases due
      exact .unserved phase recognised
    | some interrupt =>
      rw [serve?_eq_map, recognised] at due
      cases due
      exact .served phase recognised
  all_goals cases due

/-- Every move that can happen: the next action, a phase that goes on, or the end of a
CWAI wait. -/
inductive MoveHappens (c : Processor) : Move → Prop
  | act {action : Action} {rest : List MicroOp}
      (pending : c.schedule.pending = .action action :: rest) :
      MoveHappens c ({ c with schedule := c.schedule.advance }.act action)
  | phase {m : Move} (dry : c.schedule.pending = []) (goes : PhaseGoes c m) : MoveHappens c m
  | wake {interrupt : HardwareInterrupt} (dry : c.schedule.pending = [])
      (phase : c.phase = .cwaiWait) (free : c.inputs.active.halt = false)
      (recognised : HardwareInterrupt.recognised c.inputs.active c.regs.cc = some interrupt) :
      MoveHappens c (c.serving interrupt)

end Processor

/-- A move that happens is one of them, and lands. -/
theorem Occurs.moveHappens {allowed : HostCall → Prop} {c d : Processor} {m : Move}
    (occurs : Occurs allowed c (.move m) d) (h : c.schedule.Consistent) :
    c.MoveHappens m ∧ d = m.landed := by
  cases occurs with
  | move due =>
    refine ⟨?_, rfl⟩
    rcases Processor.move?_cases h due with ⟨action, rest, pending, rfl⟩ | ⟨dry, goes⟩
    · exact .act pending
    · exact .phase dry (Processor.phaseGoes goes)
  | wake due =>
    refine ⟨?_, rfl⟩
    obtain ⟨current, phase, free, served⟩ := Processor.wake?_eq_some due
    obtain ⟨interrupt, recognised, rfl⟩ := Processor.eq_serving_of_serve? served
    exact .wake (Processor.pending_eq_nil_of_current h current) phase free recognised

/-- A move uses up an action, or finds nothing pending, and what it queues follows. -/
theorem Occurs.pending_landed {allowed : HostCall → Prop} {c d : Processor} {m : Move}
    (occurs : Occurs allowed c (.move m) d) (h : Orderly c) :
    m.landed.schedule.pending = c.schedule.pending.tail ++ m.queued := by
  cases occurs with
  | move due =>
    rw [(Processor.orderly_move h due).pending_landed, Processor.pending_of_move h due]
  | wake due =>
    obtain ⟨current, _, _, served⟩ := Processor.wake?_eq_some due
    rw [(Processor.orderly_wake h due).pending_landed, (Processor.serve?_eq_some served).1,
      Processor.pending_eq_nil_of_current h.consistent current, List.tail_nil]

/-! ## Vectors -/

/-- The vector is taken here. -/
def Occurrence.Takes (o : Occurrence) (which : InterruptVector) : Prop :=
  ∃ pc, .notice (.vectorTaken which pc) ∈ o.reports

/-- A vector is taken by an instruction, or by serving an interrupt that is recognised
then. -/
theorem Occurs.takes {allowed : HostCall → Prop} {c d : Processor} {event : Event}
    (occurs : Occurs allowed c event d) (h : c.schedule.Consistent) {which : InterruptVector}
    (taken : (⟨c, event⟩ : Occurrence).Takes which) :
    (∃ rest, c.schedule.pending = .action (.vector which) :: rest) ∨
      ∃ interrupt, which = interrupt.vector ∧ c.schedule.pending = [] ∧
        (c.phase = .dispatch ∨ c.phase = .cwaiWait) ∧
        HardwareInterrupt.recognised c.inputs.active c.regs.cc = some interrupt ∧
        event = .move (c.serving interrupt) ∧ d = (c.serving interrupt).landed := by
  obtain ⟨pc, taken⟩ := taken
  have reported : ∀ {interrupt : HardwareInterrupt},
      .notice (.vectorTaken which pc) ∈ (c.serving interrupt).reports →
        which = interrupt.vector := by
    intro interrupt mem
    cases List.mem_singleton.1 mem
    rfl
  cases event with
  | move m =>
    obtain ⟨happens, landed⟩ := occurs.moveHappens h
    change _ ∈ m.reports at taken
    cases happens with
    | @act action rest pending =>
      cases action with
      | vector other =>
        cases List.mem_singleton.1 taken
        exact Or.inl ⟨rest, pending⟩
      | enter phase =>
        rcases List.mem_cons.1 taken with entry | retired
        · simp only [Notice.ofEntry, Report.notice.injEq] at entry
          split at entry <;> cases entry
        · cases List.mem_singleton.1 retired
      | _ => cases taken
    | phase dry goes =>
      cases goes with
      | served phase recognised =>
        exact Or.inr ⟨_, reported taken, dry, Or.inl phase, recognised, rfl, landed⟩
      | reset _ | release _ _ | retire _ => cases List.mem_singleton.1 taken
      | boundary _ _ | asked _ _ | unasked _ _ | unserved _ _ => cases taken
    | wake dry phase free recognised =>
      exact Or.inr ⟨_, reported taken, dry, Or.inr phase, recognised, rfl, landed⟩
  | announce => cases taken
  | call call => cases taken
  | access byte =>
    -- An idle cycle reports the end of SYNC at most.
    simp only [Occurrence.reports] at taken
    split at taken
    · unfold Processor.idled at taken
      dsimp only at taken
      split at taken
      · split at taken
        · cases List.mem_singleton.1 taken
        · split at taken <;> cases taken
      all_goals cases taken
    · cases taken

/-- The frame of an interrupt is begun here, because it is recognised between two
instructions. -/
structure Occurrence.Begins (o : Occurrence) (interrupt : HardwareInterrupt) : Prop where
  dry : o.before.schedule.pending = []
  phase : o.before.phase = .arbitration
  recognised :
    HardwareInterrupt.recognised o.before.inputs.active o.before.regs.cc = some interrupt
  move : ∃ m, o.event = .move m

/-! ## The log of a history -/

/-- The line a report makes in a log. -/
def Report.notice? : Report → Option Notice
  | .notice line => some line
  | .retired _ => none

/-- The line an occurrence makes in a log. -/
def Occurrence.notice? (o : Occurrence) : Option Notice := o.reports.findSome? (·.notice?)

theorem Occurrence.takes_of_notice? {o : Occurrence} {which : InterruptVector} {pc : Word}
    (noted : o.notice? = some (.vectorTaken which pc)) : o.Takes which := by
  obtain ⟨report, mem, same⟩ := List.exists_of_findSome?_eq_some noted
  cases report with
  | notice line =>
    cases same
    exact ⟨pc, mem⟩
  | retired regs => cases same

theorem Monitor.hearAll_logging (notes : List Notice) (reports : List Report) :
    logging.hearAll notes reports = notes ++ reports.filterMap (·.notice?) := by
  induction reports generalizing notes with
  | nil => exact (List.append_nil notes).symm
  | cons report reports ih =>
    change logging.hearAll (logging.hear notes report) reports = _
    rw [ih]
    cases report with
    | notice line =>
      rw [List.filterMap_cons]
      exact List.append_assoc notes [line] _
    | retired regs => rfl

/-- Accesses and announcements are not in the log. -/
theorem Monitor.follow_logging (notes : List Notice) (o : Occurrence) :
    logging.follow notes o = notes ++ o.reports.filterMap (·.notice?) := by
  rw [← hearAll_logging]
  obtain ⟨c, event⟩ := o
  cases event with
  | access byte =>
    have unwatched : (if c.operandDue then logging.watch c.access byte notes else notes) =
        notes := by
      split
      · cases c.access <;> rfl
      · rfl
    simp only [follow, unwatched]
  | _ => rfl

/-- No occurrence makes more than one line. -/
theorem Occurs.notices {allowed : HostCall → Prop} {c d : Processor} {event : Event}
    (occurs : Occurs allowed c event d) (h : c.schedule.Consistent) :
    (⟨c, event⟩ : Occurrence).reports.filterMap (·.notice?) =
      (⟨c, event⟩ : Occurrence).notice?.toList := by
  cases event with
  | move m =>
    obtain ⟨happens, _⟩ := occurs.moveHappens h
    cases happens with
    | @act action rest pending => cases action <;> rfl
    | phase dry goes => cases goes <;> rfl
    | wake dry phase free recognised => rfl
  | announce => rfl
  | call call => rfl
  | access byte =>
    simp only [Occurrence.notice?, Occurrence.reports]
    split
    · unfold Processor.idled
      dsimp only
      split
      · split
        · rfl
        · split <;> rfl
      all_goals rfl
    · rfl

theorem Path.follow_logging {allowed : HostCall → Prop} {c d : Processor}
    {past : List Occurrence} (path : Path allowed c past d) (h : c.schedule.Consistent)
    (notes : List Notice) :
    past.foldl Monitor.logging.follow notes = notes ++ past.filterMap (·.notice?) := by
  induction path with
  | here => exact (List.append_nil _).symm
  | @on past d e event before occurs ih =>
    have line := occurs.notices (before.consistent h)
    rw [List.foldl_append, List.foldl_cons, List.foldl_nil, Monitor.follow_logging, line, ih,
      List.filterMap_append, List.append_assoc]
    congr 2

/-- A log lists what happened. -/
theorem Board.Past.notes_logging {β : Type} {allowed : HostCall → Prop}
    {b b' : Board (Recorded β) (List Notice)} {past : List Occurrence}
    (happened : Past .logging allowed b past b') (h : b.cpu.schedule.Consistent) :
    b'.notes = b.notes ++ past.filterMap (·.notice?) := by
  rw [happened.notes, happened.path.follow_logging h]

/-- A line in the log stands for something that happened. -/
theorem exists_of_noted {past : List Occurrence} {earlier later : List Notice} {line : Notice}
    (noted : past.filterMap (·.notice?) = earlier ++ line :: later) :
    ∃ front o back, past = front ++ o :: back ∧ o.notice? = some line ∧
      back.filterMap (·.notice?) = later := by
  obtain ⟨front, rest, rfl, _, here⟩ := List.filterMap_eq_append_iff.1 noted
  obtain ⟨more, o, back, rfl, _, line, after⟩ := List.filterMap_eq_cons_iff.1 here
  exact ⟨front ++ more, o, back, (List.append_assoc front more _).symm, line, after⟩

/-! ## Running a history

Apart from calls, nothing is left open but the bytes on the data lines. So a history can
be computed, and this is how concrete ones are found. -/

namespace Processor

/-- What happens next, with this byte on the data lines, and what it leads to. -/
def next (c : Processor) (byte : Byte) : Event × Processor :=
  match c.move?, c.wake? with
  | some m, _ | none, some m => (.move m, m.landed)
  | none, none =>
    if c.asksFirst then (.announce, c.announce)
    else
      match c.due? with
      | some cycle => (.access byte, c.carryOut cycle byte)
      | none => (.access byte, c.idled.state)

theorem occurs_next (allowed : HostCall → Prop) (c : Processor) (byte : Byte) :
    Occurs allowed c (c.next byte).1 (c.next byte).2 := by
  unfold next
  split
  · next due => exact .move due
  · next due => exact .wake due
  · next still asleep =>
    split
    · next asks => exact .announce asks
    · next unasked =>
      rw [Bool.not_eq_true] at unasked
      split
      · next due => exact .cycle byte due unasked
      · next idle => exact .idle byte still asleep idle

theorem next_ne_call (c : Processor) (byte : Byte) (call : HostCall) :
    (c.next byte).1 ≠ .call call := by
  unfold next
  split
  · exact nofun
  · exact nofun
  · split
    · exact nofun
    · split <;> exact nofun

/-- The next so many occurrences, with a memory that answers, and what they lead to. -/
def follow (ram : Ram) : Nat → Processor → List Occurrence × Processor
  | 0, c => ([], c)
  | n + 1, c =>
    let next := c.next (ram c.access.address)
    let rest := follow ram n next.2
    (⟨c, next.1⟩ :: rest.1, rest.2)

theorem path_follow (allowed : HostCall → Prop) (ram : Ram) (n : Nat) (c : Processor) :
    Path allowed c (c.follow ram n).1 (c.follow ram n).2 := by
  induction n generalizing c with
  | zero => exact .here
  | succ n ih => exact (Path.single (occurs_next allowed c _)).trans (ih _)

theorem follow_ne_call (ram : Ram) (n : Nat) (c : Processor) :
    ∀ o ∈ (c.follow ram n).1, ∀ call, o.event ≠ .call call := by
  induction n generalizing c with
  | zero => exact fun _ mem => nomatch mem
  | succ n ih =>
    intro o mem
    rcases List.mem_cons.1 mem with rfl | mem
    · exact next_ne_call c _
    · exact ih _ o mem

/-- The same with the lines driven to other levels on the way. -/
def followDriven (ram : Ram) (n : Nat) (levels : Levels) (k : Nat) (c : Processor) :
    List Occurrence × Processor :=
  let front := c.follow ram n
  let back := (front.2.withLevels levels).follow ram k
  (front.1 ++ [⟨front.2, .call (.drive levels)⟩] ++ back.1, back.2)

theorem path_followDriven {allowed : HostCall → Prop} (ram : Ram) (n : Nat) {levels : Levels}
    (drives : allowed (.drive levels)) (k : Nat) (c : Processor) :
    Path allowed c (c.followDriven ram n levels k).1 (c.followDriven ram n levels k).2 :=
  (Path.on (path_follow allowed ram n c) (.call drives)).trans (path_follow allowed ram k _)

end Processor

/-- A small program: it loads S, lets every interrupt through and stays in a loop, to
which the handlers go as well. -/
def waitingLoop : Ram :=
  (Ram.overlay (fun _ => 0x00) 0x1000 [0x10, 0xCE, 0x80, 0x00, 0x1C, 0xAF, 0x20, 0xFE]).overlay
    0xFFF6 [0x10, 0x06, 0x10, 0x06, 0x10, 0x06, 0x10, 0x06, 0x10, 0x00]

/-- A board on which it is about to run. -/
def waitingBoard : Board (Recorded Ram) (List Notice) := ⟨.powerOn, ⟨waitingLoop, #[]⟩, []⟩

end Sim6809
