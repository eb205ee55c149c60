/-
The stages of the inputs, read off what has happened to them.

The processor sees its inputs through two stages and two hidden bits, and every bus cycle
moves them all on. What they hold is here said without them, in terms of the history alone:
the list of all that happened to the inputs since power-on (`Happening`). Nearly every answer
has the form "the last thing of some kind was this, and that is what the lines were then", so
there is one notion for it, `Stands`, and one lemma about how it goes on (`stands_snoc`).

A stage that follows a level holds what the last sample put there; a reset counts as a sample,
of which only HALT is kept. NMI is harder, since its two conditions look at different times. An
edge is seen between one sample and the next, whether or not it counts; whether it counts
depends on the arming at the second of them; and taking the interrupt forgets the edge but not
the level it ended at. So each of them is a statement of its own (`Low`, `Armed`, `Caught`),
with its own induction on the history.
-/
import Mathlib.Data.List.Induction
import Sim6809.Inputs

set_option autoImplicit false

namespace Sim6809

namespace Inputs

/-! ## Histories -/

/-- What happens to the inputs. -/
inductive Happening
  /-- The levels are driven from outside. -/
  | drive (levels : Levels)
  /-- A bus cycle: the latch is copied to the stage that is acted on, and then samples. -/
  | cycle
  | arm
  | acknowledge
  | clear
deriving DecidableEq

namespace Happening

def apply (event : Happening) (i : Inputs) : Inputs :=
  match event with
  | drive levels => { i with live := levels }
  | cycle => i.cycle
  | arm => i.armNmi
  | acknowledge => i.acknowledgeNmi
  | clear => i.clear

/-- The levels it drives. -/
def levels? : Happening → Option Levels
  | drive levels => some levels
  | _ => none

/-- It takes the levels over: a reset does so for HALT, and remembers that of NMI. -/
def samples : Happening → Bool
  | cycle | clear => true
  | drive _ | arm | acknowledge => false

/-- It forgets a latched NMI. -/
def forgets : Happening → Bool
  | acknowledge | clear => true
  | drive _ | cycle | arm => false

/-- It changes what is acted on as NMI: forgets it, or takes it from the latch anew. -/
def replaces (event : Happening) : Bool := event.forgets || event == cycle

end Happening

/-- The inputs after all that happened since power-on, first to last. -/
def after (history : List Happening) : Inputs :=
  history.foldl (fun i event => event.apply i) released

/-- The levels that were driven last. None are at power-on. -/
def driven (history : List Happening) : Levels :=
  (history.filterMap Happening.levels?).getLastD .low

/-- The event happened, after `past`, and none has happened since that undoes it. -/
def Stands (undoes : Happening → Bool) (history past : List Happening) (event : Happening) :
    Prop :=
  ∃ since, history = past ++ event :: since ∧ ∀ later ∈ since, undoes later = false

/-- The levels agree but for NMI. -/
def SameLevels (l m : Levels) : Prop := l.halt = m.halt ∧ l.firq = m.firq ∧ l.irq = m.irq

/-- What reset leaves in the stages. -/
def heldLevels (levels : Levels) : Levels := { Levels.low with halt := levels.halt }

/-- What a stage holds, NMI aside, is up to the last sample: a cycle puts there what is said
of it and what was before it, a reset holds HALT alone, and before the first sample there is
nothing. -/
structure Holds (puts : List Happening → Prop) (stage : Levels) (history : List Happening) :
    Prop where
  cycled : ∀ past, Stands Happening.samples history past .cycle → puts past
  cleared : ∀ past, Stands Happening.samples history past .clear →
    SameLevels stage (heldLevels (driven past))
  unsampled : (∀ event ∈ history, event.samples = false) → SameLevels stage .low

/-- The stage holds what the lines were at the last cycle. -/
def HoldsSample (stage : Levels) : List Happening → Prop :=
  Holds (fun past => SameLevels stage (driven past)) stage

/-- It holds what the lines were a full cycle earlier: at the last sample before that cycle. -/
def HoldsEarlierSample (stage : Levels) : List Happening → Prop :=
  Holds (HoldsSample stage) stage

/-- NMI has been armed, and no reset has disarmed it. -/
def Armed (history : List Happening) : Prop :=
  ∃ past, Stands (· == .clear) history past .arm

/-- NMI was low when the levels were last taken over, by a cycle or by a reset. -/
def Low (history : List Happening) : Prop :=
  ∀ past event, event.samples = true → Stands Happening.samples history past event →
    (driven past).nmi = false

/-- A cycle now would see NMI high, after it was low, while it is armed. -/
def SeesEdge (history : List Happening) : Prop :=
  (driven history).nmi = true ∧ Low history ∧ Armed history

/-- Some cycle did, and NMI has not been forgotten since. -/
def Caught (history : List Happening) : Prop :=
  ∃ past, Stands Happening.forgets history past .cycle ∧ SeesEdge past

/-! ## One more event -/

variable {undoes : Happening → Bool} {history past : List Happening} {event last : Happening}

theorem after_snoc (history : List Happening) (last : Happening) :
    after (history ++ [last]) = last.apply (after history) := by
  rw [after, List.foldl_append]
  rfl

theorem driven_snoc (history : List Happening) (last : Happening) :
    driven (history ++ [last]) = last.levels?.getD (driven history) := by
  rw [driven, List.filterMap_append]
  cases last with
  | drive levels => exact List.getLastD_concat
  | cycle | arm | acknowledge | clear => exact congrArg (List.getLastD · _) (List.append_nil _)

theorem not_stands_nil : ¬Stands undoes [] past event := by
  rintro ⟨since, whole, -⟩
  exact List.append_ne_nil_of_right_ne_nil past (List.cons_ne_nil event since) whole.symm

/-- **One more event** either is the one in question or leaves it as it was, unless it undoes
it. -/
theorem stands_snoc :
    Stands undoes (history ++ [last]) past event ↔
      (past = history ∧ event = last) ∨
        (undoes last = false ∧ Stands undoes history past event) := by
  constructor
  · rintro ⟨since, whole, quiet⟩
    rcases List.eq_nil_or_concat since with rfl | ⟨earlier, newest, rfl⟩
    · obtain ⟨rfl, same⟩ := List.append_inj' whole rfl
      exact Or.inl ⟨rfl, (List.cons.inj same).1.symm⟩
    · rw [List.concat_eq_append] at whole quiet
      rw [← List.cons_append, ← List.append_assoc] at whole
      obtain ⟨rfl, same⟩ := List.append_inj' whole rfl
      obtain rfl := (List.cons.inj same).1
      exact Or.inr ⟨quiet _ (List.mem_append_right _ (List.mem_singleton_self _)), earlier, rfl,
        fun later mem => quiet later (List.mem_append_left _ mem)⟩
  · rintro (⟨rfl, rfl⟩ | ⟨kept, since, rfl, quiet⟩)
    · exact ⟨[], rfl, nofun⟩
    · refine ⟨since ++ [last], by rw [List.append_assoc, List.cons_append], ?_⟩
      intro later mem
      rcases List.mem_append.1 mem with before | newest
      · exact quiet later before
      · rw [List.mem_singleton.1 newest]
        exact kept

/-- An event that undoes is the last that stands. -/
theorem stands_snoc_of_undoes (h : undoes last = true) :
    Stands undoes (history ++ [last]) past event ↔ past = history ∧ event = last := by
  rw [stands_snoc, h]
  exact or_iff_left fun kept => Bool.noConfusion kept.1

/-- An event of another kind, which undoes nothing, changes nothing. -/
theorem stands_snoc_of_ne (h : undoes last = false) (other : event ≠ last) :
    Stands undoes (history ++ [last]) past event ↔ Stands undoes history past event := by
  rw [stands_snoc, h]
  exact ⟨fun either => either.elim (fun now => absurd now.2 other) And.right,
    fun before => Or.inr ⟨rfl, before⟩⟩

/-! ## The levels -/

/-- Nobody but the host drives the levels. -/
theorem live_apply_of_not_drive (i : Inputs) (h : event.levels? = none) :
    (event.apply i).live = i.live := by
  cases event with
  | drive levels => cases h
  | cycle | arm | acknowledge | clear => rfl

theorem live_after (history : List Happening) : (after history).live = driven history := by
  induction history using List.reverseRecOn with
  | nil => rfl
  | append_singleton history last ih =>
    rw [after_snoc, driven_snoc]
    cases last with
    | drive levels => rfl
    | cycle | arm | acknowledge | clear => exact ih

namespace Holds

variable {puts : List Happening → Prop} {stage : Levels}

theorem start : Holds puts .low [] where
  cycled _ stands := absurd stands not_stands_nil
  cleared _ stands := absurd stands not_stands_nil
  unsampled _ := ⟨rfl, rfl, rfl⟩

/-- What is no sample is passed over. -/
theorem snoc (h : Holds puts stage history) (quiet : last.samples = false) :
    Holds puts stage (history ++ [last]) where
  cycled past stands :=
    h.cycled past ((stands_snoc_of_ne quiet (by rintro rfl; cases quiet)).1 stands)
  cleared past stands :=
    h.cleared past ((stands_snoc_of_ne quiet (by rintro rfl; cases quiet)).1 stands)
  unsampled never := h.unsampled fun event mem => never event (List.mem_append_left _ mem)

theorem snoc_cycle (put : puts history) : Holds puts stage (history ++ [.cycle]) where
  cycled past stands := by
    obtain ⟨rfl, -⟩ := (stands_snoc_of_undoes rfl).1 stands
    exact put
  cleared past stands := nomatch ((stands_snoc_of_undoes rfl).1 stands).2
  unsampled never := nomatch never .cycle (List.mem_append_right _ (List.mem_singleton_self _))

theorem snoc_clear (same : SameLevels stage (heldLevels (driven history))) :
    Holds puts stage (history ++ [.clear]) where
  cycled past stands := nomatch ((stands_snoc_of_undoes rfl).1 stands).2
  cleared past stands := by
    obtain ⟨rfl, -⟩ := (stands_snoc_of_undoes rfl).1 stands
    exact same
  unsampled never := nomatch never .clear (List.mem_append_right _ (List.mem_singleton_self _))

end Holds

theorem latched_after (history : List Happening) :
    HoldsSample (after history).latched history := by
  induction history using List.reverseRecOn with
  | nil => exact Holds.start
  | append_singleton history last ih =>
    rw [after_snoc]
    cases last with
    | drive _ | arm => exact ih.snoc rfl
    | acknowledge =>
      -- The latch loses NMI, of which nothing is said.
      have same : HoldsSample (after history).acknowledgeNmi.latched history :=
        ⟨ih.cycled, ih.cleared, ih.unsampled⟩
      exact same.snoc rfl
    | cycle =>
      refine Holds.snoc_cycle ?_
      rw [← live_after]
      exact ⟨rfl, rfl, rfl⟩
    | clear =>
      refine Holds.snoc_clear ?_
      rw [← live_after]
      exact ⟨rfl, rfl, rfl⟩

theorem active_after (history : List Happening) :
    HoldsEarlierSample (after history).active history := by
  induction history using List.reverseRecOn with
  | nil => exact Holds.start
  | append_singleton history last ih =>
    rw [after_snoc]
    cases last with
    | drive _ | arm => exact ih.snoc rfl
    | acknowledge =>
      have same : HoldsEarlierSample (after history).acknowledgeNmi.active history :=
        ⟨fun past stands =>
          ⟨(ih.cycled past stands).cycled, (ih.cycled past stands).cleared,
            (ih.cycled past stands).unsampled⟩,
          ih.cleared, ih.unsampled⟩
      exact same.snoc rfl
    | cycle => exact Holds.snoc_cycle (latched_after history)
    | clear =>
      refine Holds.snoc_clear ?_
      rw [← live_after]
      exact ⟨rfl, rfl, rfl⟩

/-! ## NMI -/

theorem nmiArmed_after (history : List Happening) :
    (after history).nmiArmed = true ↔ Armed history := by
  induction history using List.reverseRecOn with
  | nil => exact ⟨nofun, fun ⟨_, stands⟩ => absurd stands not_stands_nil⟩
  | append_singleton history last ih =>
    rw [after_snoc]
    cases last with
    | arm => exact ⟨fun _ => ⟨history, stands_snoc.2 (Or.inl ⟨rfl, rfl⟩)⟩, fun _ => rfl⟩
    | clear =>
      refine ⟨nofun, ?_⟩
      rintro ⟨past, stands⟩
      cases ((stands_snoc_of_undoes rfl).1 stands).2
    | drive _ | cycle | acknowledge =>
      exact ih.trans (exists_congr fun past => (stands_snoc_of_ne rfl (by nofun)).symm)

theorem low_snoc (quiet : last.samples = false) : Low (history ++ [last]) ↔ Low history := by
  refine forall₃_congr fun past event samples => ?_
  rw [stands_snoc_of_ne quiet (by rintro rfl; rw [quiet] at samples; cases samples)]

theorem low_snoc_of_samples (samples : last.samples = true) :
    Low (history ++ [last]) ↔ (driven history).nmi = false := by
  refine ⟨fun low => low history last samples (stands_snoc.2 (Or.inl ⟨rfl, rfl⟩)), ?_⟩
  intro low past event _ stands
  obtain ⟨rfl, rfl⟩ := (stands_snoc_of_undoes samples).1 stands
  exact low

theorem nmiPrevious_after (history : List Happening) :
    (after history).nmiPrevious = false ↔ Low history := by
  induction history using List.reverseRecOn with
  | nil => exact ⟨fun _ _ _ _ stands => absurd stands not_stands_nil, fun _ => rfl⟩
  | append_singleton history last ih =>
    rw [after_snoc]
    cases last with
    | drive _ | arm | acknowledge => exact ih.trans (low_snoc rfl).symm
    | cycle | clear =>
      rw [low_snoc_of_samples rfl, ← live_after]
      rfl

theorem caught_snoc_cycle : Caught (history ++ [.cycle]) ↔ SeesEdge history ∨ Caught history := by
  constructor
  · rintro ⟨past, stands, edge⟩
    rcases stands_snoc.1 stands with ⟨rfl, -⟩ | ⟨-, before⟩
    · exact Or.inl edge
    · exact Or.inr ⟨past, before, edge⟩
  · rintro (edge | ⟨past, stands, edge⟩)
    · exact ⟨history, stands_snoc.2 (Or.inl ⟨rfl, rfl⟩), edge⟩
    · exact ⟨past, stands_snoc.2 (Or.inr ⟨rfl, stands⟩), edge⟩

/-- The latch after a cycle keeps what it had, and takes an edge. -/
theorem latched_nmi_cycle_iff (i : Inputs) :
    i.cycle.latched.nmi = true ↔
      (i.live.nmi = true ∧ i.nmiPrevious = false ∧ i.nmiArmed = true) ∨ i.latched.nmi = true := by
  change (i.latched.nmi || (i.live.nmi && !i.nmiPrevious && i.nmiArmed)) = true ↔ _
  rw [Bool.or_eq_true, Bool.and_eq_true, Bool.and_eq_true, Bool.not_eq_true', and_assoc, or_comm]

theorem latched_nmi_after (history : List Happening) :
    (after history).latched.nmi = true ↔ Caught history := by
  induction history using List.reverseRecOn with
  | nil => exact ⟨nofun, fun ⟨_, stands, _⟩ => absurd stands not_stands_nil⟩
  | append_singleton history last ih =>
    rw [after_snoc]
    cases last with
    | drive _ | arm =>
      refine ih.trans (exists_congr fun past => and_congr_left fun _ => ?_)
      exact (stands_snoc_of_ne rfl (by nofun)).symm
    | acknowledge | clear =>
      refine ⟨nofun, ?_⟩
      rintro ⟨past, stands, _⟩
      cases ((stands_snoc_of_undoes rfl).1 stands).2
    | cycle =>
      change (after history).cycle.latched.nmi = true ↔ _
      rw [latched_nmi_cycle_iff, caught_snoc_cycle, SeesEdge, live_after, nmiPrevious_after,
        nmiArmed_after, ih]

theorem active_nmi_after (history : List Happening) :
    (after history).active.nmi = true ↔
      ∃ past, Stands Happening.replaces history past .cycle ∧
        (after past).latched.nmi = true := by
  induction history using List.reverseRecOn with
  | nil => exact ⟨nofun, fun ⟨_, stands, _⟩ => absurd stands not_stands_nil⟩
  | append_singleton history last ih =>
    rw [after_snoc]
    cases last with
    | drive _ | arm =>
      refine ih.trans (exists_congr fun past => and_congr_left fun _ => ?_)
      exact (stands_snoc_of_ne rfl (by nofun)).symm
    | acknowledge | clear =>
      refine ⟨nofun, ?_⟩
      rintro ⟨past, stands, _⟩
      cases ((stands_snoc_of_undoes rfl).1 stands).2
    | cycle =>
      refine ⟨fun set => ⟨history, stands_snoc.2 (Or.inl ⟨rfl, rfl⟩), set⟩, ?_⟩
      rintro ⟨past, stands, set⟩
      obtain ⟨rfl, -⟩ := (stands_snoc_of_undoes rfl).1 stands
      exact set

/-- **The inputs are their history.** The levels are those driven last. The latch holds the
last sample of the lines, and what is acted on is the sample before that, so a level is acted
on one full cycle after it is sampled; a reset leaves HALT at its level and nothing else. NMI is
latched exactly if an edge was caught that has not been forgotten, and acted on exactly if it
was latched at the start of the last cycle and has not been forgotten since. -/
theorem after_is_history (history : List Happening) :
    (∀ (i : Inputs) (event : Happening), event.levels? = none → (event.apply i).live = i.live) ∧
    (after history).live = driven history ∧
    HoldsSample (after history).latched history ∧
    HoldsEarlierSample (after history).active history ∧
    ((after history).latched.nmi = true ↔ Caught history) ∧
    ((after history).active.nmi = true ↔
      ∃ past, Stands Happening.replaces history past .cycle ∧
        (after past).latched.nmi = true) :=
  ⟨fun i _ => live_apply_of_not_drive i, live_after history, latched_after history,
    active_after history, latched_nmi_after history, active_nmi_after history⟩

/-- A level that is held while NMI is armed is no edge. -/
example : (after [.drive ⟨false, true, false, false⟩, .cycle, .arm, .cycle]).latched.nmi = false :=
  rfl

end Inputs

end Sim6809
