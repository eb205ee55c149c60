/-
Nothing is lost in a save-state, and nothing in it is optional.

What is written of a processor is a tree of records, down to registers, lines and the slots of
the schedule. A reader has to take it back as it was, and some latitude goes with the format:
the members of a record may come in any order, and a record may hold members that nobody asks
for (`Json.Loosens`). There is no latitude the other way. A record without one of its own
members, and a schedule without one of its slots, are refused (`Json.Removable`).

Both are shown for one type at a time, as `Sturdy`. A value without parts is written in one way
only (`Sturdy.of_leaf`), a row of values is read only at its length (`sturdy_vector`), and a
record is as sturdy as its fields are (`RecordOf.sturdy`). What this needs to know about the
reader of a record is that it finds each field by its name, and reads nothing else
(`Codec.RecordOf`).
-/
import Mathlib
import Sim6809.Proofs.Frames
import Sim6809.SaveState

set_option autoImplicit false

namespace Sim6809

/-! ## Latitude of the format -/

namespace Json

/-- The records of the format, by the names of their members. All other objects hold the value
of an alternative under its tag. -/
def records : List (List String) :=
  [["op", "mode"],
    ["ops", "len", "pos"],
    ["halt", "nmi", "firq", "irq"],
    ["input", "latched", "active", "nmi_armed", "nmi_previous"],
    ["d", "x", "y", "u", "s", "pc", "dp", "cc"],
    ["regs", "lines", "state", "queue", "instr", "page", "postbyte", "ea", "data", "result",
      "hooked", "total_cycles"]]

/-- The same tree, except that the members of a record may be in another order, and that there
may be more of them. -/
inductive Loosens : Json → Json → Prop
  | same (json : Json) : Loosens json json
  /-- Each member holds what it held, loosened in turn, and what is added has other names. -/
  | record {members added loose : List (String × Json)} (known : members.map (·.1) ∈ records)
      (held : String → Json)
      (loosened : ∀ name json, (name, json) ∈ members → Loosens json (held name))
      (other : ∀ entry ∈ added, entry.1 ∉ members.map (·.1))
      (order : loose.Perm (members.map (fun entry => (entry.1, held entry.1)) ++ added)) :
      Loosens (.object members) (.object loose)

/-- A path to a member of a record, or to an element of an array that a record holds. -/
inductive Removable : List String → Json → Prop
  | member {members : List (String × Json)} {name : String}
      (known : members.map (·.1) ∈ records) (mem : name ∈ members.map (·.1)) :
      Removable [name] (.object members)
  | element {items : List Json} {segment : String} {index : Nat}
      (position : segment.toNat? = some index) (bound : index < items.length) :
      Removable [segment] (.array items)
  | inside {members : List (String × Json)} {name : String} {json : Json} {path : List String}
      (known : members.map (·.1) ∈ records) (mem : (name, json) ∈ members)
      (more : Removable path json) : Removable (name :: path) (.object members)

/-- What is written without parts of its own: a scalar, a tag, or a tag and what it holds. -/
def isLeaf : Json → Bool
  | array _ => false
  | object members => members.length ≤ 1
  | _ => true

variable {members written : List (String × Json)} {json loose : Json} {name : String}

/-- No record has two members of one name. -/
theorem nodup_of_mem_records {names : List String} (known : names ∈ records) : names.Nodup := by
  have each : ∀ names ∈ records, names.Nodup := by decide
  exact each _ known

/-- A record has two members at least. -/
theorem unknown_of_isLeaf (leaf : (object members).isLeaf = true) :
    members.map (·.1) ∉ records := by
  have each : ∀ names ∈ records, 2 ≤ names.length := by decide
  intro known
  have two := each _ known
  have one : members.length ≤ 1 := of_decide_eq_true leaf
  rw [List.length_map] at two
  omega

/-! ### Members under their names -/

/-- A name is looked up where it stands, if nothing else stands under it. -/
theorem lookup_of_mem (mem : (name, json) ∈ written)
    (only : ∀ value, (name, value) ∈ written → value = json) :
    written.lookup name = some json := by
  induction written with
  | nil => cases mem
  | cons entry rest ih =>
    obtain ⟨key, value⟩ := entry
    rw [List.lookup_cons]
    by_cases here : name = key
    · subst here
      rw [beq_self_eq_true, only value List.mem_cons_self]
    · rw [beq_false_of_ne here]
      refine ih ?_ fun value later => only value (List.mem_cons_of_mem _ later)
      refine (List.mem_cons.1 mem).resolve_left ?_
      rintro ⟨⟩
      exact here rfl

/-- Where names differ, each has one value. -/
theorem unique_of_nodup {value : Json} (nodup : (members.map (·.1)).Nodup)
    (mem : (name, json) ∈ members) (again : (name, value) ∈ members) : value = json := by
  induction members with
  | nil => cases mem
  | cons entry rest ih =>
    obtain ⟨fresh, nodup⟩ := List.nodup_cons.1 nodup
    have later : ∀ value, (name, value) ∈ rest → name ∈ rest.map (·.1) :=
      fun value mem => List.mem_map.2 ⟨_, mem, rfl⟩
    rcases List.mem_cons.1 mem with rfl | first <;> rcases List.mem_cons.1 again with same | second
    · cases same
      rfl
    · exact absurd (later _ second) fresh
    · subst same
      exact absurd (later _ first) fresh
    · exact ih nodup first second

/-- In a loosened record each member is found under its name. -/
theorem Loosens.lookup (nodup : (members.map (·.1)).Nodup) (h : Loosens (.object members) loose) :
    ∃ written, loose = .object written ∧ ∀ name json, (name, json) ∈ members →
      ∃ found, written.lookup name = some found ∧ Loosens json found := by
  cases h with
  | same =>
    refine ⟨members, rfl, fun name json mem => ⟨json, lookup_of_mem mem ?_, .same _⟩⟩
    exact fun value again => unique_of_nodup nodup mem again
  | @record _ added loose _ held loosened other order =>
    refine ⟨loose, rfl, fun name json mem => ⟨held name, ?_, loosened name json mem⟩⟩
    refine lookup_of_mem (order.mem_iff.2 (List.mem_append_left _ ?_)) fun value there => ?_
    · exact List.mem_map.2 ⟨(name, json), mem, rfl⟩
    · rcases List.mem_append.1 (order.mem_iff.1 there) with known | unknown
      · obtain ⟨_, _, ⟨⟩⟩ := List.mem_map.1 known
        rfl
      · have kept : name ∈ members.map (·.1) := List.mem_map.2 ⟨_, mem, rfl⟩
        exact absurd kept (other _ unknown)

theorem lookup_insertMember (name : String) (value : Json) (written : List (String × Json)) :
    (insertMember name value written).lookup name = some value := by
  induction written with
  | nil => simp [insertMember]
  | cons entry rest ih =>
    obtain ⟨key, old⟩ := entry
    by_cases here : key = name
    · simp [insertMember, here]
    · have other : (name == key) = false := beq_false_of_ne (Ne.symm here)
      simp [insertMember, here, List.lookup_cons, other, ih]

theorem lookup_filter_ne (name : String) (written : List (String × Json)) :
    (written.filter fun entry => entry.1 != name).lookup name = none := by
  rw [List.lookup_eq_none_iff]
  intro entry mem
  have other := (List.mem_filter.1 mem).2
  rw [bne_comm]
  exact other

/-- A member that was removed is gone. -/
theorem edit?_member (name : String) (written : List (String × Json)) :
    (object written).edit? (.remove [name]) =
      some (.object (written.filter fun entry => entry.1 != name)) :=
  rfl

/-- What is removed further inside is changed there. -/
theorem edit?_inside {path : List String} {found rest : Json} (inner : path ≠ [])
    (here : written.lookup name = some found) (removed : found.edit? (.remove path) = some rest) :
    (object written).edit? (.remove (name :: path)) =
      some (.object (insertMember name rest written)) := by
  cases path with
  | nil => exact absurd rfl inner
  | cons segment path =>
    change updateAt? removeChild? (name :: segment :: path) (object written) = _
    rw [updateAt?]
    · change (written.lookup name).bind _ = _
      rw [here]
      change (updateAt? removeChild? (segment :: path) found).bind _ = _
      rw [show updateAt? removeChild? (segment :: path) found = some rest from removed]
      rfl
    · exact nofun

theorem Removable.ne_nil {path : List String} (h : Removable path json) : path ≠ [] := by
  cases h <;> exact nofun

end Json

open Json

/-! ## Types that lose nothing -/

/-- Whatever is written is read back from any tree it may be loosened to, and from no tree that
has lost a part. -/
structure Sturdy (α : Type) [Codec α] : Prop where
  tolerant : ∀ (value : α) (json : Json), Loosens (Codec.encode value) json →
    Codec.decode json = some value
  strict : ∀ (value : α) (json : Json) (path : List String), Loosens (Codec.encode value) json →
    Removable path (Codec.encode value) → ∃ rest, json.edit? (.remove path) = some rest ∧
      Codec.decode (α := α) rest = none

/-- A leaf is written in one way, and has no parts. -/
theorem Sturdy.of_leaf {α : Type} [Codec α]
    (leaf : ∀ value : α, (Codec.encode value).isLeaf = true) : Sturdy α where
  tolerant value json loosens := by
    have whole := leaf value
    generalize written : Codec.encode value = tree at loosens whole
    cases loosens with
    | same =>
      rw [← written]
      exact Codec.decode_encode value
    | record known => exact absurd known (unknown_of_isLeaf whole)
  strict value json path _ removable := by
    have whole := leaf value
    generalize Codec.encode value = tree at removable whole
    cases removable with
    | member known _ => exact absurd known (unknown_of_isLeaf whole)
    | element _ _ => cases whole
    | inside known _ _ => exact absurd known (unknown_of_isLeaf whole)

namespace Codec

variable {α : Type}

theorem length_of_mapM [Codec α] {items : List Json} {values : List α}
    (read : items.mapM decode = some values) : values.length = items.length := by
  induction items generalizing values with
  | nil =>
    cases read
    rfl
  | cons item items ih =>
    simp only [List.mapM_cons, Option.bind_eq_bind, Option.bind_eq_some_iff, Option.pure_def,
      Option.some.injEq] at read
    obtain ⟨value, _, rest, more, rfl⟩ := read
    exact congrArg (· + 1) (ih more)

/-- A row is read at its length only. -/
theorem decode_of_length [Codec α] {n : Nat} {items : List Json} (other : items.length ≠ n) :
    decode (α := Vector α n) (.array items) = none := by
  change (items.mapM (decode (α := α))).bind _ = none
  cases read : items.mapM (decode (α := α)) with
  | none => rfl
  | some values => exact dif_neg fun length => other ((length_of_mapM read).symm.trans length)

/-- So it is read with all of its elements, and their own writing has no latitude. -/
theorem sturdy_vector [Codec α] (n : Nat) : Sturdy (Vector α n) where
  tolerant values json loosens := by
    cases loosens with
    | same => exact decode_encode values
  strict values json path loosens removable := by
    cases loosens with
    | same =>
      cases removable with
      | @element _ segment index position bound =>
        refine ⟨.array ((values.toList.map (encode (α := α))).eraseIdx index), ?_,
          decode_of_length ?_⟩
        · change (segment.toNat?.bind _) = _
          rw [position]
          exact if_pos bound
        · rw [List.length_eraseIdx, if_pos bound]
          have length : (values.toList.map (encode (α := α))).length = n := by simp
          omega

/-! ## Records -/

/-- A field of a record: the name of its member, and what it holds. -/
structure Field (α : Type) where
  name : String
  Value : Type
  [codec : Codec Value]
  value : α → Value

attribute [instance] Field.codec

/-- These are the values of the fields, in their order. -/
def Holds (v : α) : List (Field α) → List Json → Prop
  | [], [] => True
  | field :: fields, json :: values => decode json = some (field.value v) ∧ Holds v fields values
  | _, _ => False

/-- The type is written as a record of these fields. It is read from the values that are found
under their names, and from nothing else. -/
structure RecordOf (fields : List (Field α)) [Codec α] : Prop where
  known : fields.map (·.name) ∈ records
  encode_eq : ∀ v : α, encode v =
    .object (fields.map fun field => (field.name, encode (field.value v)))
  decode_iff : ∀ (json : Json) (v : α), decode json = some v ↔
    ∃ values, json.fields? (fields.map (·.name)) = some values ∧ Holds v fields values

variable {v : α} {fields : List (Field α)} {members : List (String × Json)} {values : List Json}

theorem Holds.length (holds : Holds v fields values) : values.length = fields.length := by
  induction fields generalizing values with
  | nil =>
    cases values with
    | nil => rfl
    | cons => exact holds.elim
  | cons field fields ih =>
    cases values with
    | nil => exact holds.elim
    | cons json rest => exact congrArg (· + 1) (ih holds.2)

/-- Found by name, and one at a time. -/
theorem exists_holds_iff : (∃ values, (Json.object members).fields? (fields.map (·.name)) =
      some values ∧ Holds v fields values) ↔
    ∀ field ∈ fields, ∃ json, members.lookup field.name = some json ∧
      decode json = some (field.value v) := by
  induction fields with
  | nil =>
    refine iff_of_true ⟨[], rfl, trivial⟩ nofun
  | cons field fields ih =>
    rw [List.forall_mem_cons, ← ih]
    simp only [fields?, List.map_cons, List.mapM_cons, Option.bind_eq_bind,
      Option.bind_eq_some_iff, Option.pure_def, Option.some.injEq]
    constructor
    · rintro ⟨_, ⟨json, found, rest, more, rfl⟩, reads, holds⟩
      exact ⟨⟨json, found, reads⟩, rest, more, holds⟩
    · rintro ⟨⟨json, found, reads⟩, rest, more, holds⟩
      exact ⟨_, ⟨json, found, rest, more, rfl⟩, reads, holds⟩

namespace RecordOf

variable [Codec α]

/-- The members of what is written have the names of the fields. -/
theorem known_map (h : RecordOf fields) (v : α) :
    (fields.map fun field => (field.name, encode (field.value v))).map (·.1) ∈ records := by
  rw [List.map_map]
  exact h.known

/-- A record is refused if one of its fields is. -/
theorem refuses (h : RecordOf fields) {field : Field α} (mem : field ∈ fields)
    (refused : ∀ json, members.lookup field.name = some json →
      decode (α := field.Value) json = none) : decode (α := α) (.object members) = none := by
  cases read : decode (α := α) (.object members) with
  | none => rfl
  | some v =>
    obtain ⟨json, found, reads⟩ := exists_holds_iff.1 ((h.decode_iff _ v).1 read) field mem
    rw [refused json found] at reads
    cases reads

/-- A record is as sturdy as its fields are. -/
theorem sturdy (h : RecordOf fields) (each : ∀ field ∈ fields, Sturdy field.Value) : Sturdy α := by
  have nodup : ∀ v : α, ((fields.map fun field =>
      (field.name, encode (field.value v))).map (·.1)).Nodup :=
    fun v => nodup_of_mem_records (h.known_map v)
  refine ⟨fun v json loosens => ?_, fun v json path loosens removable => ?_⟩
  · rw [h.encode_eq] at loosens
    obtain ⟨written, rfl, found⟩ := loosens.lookup (nodup v)
    refine (h.decode_iff _ v).2 (exists_holds_iff.2 fun field mem => ?_)
    obtain ⟨json, here, loose⟩ := found field.name _ (List.mem_map.2 ⟨field, mem, rfl⟩)
    exact ⟨json, here, (each field mem).tolerant _ _ loose⟩
  · rw [h.encode_eq] at loosens removable
    obtain ⟨written, rfl, found⟩ := loosens.lookup (nodup v)
    cases removable with
    | @member _ name _ named =>
      rw [List.map_map] at named
      obtain ⟨field, mem, rfl⟩ := List.mem_map.1 named
      refine ⟨_, edit?_member _ written, h.refuses mem fun json there => ?_⟩
      rw [Function.comp_apply, lookup_filter_ne] at there
      cases there
    | @inside _ name _ path _ named more =>
      obtain ⟨field, mem, ⟨⟩⟩ := List.mem_map.1 named
      obtain ⟨json, here, loose⟩ := found field.name _ (List.mem_map.2 ⟨field, mem, rfl⟩)
      obtain ⟨rest, removed, refused⟩ := (each field mem).strict _ _ _ loose more
      refine ⟨_, edit?_inside more.ne_nil here removed, h.refuses mem fun json there => ?_⟩
      rw [lookup_insertMember] at there
      cases there
      exact refused

end RecordOf

/-! ## The types of the format -/

/-- A field, by its projection. -/
def field {β : Type} [Codec β] (name : String) (value : α → β) : Field α := ⟨name, β, value⟩

/-- One field of a record is read after another. What is known of those before it is kept. -/
theorem reads_cons {β : Type} [Codec β] {name : String} {value : α → β} {json : Json}
    {read : β → Option α} {before : Prop}
    (rest : ∀ b, read b = some v ↔ (before ∧ b = value v) ∧ Holds v fields values) :
    (decode json >>= read) = some v ↔
      before ∧ Holds v (field name value :: fields) (json :: values) := by
  rw [Option.bind_eq_bind, Option.bind_eq_some_iff]
  constructor
  · rintro ⟨b, found, reads⟩
    obtain ⟨⟨kept, rfl⟩, holds⟩ := (rest b).1 reads
    exact ⟨kept, found, holds⟩
  · rintro ⟨kept, found, holds⟩
    exact ⟨value v, found, (rest _).2 ⟨⟨kept, rfl⟩, holds⟩⟩

/-- What is read where the values are found is decided by them. -/
theorem found_iff {json : Json} {read : Option α}
    (found : json.fields? (fields.map (·.name)) = some values)
    (reads : read = some v ↔ True ∧ Holds v fields values) :
    read = some v ↔ ∃ values, json.fields? (fields.map (·.name)) = some values ∧
      Holds v fields values := by
  rw [found, reads, true_and]
  exact ⟨fun holds => ⟨values, rfl, holds⟩, fun ⟨_, same, holds⟩ => Option.some.inj same ▸ holds⟩

/-- Where they are not found nothing is read. -/
theorem none_iff {json : Json} (other : ∀ values, values.length = fields.length →
      json.fields? (fields.map (·.name)) ≠ some values) :
    none = some v ↔ ∃ values, json.fields? (fields.map (·.name)) = some values ∧
      Holds v fields values :=
  iff_of_false nofun fun ⟨values, found, holds⟩ => other values holds.length found

def instructionFields : List (Field Instruction) :=
  [field "op" Instruction.op, field "mode" Instruction.mode]

def scheduleFields : List (Field Schedule) :=
  [field "ops" Schedule.slots, field "len" Schedule.filled, field "pos" Schedule.cursor]

def levelsFields : List (Field Levels) :=
  [field "halt" Levels.halt, field "nmi" Levels.nmi, field "firq" Levels.firq,
    field "irq" Levels.irq]

def inputsFields : List (Field Inputs) :=
  [field "input" Inputs.live, field "latched" Inputs.latched, field "active" Inputs.active,
    field "nmi_armed" Inputs.nmiArmed, field "nmi_previous" Inputs.nmiPrevious]

def registerFileFields : List (Field RegisterFile) :=
  [field "d" RegisterFile.d, field "x" RegisterFile.x, field "y" RegisterFile.y,
    field "u" RegisterFile.u, field "s" RegisterFile.s, field "pc" RegisterFile.pc,
    field "dp" RegisterFile.dp, field "cc" RegisterFile.cc]

def processorFields : List (Field Processor) :=
  [field "regs" Processor.regs, field "lines" Processor.inputs, field "state" Processor.phase,
    field "queue" Processor.schedule, field "instr" Processor.instruction,
    field "page" Processor.page, field "postbyte" Processor.postbyte, field "ea" Processor.ea,
    field "data" Processor.data, field "result" Processor.result,
    field "hooked" Processor.announced, field "total_cycles" Processor.cycles]

theorem recordOf_instruction : RecordOf instructionFields where
  known := by decide
  encode_eq _ := rfl
  decode_iff json v := by
    unfold instCodecInstruction
    dsimp only
    split
    · next found =>
      refine found_iff found ?_
      repeat refine reads_cons fun _ => ?_
      cases v
      simp [Holds]
    · next other => exact none_iff fun | [_, _], _ => other _ _

theorem recordOf_schedule : RecordOf scheduleFields where
  known := by decide
  encode_eq _ := rfl
  decode_iff json v := by
    unfold instCodecSchedule
    dsimp only
    split
    · next found =>
      refine found_iff found ?_
      repeat refine reads_cons fun _ => ?_
      cases v
      simp [Holds, and_assoc]
    · next other => exact none_iff fun | [_, _, _], _ => other _ _ _

theorem recordOf_levels : RecordOf levelsFields where
  known := by decide
  encode_eq _ := rfl
  decode_iff json v := by
    unfold instCodecLevels
    dsimp only
    split
    · next found =>
      refine found_iff found ?_
      repeat refine reads_cons fun _ => ?_
      cases v
      simp [Holds, and_assoc]
    · next other => exact none_iff fun | [_, _, _, _], _ => other _ _ _ _

theorem recordOf_inputs : RecordOf inputsFields where
  known := by decide
  encode_eq _ := rfl
  decode_iff json v := by
    unfold instCodecInputs
    dsimp only
    split
    · next found =>
      refine found_iff found ?_
      repeat refine reads_cons fun _ => ?_
      cases v
      simp [Holds, and_assoc]
    · next other => exact none_iff fun | [_, _, _, _, _], _ => other _ _ _ _ _

theorem recordOf_registerFile : RecordOf registerFileFields where
  known := by decide
  encode_eq _ := rfl
  decode_iff json v := by
    unfold instCodecRegisterFile
    dsimp only
    split
    · next found =>
      refine found_iff found ?_
      repeat refine reads_cons fun _ => ?_
      cases v
      simp [Holds, and_assoc]
    · next other => exact none_iff fun | [_, _, _, _, _, _, _, _], _ => other _ _ _ _ _ _ _ _

theorem recordOf_processor : RecordOf processorFields where
  known := by decide
  encode_eq _ := rfl
  decode_iff json v := by
    unfold instCodecProcessor
    dsimp only
    split
    · next found =>
      refine found_iff found ?_
      repeat refine reads_cons fun _ => ?_
      cases v
      simp [Holds, and_assoc]
    · next other =>
      exact none_iff fun
        | [_, _, _, _, _, _, _, _, _, _, _, _], _ => other _ _ _ _ _ _ _ _ _ _ _ _

theorem sturdy_bool : Sturdy Bool := .of_leaf fun _ => rfl

theorem sturdy_byte : Sturdy Byte := .of_leaf fun _ => rfl

theorem sturdy_word : Sturdy Word := .of_leaf fun _ => rfl

theorem sturdy_cycleCount : Sturdy CycleCount := .of_leaf fun _ => rfl

theorem sturdy_conditionCodes : Sturdy ConditionCodes := .of_leaf fun _ => rfl

theorem sturdy_phase : Sturdy Phase := .of_leaf fun phase => by cases phase <;> rfl

theorem sturdy_addressMode : Sturdy AddressMode := .of_leaf fun mode => by cases mode <;> rfl

theorem sturdy_operation : Sturdy Operation := .of_leaf fun op => by cases op <;> rfl

theorem sturdy_instruction : Sturdy Instruction := by
  refine recordOf_instruction.sturdy ?_
  simp only [instructionFields, field, List.forall_mem_cons]
  exact ⟨sturdy_operation, sturdy_addressMode, nofun⟩

theorem sturdy_schedule : Sturdy Schedule := by
  refine recordOf_schedule.sturdy ?_
  simp only [scheduleFields, field, List.forall_mem_cons]
  exact ⟨sturdy_vector 32, sturdy_byte, sturdy_byte, nofun⟩

theorem sturdy_levels : Sturdy Levels := by
  refine recordOf_levels.sturdy ?_
  simp only [levelsFields, field, List.forall_mem_cons]
  exact ⟨sturdy_bool, sturdy_bool, sturdy_bool, sturdy_bool, nofun⟩

theorem sturdy_inputs : Sturdy Inputs := by
  refine recordOf_inputs.sturdy ?_
  simp only [inputsFields, field, List.forall_mem_cons]
  exact ⟨sturdy_levels, sturdy_levels, sturdy_levels, sturdy_bool, sturdy_bool, nofun⟩

theorem sturdy_registerFile : Sturdy RegisterFile := by
  refine recordOf_registerFile.sturdy ?_
  simp only [registerFileFields, field, List.forall_mem_cons]
  exact ⟨sturdy_word, sturdy_word, sturdy_word, sturdy_word, sturdy_word, sturdy_word,
    sturdy_byte, sturdy_conditionCodes, nofun⟩

theorem sturdy_processor : Sturdy Processor := by
  refine recordOf_processor.sturdy ?_
  simp only [processorFields, field, List.forall_mem_cons]
  exact ⟨sturdy_registerFile, sturdy_inputs, sturdy_phase, sturdy_schedule, sturdy_instruction,
    sturdy_byte, sturdy_byte, sturdy_word, sturdy_word, sturdy_word, sturdy_bool,
    sturdy_cycleCount, nofun⟩

end Codec

/-- **A save-state loses nothing, and each part of it is needed.** Every processor, reachable or
not, is read back from what is written of it, also after the members of its records have been
put in any order and others have been added to them. From such a tree no member of a record can
be removed, nor a slot of the schedule, without its being refused. So no two processors are
written alike. -/
theorem save_state_lossless (s : Processor) :
    (∀ json, Loosens (Codec.encode s) json → Codec.decode json = some s) ∧
    (∀ json path, Loosens (Codec.encode s) json → Removable path (Codec.encode s) →
      ∃ rest, json.edit? (.remove path) = some rest ∧
        Codec.decode (α := Processor) rest = none) ∧
    ∀ t : Processor, Codec.encode t = Codec.encode s → t = s := by
  refine ⟨Codec.sturdy_processor.tolerant s, Codec.sturdy_processor.strict s, fun t alike => ?_⟩
  have read := Codec.decode_encode t
  rw [alike, Codec.decode_encode] at read
  exact (Option.some.inj read).symm

/-- One record, with its members in another order and some added. -/
theorem Json.Loosens.of_perm {members added loose : List (String × Json)}
    (known : members.map (·.1) ∈ records) (other : ∀ entry ∈ added, entry.1 ∉ members.map (·.1))
    (order : loose.Perm (members ++ added)) : Loosens (.object members) (.object loose) := by
  have found : ∀ name json, (name, json) ∈ members → members.lookup name = some json :=
    fun name json mem => lookup_of_mem mem fun value again =>
      unique_of_nodup (nodup_of_mem_records known) mem again
  refine .record known (fun name => (members.lookup name).getD .null) ?_ other ?_
  · intro name json mem
    rw [found name json mem]
    exact .same json
  · have same : members.map (fun entry => (entry.1, (members.lookup entry.1).getD .null)) =
        members := by
      refine (List.map_congr_left ?_).trans (List.map_id members)
      rintro ⟨name, json⟩ mem
      rw [found name json mem]
      rfl
    rw [same]
    exact order

/-- SYNC has been fetched, behind `PSHS` with all registers and `PULS CC,A,B,DP`. -/
def syncFetched : Processor :=
  (Board.clocks .silent (.replicate 27 .low) (⟨Processor.powerOn.setPc 0x1000,
    Ram.overlay (fun _ => 0x12) 0x1000 [0x34, 0xFF, 0x35, 0x0F, 0x13], ()⟩ : Board Ram Unit)).cpu

/-- A state in the middle of an instruction with its members backwards and a comment. The schedule
holds steps of three instructions, those of the first two not wanted any more, and yet none of
them can be removed. -/
theorem save_state_lossless_reversed :
    (syncFetched.schedule.filled = 2 ∧ syncFetched.schedule.cursor = 0 ∧
      syncFetched.schedule.slots.toList.take 12 =
        [.cycle .peekPc, .action (.enter .syncWait),
          .cycle (.pull .s .b), .cycle (.pull .s .dp), .cycle (.peekStack .s),
          .cycle (.push .s (.high .y)), .cycle (.push .s (.low .x)), .cycle (.push .s (.high .x)),
          .cycle (.push .s .dp), .cycle (.push .s .b), .cycle (.push .s .a),
          .cycle (.push .s .cc)]) ∧
    ∃ members, Codec.encode syncFetched = .object members ∧
      Codec.decode (.object (("comment", .null) :: members.reverse)) = some syncFetched ∧
      ∃ rest, (object (("comment", .null) :: members.reverse)).edit?
          (.remove ["queue", "ops", "11"]) = some rest ∧
        Codec.decode (α := Processor) rest = none := by
  refine ⟨by decide +kernel, ?_⟩
  obtain ⟨tolerant, strict, _⟩ := save_state_lossless syncFetched
  have written := Codec.recordOf_processor.encode_eq syncFetched
  have known := Codec.recordOf_processor.known_map syncFetched
  rw [written] at tolerant strict
  generalize members_eq : (Codec.processorFields.map fun field =>
    (field.name, Codec.encode (field.value syncFetched))) = members
    at written known tolerant strict
  -- The order does not matter, and nobody reads the comment.
  have order : (("comment", .null) :: members.reverse).Perm (members ++ [("comment", .null)]) :=
    (List.perm_append_singleton _ _).symm.trans (members.reverse_perm.append_right _)
  have loosens := Loosens.of_perm known (by rw [← members_eq]; decide) order
  -- The path leads through two records to an element.
  have slot : Removable ["11"] (Codec.encode syncFetched.schedule.slots) :=
    .element (show "11".toNat? = some 11 from Nat.toNat?_repr 11)
      (by rw [List.length_map, Vector.length_toList]; decide)
  have inQueue : Removable ["ops", "11"] (Codec.encode syncFetched.schedule) := by
    rw [Codec.recordOf_schedule.encode_eq]
    exact .inside (Codec.recordOf_schedule.known_map _)
      (by simp [Codec.scheduleFields, Codec.field]) slot
  have removable : Removable ["queue", "ops", "11"] (.object members) := by
    refine .inside known ?_ inQueue
    rw [← members_eq]
    simp [Codec.processorFields, Codec.field]
  exact ⟨members, written, tolerant _ loosens, strict _ _ loosens removable⟩

end Sim6809
