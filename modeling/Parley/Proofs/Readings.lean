import Parley.Flow.Reader
import Parley.Proofs.DistinctKeys

/-!
# What is read from a record

A record is read when each of its fields is.  The fields are looked up by name,
so what is read depends on the entries of the record and not on their places;
the places only decide which of several faults is reported.
-/

set_option autoImplicit false

namespace Parley

theorem exists_of_bind {ε α β : Type} {x : Except ε α} {f : α → Except ε β} {b : β}
    (h : x.bind f = .ok b) : ∃ a, x = .ok a ∧ f a = .ok b := by
  cases x with
  | error e => cases h
  | ok a => exact ⟨a, rfl, h⟩

/-! ## Decoders -/

namespace Decoder

variable {α : Type} {decode : Decoder α} {encode : α → Json}

/-- What was decoded is decoded again from its written form. -/
def Restores (decode : Decoder α) (encode : α → Json) : Prop :=
  ∀ (value : Json) (a : α), decode value = .ok a → decode (encode a) = .ok a

theorem natural_nat {limit n : Nat} (h : n ≤ limit) : natural limit (.nat n) = .ok n := by
  simp [natural, Json.nat, Json.int, h]

theorem restores_natural (limit : Nat) : Restores (natural limit) Json.nat := by
  intro value n h
  unfold natural at h
  split at h
  · split at h
    · rename_i bounds
      simp only [Bool.and_eq_true, decide_eq_true_eq] at bounds
      injection h with h
      apply natural_nat
      omega
    · cases h
  · cases h

theorem nullable_eq_ok {value : Json} {a : α} (h : nullable decode value = .ok (some a)) :
    value ≠ .null ∧ decode value = .ok a := by
  cases value with
  | null => cases h
  | _ =>
    refine ⟨by rintro ⟨⟩, ?_⟩
    simp only [nullable] at h
    cases read : decode _ with
    | error e => rw [read] at h; cases h
    | ok b => rw [read] at h; cases h; rfl

theorem nullable_of_ne_null {value : Json} {a : α} (nonnull : value ≠ .null)
    (h : decode value = .ok a) : nullable decode value = .ok (some a) := by
  cases value with
  | null => exact absurd rfl nonnull
  | _ => simp only [nullable, h]; rfl

theorem each_map {as : List α} (h : ∀ a ∈ as, decode (encode a) = .ok a) :
    each decode (as.map encode) = .ok as := by
  induction as with
  | nil => rfl
  | cons a as ih =>
    obtain ⟨first, rest⟩ := List.forall_mem_cons.mp h
    simp only [List.map_cons, each, first, ih rest]
    rfl

theorem exists_of_each {items : List Json} {as : List α} (h : each decode items = .ok as) :
    ∀ a ∈ as, ∃ item ∈ items, decode item = .ok a := by
  induction items generalizing as with
  | nil =>
    cases h
    simp
  | cons item items ih =>
    unfold each at h
    cases first : decode item with
    | error e => rw [first] at h; cases h
    | ok a =>
      cases rest : each decode items with
      | error e => rw [first, rest] at h; cases h
      | ok as =>
        rw [first, rest] at h
        cases h
        intro b there
        rcases List.mem_cons.mp there with rfl | there
        · exact ⟨item, List.mem_cons_self, first⟩
        · obtain ⟨source, there, read⟩ := ih rest b there
          exact ⟨source, List.mem_cons_of_mem item there, read⟩

theorem restores_list (h : Restores decode encode) :
    Restores (list decode) fun as => .arr (as.map encode) := by
  intro value as read
  cases value with
  | arr items =>
    apply each_map
    intro a there
    obtain ⟨item, _, decoded⟩ := exists_of_each read a there
    exact h item a decoded
  | _ => cases read

end Decoder

/-! ## Parts of a record -/

namespace Reading

variable {α β : Type}

/-- The part is read as `a`. -/
def Reads (reading : Reading α) (a : α) : Prop :=
  reading.outcome = .ok a

theorem result_eq_ok {reading : Reading α} {a : α} : reading.result = .ok a ↔ reading.Reads a := by
  obtain ⟨outcome⟩ := reading
  cases outcome <;> simp [result, Reads, Except.mapError]

@[simp] theorem reads_ok {a b : α} : (ok a).Reads b ↔ a = b := by
  simp [ok, Reads]

@[simp] theorem not_reads_fault {position : Nat} {error : DecodeError} {a : α} :
    ¬ (fault position error).Reads a := by
  simp [fault, Reads]

@[simp] theorem reads_ofExcept {position : Nat} {outcome : Except DecodeError α} {a : α} :
    (ofExcept position outcome).Reads a ↔ outcome = .ok a := by
  cases outcome <;> simp [ofExcept]

/-- Two parts are read when both are. -/
theorem reads_seq {f : Reading (α → β)} {x : Reading α} {b : β} :
    (f <*> x).Reads b ↔ ∃ g a, f.Reads g ∧ x.Reads a ∧ g a = b := by
  obtain ⟨f⟩ := f
  obtain ⟨x⟩ := x
  show (combine ⟨f⟩ ⟨x⟩).Reads b ↔ _
  cases f <;> cases x <;> simp [combine, Reads]

theorem reads_map {g : α → β} {x : Reading α} {b : β} :
    (g <$> x).Reads b ↔ ∃ a, x.Reads a ∧ g a = b := by
  show ((ok g : Reading (α → β)) <*> x).Reads b ↔ _
  rw [reads_seq]
  simp

theorem Reads.map {x : Reading α} {a : α} (h : x.Reads a) (g : α → β) : (g <$> x).Reads (g a) :=
  reads_map.mpr ⟨a, h, rfl⟩

theorem Reads.seq {f : Reading (α → β)} {g : α → β} {x : Reading α} {a : α} (hf : f.Reads g)
    (h : x.Reads a) : (f <*> x).Reads (g a) :=
  reads_seq.mpr ⟨g, a, hf, h, rfl⟩

end Reading

/-! ## Fields of a record -/

namespace Record

variable {α : Type} {name : String} {decode : Decoder α} {record : Record} {a : α}

@[simp] theorem not_reads_absent : ¬ (record.absent name : Reading α).Reads a := by
  unfold absent
  split <;> simp

theorem reads_required : (record.required name decode).Reads a ↔
    ∃ value, Table.get? name record.entries = some value ∧ decode value = .ok a := by
  unfold required find?
  cases Table.get? name record.entries <;> simp

theorem reads_withDefault {default : α} : (record.withDefault name default decode).Reads a ↔
    (Table.get? name record.entries).elim (default = a) (decode · = .ok a) := by
  unfold withDefault find?
  cases Table.get? name record.entries <;> simp

/-- A field that is read with a value was decoded from an entry. -/
theorem exists_of_orNone (h : (record.orNone name decode).Reads (some a)) :
    ∃ value, Table.get? name record.entries = some value ∧ value ≠ .null ∧ decode value = .ok a := by
  rw [orNone, reads_withDefault] at h
  cases found : Table.get? name record.entries with
  | none =>
    rw [found] at h
    cases h
  | some value =>
    rw [found] at h
    exact ⟨value, rfl, Decoder.nullable_eq_ok h⟩

theorem restores_of_withDefault {default : α} {encode : α → Json}
    (base : decode (encode default) = .ok default) (h : Decoder.Restores decode encode)
    (read : (record.withDefault name default decode).Reads a) : decode (encode a) = .ok a := by
  rw [reads_withDefault] at read
  cases found : Table.get? name record.entries with
  | none =>
    rw [found] at read
    cases read
    exact base
  | some value =>
    rw [found] at read
    exact h value a read

theorem restores_of_orNone {o : Option α} {encode : α → Json}
    (h : Decoder.Restores decode encode) (read : (record.orNone name decode).Reads o) :
    ∀ a ∈ o, decode (encode a) = .ok a := by
  intro a given
  cases given
  obtain ⟨value, _, _, decoded⟩ := exists_of_orNone read
  exact h value a decoded

/-- The field is read from the entry that an optional value is written as. -/
theorem reads_orNone {o : Option α} (encode : α → Json)
    (found : Table.get? name record.entries = o.map encode)
    (nonnull : ∀ a ∈ o, encode a ≠ .null) (h : ∀ a ∈ o, decode (encode a) = .ok a) :
    (record.orNone name decode).Reads o := by
  rw [orNone, reads_withDefault, found]
  cases o with
  | none => rfl
  | some a => exact Decoder.nullable_of_ne_null (nonnull a rfl) (h a rfl)

/-- A field with a second name is read under its first one. -/
theorem reads_requiredAs {second : String} {value : Json}
    (found : Table.get? name record.entries = some value)
    (absent : Table.get? second record.entries = none) (h : decode value = .ok a) :
    (record.requiredAs name second decode).Reads a := by
  simp [requiredAs, find?, found, absent, h]

theorem reads_settled {value : Json} (found : Table.get? name record.entries = some value) :
    (record.settled name (some (.ok a))).Reads a := by
  simp [settled, find?, found]

theorem eq_of_settled {outcome : Option (Except DecodeError α)}
    (h : (record.settled name outcome).Reads a) : outcome = some (.ok a) := by
  unfold settled at h
  split at h
  · rw [Reading.reads_ofExcept] at h
    rw [h]
  · exact absurd h not_reads_absent

theorem eq_of_settledOrNone {outcome : Option (Except DecodeError (Option α))}
    (h : (record.settledOrNone name outcome).Reads (some a)) : outcome = some (.ok (some a)) := by
  unfold settledOrNone at h
  split at h
  · rw [Reading.reads_ofExcept] at h
    rw [h]
  · cases h

theorem reads_of_read_arr {names : List String} {body : Record → Reading α} {items : List Json}
    (h : read names body (.arr items) = .ok a) : (body ⟨names.zip items, some names⟩).Reads a := by
  simp only [read] at h
  split at h
  · cases h
  · rename_i b found
    split at h
    · cases h
    · cases h
      exact Reading.result_eq_ok.mp found

/-- What is read as a record is read from entries of the value. -/
theorem exists_of_read {names : List String} {body : Record → Reading α} {value : Json}
    (h : read names body value = .ok a) : ∃ record : Record, (body record).Reads a ∧
      (value.KeysDistinct → ∀ entry ∈ record.entries, entry.2.KeysDistinct) := by
  cases value with
  | arr items =>
    refine ⟨_, reads_of_read_arr h, ?_⟩
    rintro (_ | _ | _ | _ | ⟨each⟩) entry there
    exact each entry.2 (List.of_mem_zip there).2
  | obj fields =>
    refine ⟨_, Reading.result_eq_ok.mp h, ?_⟩
    rintro (_ | _ | _ | _ | _ | ⟨_, each⟩)
    exact each
  | _ => cases h

end Record

/-! ## Settings for trying again -/

namespace RetryPolicy

theorem nullable_natOrNull {decode : Decoder Nat} {o : Option Nat}
    (h : ∀ n ∈ o, decode (.nat n) = .ok n) : Decoder.nullable decode (natOrNull o) = .ok o := by
  cases o with
  | none => rfl
  | some n => exact Decoder.nullable_of_ne_null nofun (h n rfl)

/-- The settings of a step are decoded again from their written form. -/
theorem restores_decoder {inStep : Bool} : ∀ (value : Json) (policy : RetryPolicy),
    decoder inStep value = .ok policy → decoder true policy.toJson = .ok policy := by
  intro value policy h
  obtain ⟨record, h, _⟩ := Record.exists_of_read h
  simp only [Reading.reads_seq, Reading.reads_map] at h
  obtain ⟨_, delays, ⟨_, delay, ⟨_, strategy, ⟨maxRetries, readMax, rfl⟩, _, rfl⟩, readDelay, rfl⟩,
    readDelays, rfl⟩ := h
  have fitsMax := Record.restores_of_orNone (Decoder.restores_natural _) readMax
  have fitsDelay := Record.restores_of_orNone (Decoder.restores_natural _) readDelay
  have fitsDelays := Record.restores_of_withDefault rfl
    (Decoder.restores_list (Decoder.restores_natural _)) readDelays
  apply Reading.result_eq_ok.mpr
  refine (((Reading.Reads.map ?_ _).seq ?_).seq ?_).seq ?_
  · rw [Record.orNone, Record.reads_withDefault]
    exact nullable_natOrNull fitsMax
  · rw [Record.reads_withDefault]
    cases strategy <;> rfl
  · rw [Record.orNone, Record.reads_withDefault]
    exact nullable_natOrNull fitsDelay
  · rw [Record.reads_withDefault]
    cases delays with
    | nil => rfl
    | cons _ _ => exact fitsDelays

theorem keysDistinct_natOrNull (o : Option Nat) : (natOrNull o).KeysDistinct := by
  cases o with
  | none => exact .null
  | some n => exact .num _

theorem keysDistinct_toJson (policy : RetryPolicy) : policy.toJson.KeysDistinct := by
  have times : (Json.arr (policy.delays.map Json.nat)).KeysDistinct := by
    apply Json.KeysDistinct.arr
    intro item there
    obtain ⟨n, _, rfl⟩ := List.mem_map.mp there
    exact .num _
  apply Json.KeysDistinct.obj
  · split <;> simp [Table.keys]
  · split <;> simp [times, keysDistinct_natOrNull, Json.KeysDistinct.str]

end RetryPolicy

end Parley
