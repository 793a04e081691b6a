import Mathlib.Data.List.Nodup
import Mathlib.Logic.Function.Basic
import Parley.Json.Basic
import Parley.Proofs.Scopes

/-!
# Values without repeated keys

Merging gives each object every key once, and changes nothing in a value that
already is so.  Entries that are set one after another stay apart; a table in
ascending order is not changed by sorting it.
-/

set_option autoImplicit false

namespace Parley

namespace Table

variable {κ α : Type}

theorem mem_keys_of_mem {entry : κ × α} {table : Table κ α} (h : entry ∈ table) :
    entry.1 ∈ keys table :=
  List.mem_map_of_mem h

theorem keys_append (a b : Table κ α) : keys (a ++ b) = keys a ++ keys b :=
  List.map_append

variable [DecidableEq κ]

/-! ## Entries set one after another -/

theorem get?_append (key : κ) (a b : Table κ α) :
    get? key (a ++ b) = (get? key a).or (get? key b) := by
  induction a with
  | nil => rfl
  | cons entry a ih =>
    obtain ⟨k, v⟩ := entry
    by_cases same : k = key <;> simp [get?, same, ih]

theorem get?_of_notMem {key : κ} {table : Table κ α} (h : key ∉ keys table) :
    get? key table = none := by
  simpa [has] using mt mem_keys.mpr h

theorem set_of_notMem {key : κ} {table : Table κ α} (value : α) (h : key ∉ keys table) :
    set key value table = table ++ [(key, value)] := by
  induction table with
  | nil => rfl
  | cons entry table ih =>
    obtain ⟨k, v⟩ := entry
    simp only [keys, List.map_cons, List.mem_cons, not_or] at h
    simp [set, Ne.symm h.1, ih h.2]

theorem get?_set (key other : κ) (value : α) (table : Table κ α) :
    get? other (set key value table) = if key = other then some value else get? other table := by
  induction table with
  | nil => rfl
  | cons entry table ih =>
    obtain ⟨k, v⟩ := entry
    by_cases same : k = key
    · subst same
      simp only [set, if_true, get?]
      split <;> simp_all
    · simp only [set, same, if_false, get?, ih]
      split <;> split <;> simp_all

theorem mem_set {key : κ} {value : α} {entry : κ × α} {table : Table κ α}
    (h : entry ∈ set key value table) : entry = (key, value) ∨ entry ∈ table := by
  induction table with
  | nil => simpa [set] using h
  | cons first table ih =>
    obtain ⟨k, v⟩ := first
    unfold set at h
    split at h
    · rename_i same
      subst same
      simp only [List.mem_cons] at h ⊢
      tauto
    · simp only [List.mem_cons] at h ⊢
      rcases h with h | h
      · exact .inr (.inl h)
      · exact (ih h).imp_right .inr

theorem keys_set_of_mem {key : κ} {value : α} {table : Table κ α} (h : key ∈ keys table) :
    keys (set key value table) = keys table := by
  induction table with
  | nil => simp [keys] at h
  | cons entry table ih =>
    obtain ⟨k, v⟩ := entry
    by_cases same : k = key
    · simp [set, keys, same]
    · simp only [keys, List.map_cons, List.mem_cons, Ne.symm same, false_or] at h
      simpa [set, keys, same] using ih h

theorem nodup_set {key : κ} {table : Table κ α} (value : α) (h : (keys table).Nodup) :
    (keys (set key value table)).Nodup := by
  by_cases there : key ∈ keys table
  · rwa [keys_set_of_mem there]
  · rw [set_of_notMem value there, keys_append]
    exact List.Nodup.append h (List.nodup_singleton key) (by simpa [keys] using there)

theorem nodup_overlay (upper : Table κ α) {table : Table κ α} (h : (keys table).Nodup) :
    (keys (overlay upper table)).Nodup := by
  induction upper generalizing table with
  | nil => exact h
  | cons entry upper ih => exact ih (nodup_set entry.2 h)

theorem nodup_ofEntries (entries : List (κ × α)) : (keys (ofEntries entries)).Nodup :=
  nodup_overlay entries List.nodup_nil

theorem mem_overlay {entry : κ × α} {upper table : Table κ α} (h : entry ∈ overlay upper table) :
    entry ∈ upper ∨ entry ∈ table := by
  induction upper generalizing table with
  | nil => exact .inr h
  | cons first upper ih =>
    rcases ih h with there | there
    · exact .inl (List.mem_cons_of_mem first there)
    · rcases mem_set there with rfl | there
      · exact .inl List.mem_cons_self
      · exact .inr there

theorem mem_ofEntries {entry : κ × α} {entries : List (κ × α)} (h : entry ∈ ofEntries entries) :
    entry ∈ entries := by
  simpa using mem_overlay h

/-- Over a table each entry of another table with distinct keys is found first. -/
theorem get?_overlay {upper : Table κ α} (distinct : (keys upper).Nodup) (key : κ) (table : Table κ α) :
    get? key (overlay upper table) = (get? key upper).or (get? key table) := by
  induction upper generalizing table with
  | nil => rfl
  | cons entry upper ih =>
    obtain ⟨k, v⟩ := entry
    simp only [keys, List.map_cons, List.nodup_cons] at distinct
    have rest := ih distinct.2 (set k v table)
    simp only [overlay, List.foldl_cons] at rest ⊢
    rw [rest, get?_set]
    by_cases same : k = key
    · subst same
      have absent : get? k upper = none := by
        simpa [has] using mt mem_keys.mpr distinct.1
      simp [get?, absent]
    · simp [get?, same]

theorem overlay_eq_append {upper table : Table κ α} (h : (keys (table ++ upper)).Nodup) :
    overlay upper table = table ++ upper := by
  induction upper generalizing table with
  | nil => simp [overlay]
  | cons entry upper ih =>
    obtain ⟨k, v⟩ := entry
    have assoc : table ++ (k, v) :: upper = table ++ [(k, v)] ++ upper := by simp
    have absent : k ∉ keys table := by
      intro there
      rw [keys_append] at h
      exact List.disjoint_of_nodup_append h there List.mem_cons_self
    show overlay upper (set k v table) = table ++ (k, v) :: upper
    rw [set_of_notMem v absent, assoc]
    apply ih
    rwa [← assoc]

/-- Entries whose keys are apart are merged to themselves. -/
theorem ofEntries_of_nodup {entries : List (κ × α)} (h : (keys entries).Nodup) :
    ofEntries entries = entries :=
  overlay_eq_append h

/-- Entries may be renamed before or after they are merged, as long as no two names become one. -/
theorem ofEntries_map {κ' β : Type} [DecidableEq κ'] {rename : κ → κ'}
    (injective : Function.Injective rename) (convert : α → β) (entries : List (κ × α)) :
    ofEntries (entries.map (Prod.map rename convert))
      = (ofEntries entries).map (Prod.map rename convert) := by
  have one (key : κ) (value : α) (table : Table κ α) :
      set (rename key) (convert value) (table.map (Prod.map rename convert))
        = (set key value table).map (Prod.map rename convert) := by
    induction table with
    | nil => rfl
    | cons entry table ih =>
      obtain ⟨k, v⟩ := entry
      by_cases same : k = key
      · simp [set, same]
      · simp [set, same, injective.eq_iff, ih]
  have all (table : Table κ α) :
      overlay (entries.map (Prod.map rename convert)) (table.map (Prod.map rename convert))
        = (overlay entries table).map (Prod.map rename convert) := by
    induction entries generalizing table with
    | nil => rfl
    | cons entry entries ih =>
      simp only [overlay, List.map_cons, List.foldl_cons, Prod.map_fst, Prod.map_snd] at ih ⊢
      rw [one, ih]
  exact all []

end Table

/-! ## Tables in ascending order -/

section Texts

variable {a b c : String}

theorem textBelow_ne (h : textBelow a b = true) : a ≠ b := by
  rintro rfl
  exact String.lt_irrefl a (of_decide_eq_true h)

theorem textBelow_trans (h : textBelow a b = true) (h' : textBelow b c = true) :
    textBelow a c = true :=
  decide_eq_true (String.lt_trans (of_decide_eq_true h) (of_decide_eq_true h'))

theorem textBelow_asymm (h : textBelow a b = true) : textBelow b a = false :=
  decide_eq_false (String.lt_asymm (of_decide_eq_true h))

theorem textBelow_of_ne (h : textBelow a b = false) (other : b ≠ a) : textBelow b a = true := by
  by_contra h'
  rw [Bool.not_eq_true] at h'
  have below := String.not_lt.mp (of_decide_eq_false h)
  have above := String.not_lt.mp (of_decide_eq_false h')
  exact other (String.le_antisymm below above)

end Texts

namespace Table

variable {α : Type}

/-- The keys stand in ascending order. -/
def Ascending (table : Table String α) : Prop :=
  (keys table).Pairwise fun a b => textBelow a b = true

theorem Ascending.nodup {table : Table String α} (h : Ascending table) : (keys table).Nodup :=
  List.Pairwise.imp textBelow_ne h

theorem mem_setSorted {key : String} {value : α} {entry : String × α} {table : Table String α}
    (h : entry ∈ setSorted textBelow key value table) : entry = (key, value) ∨ entry ∈ table := by
  induction table with
  | nil => simpa [setSorted] using h
  | cons first table ih =>
    obtain ⟨k, v⟩ := first
    unfold setSorted at h
    split at h
    · rename_i same
      subst same
      simp only [List.mem_cons] at h ⊢
      tauto
    · split at h
      · simpa using h
      · simp only [List.mem_cons] at h ⊢
        rcases h with h | h
        · exact .inr (.inl h)
        · exact (ih h).imp_right .inr

theorem ascending_setSorted {key : String} (value : α) {table : Table String α}
    (h : Ascending table) : Ascending (setSorted textBelow key value table) := by
  induction table with
  | nil => exact List.pairwise_singleton _ _
  | cons entry table ih =>
    obtain ⟨k, v⟩ := entry
    obtain ⟨least, rest⟩ := List.pairwise_cons.mp h
    unfold setSorted
    split
    · exact h
    · rename_i other
      split
      · rename_i below
        apply List.pairwise_cons.mpr
        refine ⟨?_, h⟩
        intro later there
        rcases List.mem_cons.mp there with rfl | there
        · exact below
        · exact textBelow_trans below (least later there)
      · rename_i notBelow
        have above : textBelow k key = true :=
          textBelow_of_ne (by simpa using notBelow) other
        apply List.pairwise_cons.mpr
        refine ⟨?_, ih rest⟩
        intro later there
        obtain ⟨entry, present, rfl⟩ := List.mem_map.mp there
        rcases mem_setSorted present with rfl | present
        · exact above
        · exact least entry.1 (mem_keys_of_mem present)

theorem setSorted_of_above {key : String} (value : α) {table : Table String α}
    (h : ∀ k ∈ keys table, textBelow k key = true) :
    setSorted textBelow key value table = table ++ [(key, value)] := by
  induction table with
  | nil => rfl
  | cons entry table ih =>
    obtain ⟨k, v⟩ := entry
    simp only [keys, List.map_cons, List.forall_mem_cons] at h
    simp [setSorted, textBelow_ne h.1, textBelow_asymm h.1, ih h.2]

theorem ascending_sorted (entries : List (String × α)) : Ascending (sorted textBelow entries) := by
  suffices all : ∀ table : Table String α, Ascending table → Ascending
      (entries.foldl (fun t entry => setSorted textBelow entry.1 entry.2 t) table) from
    all [] List.Pairwise.nil
  induction entries with
  | nil => exact fun _ h => h
  | cons entry entries ih => exact fun _ h => ih _ (ascending_setSorted entry.2 h)

theorem mem_sorted {entry : String × α} {entries : List (String × α)}
    (h : entry ∈ sorted textBelow entries) : entry ∈ entries := by
  suffices all : ∀ table : Table String α,
      entry ∈ entries.foldl (fun t entry => setSorted textBelow entry.1 entry.2 t) table →
        entry ∈ entries ∨ entry ∈ table by
    simpa using all [] h
  clear h
  induction entries with
  | nil => exact fun _ h => .inr h
  | cons first entries ih =>
    intro table h
    rcases ih _ h with there | there
    · exact .inl (List.mem_cons_of_mem first there)
    · rcases mem_setSorted there with rfl | there
      · exact .inl List.mem_cons_self
      · exact .inr there

/-- Sorting does not change what is in order. -/
theorem sorted_of_ascending {entries : Table String α} (h : Ascending entries) :
    sorted textBelow entries = entries := by
  suffices all : ∀ table : Table String α, Ascending (table ++ entries) →
      entries.foldl (fun t entry => setSorted textBelow entry.1 entry.2 t) table
        = table ++ entries from
    all [] h
  clear h
  induction entries with
  | nil => simp
  | cons entry entries ih =>
    intro table h
    obtain ⟨k, v⟩ := entry
    have assoc : table ++ (k, v) :: entries = table ++ [(k, v)] ++ entries := by simp
    have above : ∀ earlier ∈ keys table, textBelow earlier k = true := by
      intro earlier there
      unfold Ascending at h
      rw [keys_append] at h
      exact (List.pairwise_append.mp h).2.2 earlier there k List.mem_cons_self
    show entries.foldl _ (setSorted textBelow k v table) = table ++ (k, v) :: entries
    rw [setSorted_of_above v above, assoc]
    apply ih
    rwa [← assoc]

end Table

/-! ## Values -/

namespace Json

/-- No object of the value repeats a key. -/
inductive KeysDistinct : Json → Prop where
  | null : KeysDistinct .null
  | bool (b : Bool) : KeysDistinct (.bool b)
  | num (n : Number) : KeysDistinct (.num n)
  | str (s : String) : KeysDistinct (.str s)
  | arr {items : List Json} (each : ∀ item ∈ items, KeysDistinct item) : KeysDistinct (.arr items)
  | obj {fields : List (String × Json)} (distinct : (Table.keys fields).Nodup)
      (each : ∀ field ∈ fields, KeysDistinct field.2) : KeysDistinct (.obj fields)

theorem mergedItems_eq_map (items : List Json) : mergedItems items = items.map merged := by
  induction items with
  | nil => rfl
  | cons item items ih => simp [mergedItems, ih]

theorem mergedFields_eq_map (fields : List (String × Json)) :
    mergedFields fields = fields.map (Prod.map id merged) := by
  induction fields with
  | nil => rfl
  | cons field fields ih => simp [mergedFields, ih, Prod.map]

theorem mergedFields_append (a b : List (String × Json)) :
    mergedFields (a ++ b) = mergedFields a ++ mergedFields b := by
  simp [mergedFields_eq_map]

theorem keys_mergedFields (fields : List (String × Json)) :
    Table.keys (mergedFields fields) = Table.keys fields := by
  simp [Table.keys, mergedFields_eq_map]

/-- An object whose own keys are apart is merged entry by entry. -/
theorem merged_obj {fields : List (String × Json)} (h : (Table.keys fields).Nodup) :
    (Json.obj fields).merged = .obj (mergedFields fields) := by
  rw [merged, Table.ofEntries_of_nodup]
  rwa [keys_mergedFields]

mutual

theorem keysDistinct_merged : ∀ value : Json, value.merged.KeysDistinct
  | .null => .null
  | .bool b => .bool b
  | .num n => .num n
  | .str s => .str s
  | .arr items => .arr (keysDistinct_mergedItems items)
  | .obj fields => by
    refine .obj (Table.nodup_ofEntries _) ?_
    intro field there
    exact keysDistinct_mergedFields fields field (Table.mem_ofEntries there)

theorem keysDistinct_mergedItems :
    ∀ (items : List Json), ∀ item ∈ mergedItems items, item.KeysDistinct
  | [] => by simp [mergedItems]
  | item :: items =>
    List.forall_mem_cons.mpr ⟨keysDistinct_merged item, keysDistinct_mergedItems items⟩

theorem keysDistinct_mergedFields :
    ∀ (fields : List (String × Json)), ∀ field ∈ mergedFields fields, field.2.KeysDistinct
  | [] => by simp [mergedFields]
  | (_, value) :: fields =>
    List.forall_mem_cons.mpr ⟨keysDistinct_merged value, keysDistinct_mergedFields fields⟩

end

theorem mergedFields_of_each {fields : List (String × Json)}
    (h : ∀ field ∈ fields, field.2.merged = field.2) : mergedFields fields = fields := by
  have same : fields.map (Prod.map id merged) = fields.map id := by
    apply List.map_congr_left
    intro field there
    exact Prod.ext rfl (h field there)
  rw [mergedFields_eq_map, same, List.map_id]

/-- A value without repeated keys is merged to itself. -/
theorem KeysDistinct.merged_eq {value : Json} (h : value.KeysDistinct) : value.merged = value := by
  induction h with
  | null | bool | num | str => rfl
  | arr _ each =>
    rw [merged, mergedItems_eq_map, List.map_congr_left each, List.map_id']
  | obj distinct _ each => rw [merged_obj distinct, mergedFields_of_each each]

end Json

end Parley
