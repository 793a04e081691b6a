import Parley.Engine.Basic
import Parley.Proofs.DistinctKeys

/-!
# Flows and their keys

A library keeps its flows in a list and, beside it, a table with the place of
every key.  Adding a flow keeps the two in agreement, whether the flow is
accepted or refused: a key stands for the one flow that has it as its name or
id, and every place is one of the list.  So what a library answers after any
number of attempts is told by the flows that were accepted.
-/

set_option autoImplicit false

namespace Parley

namespace Definition

theorem mem_keys_iff {flow : Definition} {key : String} :
    key ∈ flow.keys ↔ key = flow.name ∨ key = flow.id ∧ flow.id ≠ "" := by
  unfold keys
  by_cases hempty : flow.id = ""
  · simp [hempty]
  · by_cases hsame : flow.id = flow.name
    · simp only [hsame, decide_true, Bool.or_true, if_true, List.mem_singleton]
      exact ⟨.inl, fun h => h.elim (fun h => h) And.left⟩
    · simp [hempty, hsame]

theorem nodup_keys (flow : Definition) : flow.keys.Nodup := by
  unfold keys
  by_cases hsame : flow.id = flow.name
  · simp [hsame]
  · split
    · exact List.nodup_singleton _
    · simp [Ne.symm hsame]

end Definition

namespace Table

/-- Keys that are all given one value. -/
theorem get?_map_const {κ α : Type} [DecidableEq κ] (key : κ) (value : α) (keys : List κ) :
    get? key (keys.map fun k => (k, value)) = if key ∈ keys then some value else none := by
  induction keys with
  | nil => rfl
  | cons k keys ih =>
      by_cases hkey : k = key
      · simp [get?, hkey]
      · simp [get?, hkey, Ne.symm hkey, ih]

end Table

namespace Library

variable {library extended : Library} {flow : Definition} {key : String}

theorem name_mem_keys (flow : Definition) : flow.name ∈ flow.keys :=
  Definition.mem_keys_iff.2 (.inl rfl)

@[simp] theorem flows_add (library : Library) (flow : Definition) :
    (library.add flow).flows = library.flows ++ [flow] := by
  simp [flows, add]

/-- A flow that is found is one of the library. -/
theorem mem_of_get? (h : library.get? key = some flow) : flow ∈ library.flows := by
  obtain ⟨entry, hentry, rfl⟩ := Option.map_eq_some_iff.1 h
  obtain ⟨place, -, hplace⟩ := Option.bind_eq_some_iff.1 hentry
  exact List.mem_map_of_mem (List.mem_of_getElem? hplace)

/-! ## Adding one flow -/

/-- A flow is refused for one of its keys that is taken, or added if none of them is. -/
theorem register_cases (library : Library) (flow : Definition) :
    (∃ key ∈ flow.keys, Table.has key library.places = true ∧
      library.register flow = (library, some (.duplicate .flow key))) ∨
    ((∀ key ∈ flow.keys, Table.has key library.places = false) ∧
      library.register flow = (library.add flow, none)) := by
  unfold register
  split
  · rename_i key hfound
    exact .inl ⟨key, List.mem_of_find?_eq_some hfound, by simpa using List.find?_some hfound, rfl⟩
  · rename_i hfree
    rw [List.find?_eq_none] at hfree
    exact .inr ⟨by simpa using hfree, rfl⟩

/-- Every key stands for the place of the flow that has it, every place is one of the list, and
every flow stands beside its own digest. -/
structure Indexed (library : Library) : Prop where
  inRange : ∀ entry ∈ library.places, entry.2 < library.entries.length
  place_iff : ∀ key place, Table.get? key library.places = some place ↔
    ∃ entry, library.entries[place]? = some entry ∧ key ∈ entry.definition.keys
  fingerprint : ∀ entry ∈ library.entries, entry.fingerprint = entry.definition.fingerprint

theorem indexed_empty : Indexed .empty :=
  ⟨nofun, by simp [empty, Table.get?], nofun⟩

/-- The keys of a flow that is added stand for its place, all others for the places they had. -/
theorem get?_places_add (library : Library) (flow : Definition) (key : String) :
    Table.get? key (library.add flow).places =
      if key ∈ flow.keys then some library.entries.length
      else Table.get? key library.places := by
  have hdistinct : (Table.keys (flow.keys.map fun key => (key, library.entries.length))).Nodup := by
    simpa [Table.keys, Function.comp_def] using flow.nodup_keys
  simp only [add, Table.get?_overlay hdistinct, Table.get?_map_const]
  split <;> rfl

/-- A flow with free keys is added at a place that no key has stood for. -/
theorem Indexed.add (h : library.Indexed)
    (hfree : ∀ key ∈ flow.keys, Table.has key library.places = false) :
    (library.add flow).Indexed where
  inRange := by
    intro entry hentry
    simp only [Library.add, List.length_append, List.length_singleton]
    rcases Table.mem_overlay hentry with hadded | hbefore
    · obtain ⟨key, -, rfl⟩ := List.mem_map.1 hadded
      exact Nat.lt_succ_self _
    · exact Nat.lt_succ_of_lt (h.inRange entry hbefore)
  place_iff := by
    intro key place
    rw [get?_places_add]
    by_cases hlast : place = library.entries.length
    · subst hlast
      have hold : Table.get? key library.places ≠ some library.entries.length := by
        intro hget
        exact Nat.lt_irrefl _ (h.inRange _ (Table.mem_of_get? hget))
      simp [Library.add, hold]
    · have hentries : (library.add flow).entries[place]? = library.entries[place]? := by
        simp only [Library.add, List.getElem?_append, List.getElem?_singleton]
        split
        · rfl
        · have hbeyond : place - library.entries.length ≠ 0 := by omega
          simp [hbeyond, List.getElem?_eq_none (Nat.not_lt.1 ‹_›)]
      rw [hentries, ← h.place_iff]
      split
      · rename_i hkey
        have hnone : Table.get? key library.places = none := by
          simpa [Table.has] using hfree key hkey
        simp [hnone, Ne.symm hlast]
      · rfl
  fingerprint := by
    intro entry hentry
    rcases List.mem_append.1 hentry with hbefore | hadded
    · exact h.fingerprint entry hbefore
    · obtain rfl := List.mem_singleton.1 hadded
      rfl

/-- A flow is found by each of its keys, and by no other key. -/
theorem Indexed.get?_iff (h : library.Indexed) :
    library.get? key = some flow ↔ flow ∈ library.flows ∧ key ∈ flow.keys := by
  constructor
  · intro hget
    refine ⟨mem_of_get? hget, ?_⟩
    obtain ⟨entry, hentry, rfl⟩ := Option.map_eq_some_iff.1 hget
    obtain ⟨place, hplace, hfound⟩ := Option.bind_eq_some_iff.1 hentry
    obtain ⟨other, hother, hkey⟩ := (h.place_iff key place).1 hplace
    rw [hfound] at hother
    cases hother
    exact hkey
  · rintro ⟨hflow, hkey⟩
    obtain ⟨entry, hentry, rfl⟩ := List.mem_map.1 hflow
    obtain ⟨place, hplace⟩ := List.mem_iff_getElem?.1 hentry
    have hget := (h.place_iff key place).2 ⟨entry, hplace, hkey⟩
    simp [get?, entry?, hget, hplace]

theorem Indexed.has_places_iff (h : library.Indexed) :
    Table.has key library.places = true ↔ ∃ flow ∈ library.flows, key ∈ flow.keys := by
  rw [Table.has, Option.isSome_iff_exists]
  constructor
  · rintro ⟨place, hplace⟩
    obtain ⟨entry, hentry, hkey⟩ := (h.place_iff key place).1 hplace
    exact ⟨entry.definition, List.mem_map_of_mem (List.mem_of_getElem? hentry), hkey⟩
  · rintro ⟨flow, hflow, hkey⟩
    obtain ⟨entry, hentry, rfl⟩ := List.mem_map.1 hflow
    obtain ⟨place, hplace⟩ := List.mem_iff_getElem?.1 hentry
    exact ⟨place, (h.place_iff key place).2 ⟨entry, hplace, hkey⟩⟩

theorem Indexed.fingerprint?_eq (h : library.Indexed) (key : String) :
    library.fingerprint? key = (library.get? key).map Definition.fingerprint := by
  unfold fingerprint? get?
  cases hentry : library.entry? key with
  | none => rfl
  | some entry =>
      obtain ⟨place, -, hplace⟩ := Option.bind_eq_some_iff.1 hentry
      simp [h.fingerprint entry (List.mem_of_getElem? hplace)]

/-- No key belongs to the flows at two places. -/
theorem Indexed.place_unique (h : library.Indexed) {first second : Definition} {i j : Nat}
    (hi : library.flows[i]? = some first) (hj : library.flows[j]? = some second)
    (hfirst : key ∈ first.keys) (hsecond : key ∈ second.keys) : i = j := by
  simp only [flows, List.getElem?_map, Option.map_eq_some_iff] at hi hj
  obtain ⟨entry, hi, rfl⟩ := hi
  obtain ⟨other, hj, rfl⟩ := hj
  have hplace := (h.place_iff key i).2 ⟨entry, hi, hfirst⟩
  have hother := (h.place_iff key j).2 ⟨other, hj, hsecond⟩
  exact Option.some.inj (hplace.symm.trans hother)

theorem Indexed.register (h : library.Indexed) (flow : Definition) :
    (library.register flow).1.Indexed := by
  rcases library.register_cases flow with ⟨key, -, -, hrefused⟩ | ⟨hfree, hadded⟩
  · rw [hrefused]
    exact h
  · rw [hadded]
    exact h.add hfree

/-- A flow is added exactly if none of its keys is found in the library. -/
theorem Indexed.register_snd_eq_none_iff (h : library.Indexed) :
    (library.register flow).2 = none ↔ ∀ key ∈ flow.keys, library.get? key = none := by
  have hfound : ∀ key, Table.has key library.places = (library.get? key).isSome := by
    intro key
    rw [Bool.eq_iff_iff, h.has_places_iff, Option.isSome_iff_exists]
    simp only [h.get?_iff]
  rcases library.register_cases flow with ⟨key, hkey, htaken, hrefused⟩ | ⟨hfree, hadded⟩
  · rw [hrefused]
    refine iff_of_false (by simp) fun hnone => ?_
    rw [hfound, hnone key hkey] at htaken
    cases htaken
  · rw [hadded]
    refine iff_of_true rfl fun key hkey => ?_
    simpa [hfound] using hfree key hkey

/-! ## Any number of attempts -/

/-- The library after some flows were to be added, one after another. -/
def attempt (library : Library) : List Definition → Library
  | [] => library
  | flow :: later => attempt (library.register flow).1 later

/-- Those of the flows that are not refused when they are to be added one after another. -/
def accepted (library : Library) : List Definition → List Definition
  | [] => []
  | flow :: later =>
    match library.register flow with
    | (next, none) => flow :: accepted next later
    | (next, some _) => accepted next later

theorem Indexed.attempt (h : library.Indexed) (flows : List Definition) :
    (library.attempt flows).Indexed := by
  induction flows generalizing library with
  | nil => exact h
  | cons flow later ih => exact ih (h.register flow)

/-- After any attempts the library has the flows that were accepted, in their order, behind those
that it had. -/
theorem flows_attempt (library : Library) (flows : List Definition) :
    (library.attempt flows).flows = library.flows ++ library.accepted flows := by
  induction flows generalizing library with
  | nil => simp [attempt, accepted]
  | cons flow later ih =>
      rw [attempt, ih, accepted]
      rcases library.register_cases flow with ⟨key, -, -, hrefused⟩ | ⟨-, hadded⟩
      · rw [hrefused]
      · rw [hadded, flows_add, List.append_assoc]
        rfl

/-- What holds of a library after any attempts to add flows to an empty one, some of which may have
failed.  The next flow that is refused is one with a key that belongs to an accepted flow, and it
leaves the library as it is.  The library lists the accepted flows in their order, finds each of
them by its name and by its id unless that is empty, and finds nothing else; no key belongs to two
of them.  The digest for a key is that of the flow for this key, and every key has a place in the
list. -/
theorem keys_unambiguous (attempts : List Definition) :
    let library := Library.empty.attempt attempts
    let accepted := Library.empty.accepted attempts
    (∀ flow error, (library.register flow).2 = some error → (library.register flow).1 = library ∧
      ∃ key ∈ flow.keys, error = .duplicate .flow key ∧ ∃ other ∈ accepted, key ∈ other.keys) ∧
    (∀ flow, (library.register flow).2 = none ↔
      ∀ key ∈ flow.keys, ∀ other ∈ accepted, key ∉ other.keys) ∧
    library.flows = accepted ∧
    (∀ key flow, library.get? key = some flow ↔
      flow ∈ accepted ∧ (key = flow.name ∨ key = flow.id ∧ flow.id ≠ "")) ∧
    (∀ (key : String) (i j : Nat) (first second : Definition), accepted[i]? = some first →
      accepted[j]? = some second → key ∈ first.keys → key ∈ second.keys → i = j) ∧
    (∀ key, library.fingerprint? key = (library.get? key).map Definition.fingerprint) ∧
    ∀ entry ∈ library.places, entry.2 < library.flows.length := by
  intro library accepted
  have hindexed : library.Indexed := indexed_empty.attempt attempts
  have hflows : library.flows = accepted := flows_attempt .empty attempts
  refine ⟨?_, ?_, hflows, ?_, ?_, hindexed.fingerprint?_eq, ?_⟩
  · intro flow error herror
    rcases library.register_cases flow with ⟨key, hkey, htaken, hrefused⟩ | ⟨-, hadded⟩
    · rw [hrefused] at herror ⊢
      cases herror
      refine ⟨rfl, key, hkey, rfl, ?_⟩
      rw [← hflows]
      exact hindexed.has_places_iff.1 htaken
    · rw [hadded] at herror
      cases herror
  · intro flow
    rw [hindexed.register_snd_eq_none_iff, ← hflows]
    refine forall₂_congr fun key _ => ?_
    simp only [Option.eq_none_iff_forall_ne_some, ne_eq, hindexed.get?_iff, not_and]
  · intro key flow
    rw [hindexed.get?_iff, hflows, Definition.mem_keys_iff]
  · intro key i j first second hi hj
    rw [← hflows] at hi hj
    exact hindexed.place_unique hi hj
  · simpa [flows] using hindexed.inRange

/-! ## Libraries that are built -/

/-- Libraries to which flows have been added one after another. -/
inductive Built : Library → Prop where
  | empty : Built .empty
  | insert {library extended : Library} {flow : Definition} (h : library.Built)
      (hinsert : library.insert flow = .ok extended) : Built extended

theorem insert_eq_ok_iff :
    library.insert flow = .ok extended ↔ library.register flow = (extended, none) := by
  unfold insert
  split <;> rename_i hregister <;> simp [hregister]

theorem Built.indexed (h : library.Built) : library.Indexed := by
  induction h with
  | empty => exact indexed_empty
  | @insert library extended flow h hinsert ih =>
      have hnext := ih.register flow
      rwa [insert_eq_ok_iff.1 hinsert] at hnext

/-- A flow is found by each of its keys. -/
theorem Built.get?_of_mem (h : library.Built) {flow : Definition} (hmem : flow ∈ library.flows)
    {key : String} (hkey : key ∈ flow.keys) : library.get? key = some flow :=
  h.indexed.get?_iff.2 ⟨hmem, hkey⟩

theorem Built.insertUntil (h : library.Built) (flows : List Definition) :
    (library.insertUntil flows).1.Built := by
  induction flows generalizing library with
  | nil => exact h
  | cons flow later ih =>
      unfold Library.insertUntil
      rcases library.register_cases flow with ⟨key, -, -, hrefused⟩ | ⟨-, hadded⟩
      · rw [hrefused]
        exact h
      · rw [hadded]
        exact ih (h.insert (insert_eq_ok_iff.2 hadded))

theorem Built.insertAll (h : library.Built) {flows : List Definition}
    (hall : library.insertAll flows = .ok extended) : extended.Built := by
  have hbuilt := h.insertUntil flows
  unfold Library.insertAll at hall
  split at hall
  · rename_i result hresult
    cases hall
    rwa [hresult] at hbuilt
  · cases hall

end Library

/-- An engine that has been built from a blueprint with such a library. -/
def Engine.Built (engine : Engine) : Prop :=
  ∃ blueprint : Blueprint, blueprint.library.Built ∧ blueprint.build = .ok engine

/-- The library of an engine that has been built has been built too. -/
theorem Engine.Built.library {engine : Engine} (h : engine.Built) : engine.library.Built := by
  obtain ⟨blueprint, hlibrary, hbuild⟩ := h
  unfold Blueprint.build at hbuild
  cases hmodel : blueprint.model with
  | none => simp [hmodel, bind, Except.bind] at hbuild
  | some model =>
      cases hflows : blueprint.library.insertAll blueprint.flows with
      | error e => simp [hmodel, hflows, bind, Except.bind, Except.mapError] at hbuild
      | ok library =>
          cases htools : Registry.ofList blueprint.tools with
          | error e => simp [hmodel, hflows, htools, bind, Except.bind, Except.mapError] at hbuild
          | ok registry =>
              simp only [hmodel, hflows, htools, bind, Except.bind, Except.mapError] at hbuild
              generalize (if blueprint.validate then References.problems library registry else []) =
                problems at hbuild
              split at hbuild
              · cases hbuild
                exact hlibrary.insertAll hflows
              · cases hbuild

end Parley
