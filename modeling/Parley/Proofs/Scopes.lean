import Parley.Session.Scopes

/-!
# What scopes hold

The four operations on scopes, told by what is found under a number afterwards.
Nothing here depends on the order in which the scopes stand.
-/

set_option autoImplicit false

namespace Parley

namespace Table

variable {κ α : Type} [DecidableEq κ]

/-- A value that is found under a key stands in the table with that key. -/
theorem mem_of_get? {key : κ} {value : α} {table : Table κ α} (h : get? key table = some value) :
    (key, value) ∈ table := by
  induction table with
  | nil => simp [get?] at h
  | cons entry entries ih =>
      obtain ⟨k, v⟩ := entry
      unfold get? at h
      split at h
      · rename_i hk
        cases h
        simp [hk]
      · exact List.mem_cons_of_mem _ (ih h)

/-- The keys of a table are those under which something is found. -/
theorem mem_keys {key : κ} {table : Table κ α} : key ∈ keys table ↔ has key table = true := by
  induction table with
  | nil => simp [keys, has, get?]
  | cons entry entries ih =>
      obtain ⟨k, v⟩ := entry
      by_cases hk : k = key
      · simp [keys, has, get?, hk]
      · simpa [keys, has, get?, hk, Ne.symm hk] using ih

/-- A key that was set is found with its new value. -/
theorem get?_setSorted_self (below : κ → κ → Bool) (key : κ) (value : α) (table : Table κ α) :
    get? key (setSorted below key value table) = some value := by
  induction table with
  | nil => simp [setSorted, get?]
  | cons entry entries ih =>
      obtain ⟨k, v⟩ := entry
      unfold setSorted
      split
      · rename_i hk
        simp [get?, hk]
      · rename_i hk
        split
        · simp [get?]
        · simpa [get?, hk] using ih

/-- Every other key is found as before. -/
theorem get?_setSorted_of_ne (below : κ → κ → Bool) {key other : κ} (value : α)
    (table : Table κ α) (hne : other ≠ key) :
    get? other (setSorted below key value table) = get? other table := by
  induction table with
  | nil => simp [setSorted, get?, Ne.symm hne]
  | cons entry entries ih =>
      obtain ⟨k, v⟩ := entry
      unfold setSorted
      split
      · rename_i hk
        subst hk
        simp [get?, Ne.symm hne]
      · split
        · simp [get?, Ne.symm hne]
        · by_cases hother : k = other
          · simp [get?, hother]
          · simpa [get?, hother] using ih

/-- A table that is cut down to certain keys still has these and no others. -/
theorem get?_filter (keep : κ → Bool) (key : κ) (table : Table κ α) :
    get? key (table.filter fun entry => keep entry.1) =
      if keep key then get? key table else none := by
  induction table with
  | nil => simp [get?]
  | cons entry entries ih =>
      obtain ⟨k, v⟩ := entry
      by_cases hkept : keep k = true
      · by_cases hkey : k = key
        · subst hkey
          simp [get?, hkept]
        · simpa [get?, hkept, hkey] using ih
      · by_cases hkey : k = key
        · subst hkey
          simpa [hkept] using ih
        · simpa [get?, hkept, hkey] using ih

end Table

namespace Scopes

/-- A scope exists if its variables are found. -/
theorem has_iff {scopes : Scopes} {id : Nat} :
    scopes.has id = true ↔ ∃ vars, scopes.get? id = some vars :=
  Option.isSome_iff_exists

@[simp] theorem nextId_put (scopes : Scopes) (id : Nat) (vars : Fields) :
    (scopes.put id vars).nextId = scopes.nextId := rfl

@[simp] theorem get?_put_self (scopes : Scopes) (id : Nat) (vars : Fields) :
    (scopes.put id vars).get? id = some vars :=
  Table.get?_setSorted_self idBelow id vars scopes.entries

/-- Replacing the variables of one scope leaves every other scope as it is. -/
theorem get?_put_of_ne {scopes : Scopes} {id other : Nat} (vars : Fields) (hne : other ≠ id) :
    (scopes.put id vars).get? other = scopes.get? other :=
  Table.get?_setSorted_of_ne idBelow vars scopes.entries hne

/-- Replacing the variables of a scope by themselves leaves every scope as it is. -/
theorem get?_put_same {scopes : Scopes} {id : Nat} {vars : Fields}
    (hvars : scopes.get? id = some vars) (other : Nat) :
    (scopes.put id vars).get? other = scopes.get? other := by
  by_cases hother : other = id
  · rw [hother, get?_put_self, hvars]
  · exact get?_put_of_ne vars hother

theorem has_put {scopes : Scopes} {id other : Nat} {vars : Fields} :
    (scopes.put id vars).has other = true ↔ other = id ∨ scopes.has other = true := by
  by_cases hother : other = id
  · subst hother
    simp [has_iff]
  · simp [has_iff, get?_put_of_ne vars hother, hother]

/-- The scopes after an allocation are those before and the new one. -/
theorem has_allocate {scopes : Scopes} {vars : Fields} {id : Nat} :
    (scopes.allocate vars).1.has id = true ↔ id = scopes.nextId ∨ scopes.has id = true :=
  has_put

/-- An allocation leaves every scope that had a smaller number as it is. -/
theorem get?_allocate_of_lt {scopes : Scopes} {id : Nat} (vars : Fields)
    (hlt : id < scopes.nextId) : (scopes.allocate vars).1.get? id = scopes.get? id :=
  get?_put_of_ne vars (Nat.ne_of_lt hlt)

/-- Of the scopes that are retained the live ones are left, unchanged. -/
theorem get?_retain (scopes : Scopes) (live : List Nat) (id : Nat) :
    (scopes.retain live).get? id = if live.contains id then scopes.get? id else none :=
  Table.get?_filter (fun id => live.contains id) id scopes.entries

theorem has_retain {scopes : Scopes} {live : List Nat} {id : Nat} :
    (scopes.retain live).has id = true ↔ id ∈ live ∧ scopes.has id = true := by
  rw [has_iff, get?_retain]
  by_cases hlive : id ∈ live
  · simp [hlive, has_iff]
  · simp [hlive]

end Scopes

end Parley
