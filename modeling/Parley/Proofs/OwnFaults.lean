import Parley.Proofs.Outlines

/-!
# Whose fault it is

A step is read together with the steps inside it, and the fault that is reported
is the one that stands first.  In a flow whose outline is in order the fault is
always one step's own, or the flow's own: it remains when the steps inside are
read without fault.  Reading the remaining fields of a step does not look at its
type, so no step is refused there for its type, or because a branch is a list.
-/

set_option autoImplicit false

namespace Parley

/-! ## Faults that are taken out of a reading -/

namespace Reading

section Faults

variable {α β : Type} {blamed : DecodeError → Prop}

/-- The part has the fault. -/
def Fails (reading : Reading α) (fault : Fault) : Prop :=
  reading.outcome = .error fault

theorem result_eq_error {reading : Reading α} {e : DecodeError} :
    reading.result = .error e ↔ ∃ fault, reading.Fails fault ∧ fault.error = e := by
  obtain ⟨outcome⟩ := reading
  cases outcome <;> simp [result, Fails, Except.mapError]

/-- Of two parts, one that has a fault decides what is reported if its fault stands first. -/
theorem fails_seq {f : Reading (α → β)} {x : Reading α} {fault : Fault} :
    (f <*> x).Fails fault ↔
      (f.Fails fault ∧ ∀ other, x.Fails other → fault.position ≤ other.position) ∨
      (x.Fails fault ∧ ∀ other, f.Fails other → fault.position < other.position) := by
  obtain ⟨f⟩ := f
  obtain ⟨x⟩ := x
  show (combine ⟨f⟩ ⟨x⟩).Fails fault ↔ _
  cases f with
  | ok => cases x <;> simp [combine, Fails]
  | error first =>
      cases x with
      | ok => simp [combine, Fails]
      | error second =>
          simp only [combine, Fails, Except.error.injEq]
          grind

/-- The second reading is the first one with some of its faults taken out, all of them `blamed`. -/
structure Relieves (blamed : DecodeError → Prop) (before after : Reading α) : Prop where
  remains : ∀ fault, before.Fails fault → ¬ blamed fault.error → after.Fails fault
  notEarlier : ∀ later, after.Fails later →
    ∃ fault, before.Fails fault ∧ fault.position ≤ later.position

theorem Relieves.refl (reading : Reading α) : Relieves blamed reading reading where
  remains _ hfails _ := hfails
  notEarlier fault hfails := ⟨fault, hfails, Nat.le_refl _⟩

/-- What two parts report stands no later than the faults of either. -/
theorem exists_fails_seq {f : Reading (α → β)} {x : Reading α} {fault : Fault}
    (h : f.Fails fault ∨ x.Fails fault) :
    ∃ first, (f <*> x).Fails first ∧ first.position ≤ fault.position := by
  simp only [fails_seq]
  obtain ⟨f⟩ := f
  obtain ⟨x⟩ := x
  simp only [Fails] at h ⊢
  grind

theorem Relieves.seq {f g : Reading (α → β)} {x y : Reading α} (hf : Relieves blamed f g)
    (hx : Relieves blamed x y) : Relieves blamed (f <*> x) (g <*> y) where
  remains fault hfails hown := by
    rw [fails_seq] at hfails ⊢
    rcases hfails with ⟨hfails, hfirst⟩ | ⟨hfails, hfirst⟩
    · refine .inl ⟨hf.remains fault hfails hown, fun later hlater => ?_⟩
      obtain ⟨other, hother, hle⟩ := hx.notEarlier later hlater
      exact (hfirst other hother).trans hle
    · refine .inr ⟨hx.remains fault hfails hown, fun later hlater => ?_⟩
      obtain ⟨other, hother, hle⟩ := hf.notEarlier later hlater
      exact (hfirst other hother).trans_le hle
  notEarlier later hlater := by
    have hone : ∃ fault, (f.Fails fault ∨ x.Fails fault) ∧ fault.position ≤ later.position := by
      rcases fails_seq.1 hlater with ⟨hlater, -⟩ | ⟨hlater, -⟩
      · obtain ⟨fault, hfails, hle⟩ := hf.notEarlier later hlater
        exact ⟨fault, .inl hfails, hle⟩
      · obtain ⟨fault, hfails, hle⟩ := hx.notEarlier later hlater
        exact ⟨fault, .inr hfails, hle⟩
    obtain ⟨fault, hfails, hle⟩ := hone
    obtain ⟨first, hfirst, hbefore⟩ := exists_fails_seq hfails
    exact ⟨first, hfirst, hbefore.trans hle⟩

theorem Relieves.map {x y : Reading α} (h : Relieves blamed x y) (g : α → β) :
    Relieves blamed (g <$> x) (g <$> y) :=
  Relieves.seq (.refl (ok g)) h

/-- An error that is not blamed is reported afterwards as well. -/
theorem Relieves.result {before after : Reading α} {e : DecodeError}
    (h : Relieves blamed before after) (hfails : before.result = .error e) (hown : ¬ blamed e) :
    after.result = .error e := by
  obtain ⟨fault, hfault, rfl⟩ := result_eq_error.1 hfails
  exact result_eq_error.2 ⟨fault, h.remains fault hfault hown, rfl⟩

/-- One value is decoded instead of another that has a blamed error. -/
theorem Relieves.ofExcept {position : Nat} {before after : Except DecodeError α}
    (hremains : ∀ e, before = .error e → ¬ blamed e → after = .error e)
    (hstays : ∀ a, before = .ok a → ∃ b, after = .ok b) :
    Relieves blamed (.ofExcept position before) (.ofExcept position after) := by
  constructor
  · intro fault hfails hown
    cases before with
    | ok => cases hfails
    | error e =>
        cases hfails
        rw [hremains e rfl hown]
        rfl
  · intro later hlater
    cases after with
    | ok => cases hlater
    | error e' =>
        cases hlater
        cases before with
        | ok a =>
            obtain ⟨b, hb⟩ := hstays a rfl
            cases hb
        | error e => exact ⟨⟨position, e⟩, rfl, Nat.le_refl _⟩

end Faults

end Reading

namespace Decoder

/-- A list that is not decoded has an item that is not. -/
theorem exists_of_each_eq_error {α : Type} {decode : Decoder α} {items : List Json} {e : DecodeError}
    (h : each decode items = .error e) : ∃ item ∈ items, decode item = .error e := by
  induction items with
  | nil => cases h
  | cons item items ih =>
      unfold each at h
      cases hfirst : decode item with
      | error e' =>
          rw [hfirst] at h
          cases h
          exact ⟨item, .head _, hfirst⟩
      | ok a =>
          rw [hfirst] at h
          cases hrest : each decode items with
          | ok as => rw [hrest] at h; cases h
          | error e' =>
              rw [hrest] at h
              cases h
              obtain ⟨inner, hinner, hfails⟩ := ih hrest
              exact ⟨inner, .tail _ hinner, hfails⟩

end Decoder

namespace Outline

open Step (Parts ofRecord ofFields ofJson guarded branchList branchesIn handlerIn)

/-! ## Steps whose inner steps are read without fault -/

/-- The parts of a step if the steps inside it are read as `inner` says. -/
def partsWith (inner : Json → Step) (fields : List (String × Json)) : Parts where
  branches := (branches? (.obj fields)).map fun entries => .ok (entries.map (Prod.map id inner))
  onFail := (Table.get? "onFail" fields).map fun value => .ok (some (inner value))

/-- The step is of one of the seven kinds, and its remaining fields fail with the error whatever
steps are inside it. -/
def FailsAlone (step : Json) (e : DecodeError) : Prop :=
  ∃ fields kind, step = .obj fields ∧ kind? step = some kind ∧
    ∀ inner, ofFields kind (partsWith inner fields) fields = .error e

section Parts

variable {blamed : DecodeError → Prop}

/-- The guards of branches, and whether all have one, depend on their keys only. -/
theorem guarded_of_keys {steps others : List (String × Step)}
    (hkeys : Table.keys steps = Table.keys others) :
    (guarded steps).map (List.map Prod.fst) = (guarded others).map (List.map Prod.fst) := by
  induction steps generalizing others with
  | nil =>
      cases others with
      | nil => rfl
      | cons => cases hkeys
  | cons branch steps ih =>
      cases others with
      | nil => cases hkeys
      | cons other others =>
          obtain ⟨key, step⟩ := branch
          obtain ⟨key', step'⟩ := other
          obtain ⟨rfl, hrest⟩ : key = key' ∧ Table.keys steps = Table.keys others := by
            simpa [Table.keys] using hkeys
          have hsame := ih hrest
          unfold guarded
          cases Guard.ofKey? key with
          | none => rfl
          | some guard =>
              cases hsteps : guarded steps <;> cases hothers : guarded others <;>
                simp_all [Except.map]

/-- What some fields are decoded to, and what they are decoded to if the steps inside are read
without fault. -/
structure Relieved {α : Type} (blamed : DecodeError → Prop)
    (before after : Option (Except DecodeError α)) : Prop where
  together : before = none ↔ after = none
  remains : ∀ e, before = some (.error e) → ¬ blamed e → after = some (.error e)
  stays : ∀ a, before = some (.ok a) → ∃ b, after = some (.ok b)

section Relieved

variable {α : Type} {name : String} {record : Record}

/-- Both are missing, or the fault of the first one is taken out wherever the field stands. -/
theorem Relieved.none_or_some {before after : Option (Except DecodeError α)}
    (h : Relieved blamed before after) : before = none ∧ after = none ∨
      ∃ outcome relieved, before = some outcome ∧ after = some relieved ∧
        ∀ position, Reading.Relieves blamed (.ofExcept position outcome)
          (.ofExcept position relieved) := by
  obtain ⟨together, remains, stays⟩ := h
  cases before with
  | none => exact .inl ⟨rfl, together.1 rfl⟩
  | some outcome =>
      cases after with
      | none => cases together.2 rfl
      | some relieved =>
          refine .inr ⟨outcome, relieved, rfl, rfl, fun position => .ofExcept ?_ ?_⟩
          · rintro e rfl hown
            exact Option.some.inj (remains e rfl hown)
          · rintro a rfl
            obtain ⟨b, hb⟩ := stays a rfl
            exact ⟨b, Option.some.inj hb⟩

theorem Relieved.settled {before after : Option (Except DecodeError α)}
    (h : Relieved blamed before after) :
    Reading.Relieves blamed (record.settled name before) (record.settled name after) := by
  unfold Record.settled
  rcases h.none_or_some with ⟨rfl, rfl⟩ | ⟨outcome, relieved, rfl, rfl, hrelieves⟩
  · exact .refl _
  · cases record.find? name with
    | none => exact .refl _
    | some found => exact hrelieves _

theorem Relieved.settledOrNone {before after : Option (Except DecodeError (Option α))}
    (h : Relieved blamed before after) : Reading.Relieves blamed
      (record.settledOrNone name before) (record.settledOrNone name after) := by
  unfold Record.settledOrNone
  rcases h.none_or_some with ⟨rfl, rfl⟩ | ⟨outcome, relieved, rfl, rfl, hrelieves⟩
  · exact .refl _
  · cases record.find? name with
    | none => exact .refl _
    | some found => exact hrelieves _

end Relieved

section Inside

variable {kind : StepKind} {fields entries : List (String × Json)} {inner : Json → Step}

theorem branchesIn_of_branches? (hmap : branches? (.obj fields) = some entries) :
    branchesIn fields = some (branchList entries) := by
  have hfound : Table.get? "branches" fields = some (.obj entries) := get?_of_branches? hmap
  rw [Step.branchesIn_eq, hfound]
  exact congrArg some (Step.branches.eq_1 entries)

/-- The branches of a step are read without fault, with the keys that they have. -/
theorem relieved_branches (hmap : branches? (.obj fields) = some entries)
    (hblamed : ∀ e, branchList entries = .error e → blamed e) :
    Relieved blamed (branchesIn fields) (partsWith inner fields).branches := by
  rw [branchesIn_of_branches? hmap]
  simp only [partsWith, hmap, Option.map_some]
  exact ⟨by simp, fun e he hown => absurd (hblamed e (Option.some.inj he)) hown,
    fun steps _ => ⟨_, rfl⟩⟩

theorem relieved_guarded (hmap : branches? (.obj fields) = some entries)
    (hblamed : ∀ e, branchList entries = .error e → blamed e) :
    Relieved blamed ((branchesIn fields).map fun branches => branches.bind guarded)
      ((partsWith inner fields).branches.map fun branches => branches.bind guarded) := by
  rw [branchesIn_of_branches? hmap]
  simp only [partsWith, hmap, Option.map_some]
  cases hlist : branchList entries with
  | error e =>
      refine ⟨by simp, ?_, nofun⟩
      rintro e' ⟨⟩ hown
      exact absurd (hblamed e hlist) hown
  | ok steps =>
      have hkeys : Table.keys steps = Table.keys (entries.map (Prod.map id inner)) := by
        rw [(Step.branchList_decoded hlist).1]
        simp [Table.keys]
      have hsame := guarded_of_keys hkeys
      refine ⟨by simp, fun e he _ => ?_, fun choices hchoices => ?_⟩
      · rw [show guarded steps = .error e from Option.some.inj he] at hsame
        cases hothers : guarded (entries.map (Prod.map id inner)) with
        | ok => rw [hothers] at hsame; cases hsame
        | error => rw [hothers] at hsame; cases hsame; exact congrArg some hothers
      · rw [show guarded steps = .ok choices from Option.some.inj hchoices] at hsame
        cases hothers : guarded (entries.map (Prod.map id inner)) with
        | ok choices' => exact ⟨choices', congrArg some hothers⟩
        | error => rw [hothers] at hsame; cases hsame

theorem relieved_handler (hblamed : ∀ e, handlerIn fields = some (.error e) → blamed e) :
    Relieved blamed (handlerIn fields) (partsWith inner fields).onFail := by
  rw [Step.handlerIn_eq] at hblamed ⊢
  unfold partsWith
  generalize Table.get? "onFail" fields = found at hblamed ⊢
  cases found with
  | none => exact ⟨by simp, fun _ he _ => he, nofun⟩
  | some value =>
      exact ⟨by simp, fun e he hown => absurd (hblamed e he) hown, fun _ _ => ⟨_, rfl⟩⟩

/-- If reading the steps inside without fault takes out blamed errors only, then the error of a step
is its own or blamed. -/
theorem failsAlone_or_blamed {e : DecodeError} (hkind : kind? (.obj fields) = some kind)
    (hrelieves : ∀ inner, Reading.Relieves blamed
      (ofRecord kind ⟨branchesIn fields, handlerIn fields⟩ (Step.recordOf fields))
      (ofRecord kind (partsWith inner fields) (Step.recordOf fields)))
    (hfails : ofFields kind ⟨branchesIn fields, handlerIn fields⟩ fields = .error e) :
    FailsAlone (.obj fields) e ∨ blamed e := by
  by_cases hown : blamed e
  · exact .inr hown
  · exact .inl ⟨fields, kind, rfl, hkind, fun inner => (hrelieves inner).result hfails hown⟩

/-- A step of a known kind is read from its remaining fields. -/
theorem ofJson_of_kind? {nested : Bool} (hkind : kind? (.obj fields) = some kind) :
    ofJson nested (.obj fields) = ofFields kind ⟨branchesIn fields, handlerIn fields⟩ fields := by
  obtain ⟨name, htype, hname⟩ := Option.bind_eq_some_iff.1 hkind
  obtain ⟨tag, hfound, htag⟩ := Option.bind_eq_some_iff.1 htype
  have hfound : Table.get? Step.tagKey fields = some tag := hfound
  cases tag with
  | str text =>
      obtain rfl : text = name := Option.some.inj htag
      rw [ofJson, hfound]
      simp only [StepKind.ofTag, hname]
      rfl
  | _ => cases htag

end Inside

end Parts

/-! ## The step that is at fault -/

/-- One of the steps fails alone. -/
def FailsAmong (steps : List Json) (e : DecodeError) : Prop :=
  ∃ step ∈ steps, FailsAlone step e

theorem FailsAmong.mono {steps more : List Json} {e : DecodeError} (hsubset : steps ⊆ more)
    (h : FailsAmong steps e) : FailsAmong more e := by
  obtain ⟨step, hstep, hfails⟩ := h
  exact ⟨step, hsubset hstep, hfails⟩

/-- A step that has to branch and does not offend has a map of branches. -/
theorem exists_branches {step : Json} (h : offends step = false)
    (hkind : kind? step = some .switch ∨ kind? step = some .choose) :
    ∃ entries, branches? step = some entries := by
  cases hmap : branches? step with
  | none => rcases hkind with hkind | hkind <;> simp [offends, hkind, hmap] at h
  | some entries => exact ⟨entries, rfl⟩

/-- Branches are decoded as a list of steps, each with its key. -/
theorem branchList_eq_each (entries : List (String × Json)) : branchList entries =
    (Decoder.each (ofJson true) (entries.map Prod.snd)).map (Table.keys entries).zip := by
  induction entries with
  | nil =>
      rw [branchList]
      rfl
  | cons entry entries ih =>
      obtain ⟨key, value⟩ := entry
      rw [branchList, List.map_cons, Decoder.each, ih]
      cases ofJson true value with
      | error e => rfl
      | ok step => cases Decoder.each (ofJson true) (entries.map Prod.snd) <;> rfl

theorem exists_of_branchList_eq_error {entries : List (String × Json)} {e : DecodeError}
    (h : branchList entries = .error e) :
    ∃ inner ∈ entries.map Prod.snd, ofJson true inner = .error e := by
  rw [branchList_eq_each] at h
  apply Decoder.exists_of_each_eq_error
  cases hsteps : Decoder.each (ofJson true) (entries.map Prod.snd) with
  | ok steps => rw [hsteps] at h; cases h
  | error e' => rw [hsteps] at h; cases h; rfl

theorem exists_of_handlerIn_eq_error {fields : List (String × Json)} {e : DecodeError}
    (h : handlerIn fields = some (.error e)) :
    ∃ inner, Table.get? "onFail" fields = some inner ∧ ofJson true inner = .error e := by
  rw [Step.handlerIn_eq] at h
  obtain ⟨inner, hfound, hfails⟩ := Option.map_eq_some_iff.1 h
  refine ⟨inner, hfound, ?_⟩
  rw [Step.handler_eq_nullable] at hfails
  cases inner with
  | null => cases hfails
  | _ =>
      simp only [Decoder.nullable] at hfails
      generalize ofJson true _ = result at hfails ⊢
      cases result with
      | ok => cases hfails
      | error => cases hfails; rfl

/-- If a step is not read although none offends in it, then one of its steps fails alone. -/
theorem failsAmong_of_ofJson {step : Json} {nested : Bool} {e : DecodeError}
    (hnone : ∀ s ∈ stepsOf step, offends s = false) (hfails : ofJson nested step = .error e) :
    FailsAmong (stepsOf step) e := by
  -- The induction goes into the step; what is blamed on the way are the errors of steps inside it.
  induction step using inside_induction generalizing nested e with
  | h step ih =>
    rw [stepsOf_eq] at hnone ⊢
    obtain ⟨hself, hinside⟩ := List.forall_mem_cons.1 hnone
    have hblamed : ∀ inner ∈ inside step, ∀ e, ofJson true inner = .error e →
        FailsAmong (step :: (inside step).flatMap stepsOf) e := by
      intro inner hinner e hfails
      have hsteps : ∀ s ∈ stepsOf inner, s ∈ (inside step).flatMap stepsOf := fun s hs =>
        List.mem_flatMap.2 ⟨inner, hinner, hs⟩
      exact (ih inner hinner (fun s hs => hinside s (hsteps s hs)) hfails).mono
        fun s hs => List.mem_cons_of_mem step (hsteps s hs)
    cases hkind : kind? step with
    | none => simp [offends, hkind] at hself
    | some kind =>
        cases step with
        | obj fields =>
            rw [ofJson_of_kind? hkind] at hfails
            generalize hmore : Json.obj fields :: (inside (.obj fields)).flatMap stepsOf = more at hblamed ⊢
            suffices halone : FailsAlone (.obj fields) e ∨ FailsAmong more e by
              rcases halone with halone | hamong
              · exact ⟨.obj fields, by simp [← hmore], halone⟩
              · exact hamong
            apply failsAlone_or_blamed hkind _ hfails
            intro inner
            cases kind with
            | switch =>
                obtain ⟨entries, hmap⟩ := exists_branches hself (.inl hkind)
                have hbranches : inside (.obj fields) = entries.map Prod.snd := by
                  simp only [inside, hkind, hmap, Option.getD_some]
                refine (Reading.Relieves.refl _).seq (relieved_branches hmap ?_).settled
                intro e he
                obtain ⟨s, hs, hfails⟩ := exists_of_branchList_eq_error he
                exact hblamed s (hbranches ▸ hs) e hfails
            | choose =>
                obtain ⟨entries, hmap⟩ := exists_branches hself (.inr hkind)
                have hbranches : inside (.obj fields) = entries.map Prod.snd := by
                  simp only [inside, hkind, hmap, Option.getD_some]
                refine (Reading.Relieves.refl _).seq (relieved_guarded hmap ?_).settled
                intro e he
                obtain ⟨s, hs, hfails⟩ := exists_of_branchList_eq_error he
                exact hblamed s (hbranches ▸ hs) e hfails
            | callTool =>
                refine (Reading.Relieves.refl _).seq (relieved_handler ?_).settledOrNone
                intro e he
                obtain ⟨s, hs, hfails⟩ := exists_of_handlerIn_eq_error he
                have hhandler : s ∈ inside (.obj fields) := by
                  simp only [inside, hkind, Json.get?, hs, Option.toList_some, List.mem_singleton]
                exact hblamed s hhandler e hfails
            | say | ask | set | callFlow => exact .refl _
        | _ => cases hkind

end Outline

namespace Definition

open Outline (FailsAmong stepsOfFlow stepsOf)

/-- The flow fails with the error without any steps. -/
def FailsWithoutSteps (flow : Json) (e : DecodeError) : Prop :=
  ∃ fields, flow = .obj fields ∧ decoder (.obj (Table.set "steps" (.arr []) fields)) = .error e

section SetEntry

variable {α : Type} {blamed : DecodeError → Prop} {name key : String} {fields : Fields}
  {value : Json} {decode : Decoder α}

theorem find?_set (hname : name ≠ key) (hkey : key ∈ Table.keys fields) :
    Record.find? name ⟨Table.set key value fields, none⟩ = Record.find? name ⟨fields, none⟩ := by
  simp only [Record.find?, Table.get?_set, if_neg (Ne.symm hname), Table.keys_set_of_mem hkey]

theorem relieves_withDefault {default : α} (hname : name ≠ key) (hkey : key ∈ Table.keys fields) :
    Reading.Relieves blamed (Record.withDefault name default decode ⟨fields, none⟩)
      (Record.withDefault name default decode ⟨Table.set key value fields, none⟩) := by
  simp only [Record.withDefault, find?_set hname hkey]
  exact .refl _

theorem relieves_required (hname : name ≠ key) (hkey : key ∈ Table.keys fields) :
    Reading.Relieves blamed (Record.required name decode ⟨fields, none⟩)
      (Record.required name decode ⟨Table.set key value fields, none⟩) := by
  have hkeys : Table.keys (Table.set key value fields) = Table.keys fields :=
    Table.keys_set_of_mem hkey
  have hlength : (Table.set key value fields).length = fields.length := by
    simpa [Table.keys] using congrArg List.length hkeys
  simp only [Record.required, Record.absent, find?_set hname hkey, hlength]
  exact .refl _

end SetEntry

/-- Without the steps of a flow the errors of its steps are gone. -/
theorem relieves_steps {blamed : DecodeError → Prop} {fields : Fields} {steps : List Json}
    (hsteps : Table.get? "steps" fields = some (.arr steps))
    (hblamed : ∀ step ∈ steps, ∀ e, Step.ofJson false step = .error e → blamed e) :
    Reading.Relieves blamed
      (Record.required "steps" (Decoder.list (Step.ofJson false)) ⟨fields, none⟩)
      (Record.required "steps" (Decoder.list (Step.ofJson false))
        ⟨Table.set "steps" (.arr []) fields, none⟩) := by
  have hkey : "steps" ∈ Table.keys fields := Table.mem_keys_of_mem (Table.mem_of_get? hsteps)
  simp only [Record.required, Record.find?, Table.get?_set, if_true, hsteps,
    Table.keys_set_of_mem hkey, Option.map_some]
  refine .ofExcept (fun e he hown => absurd ?_ hown) fun _ _ => ⟨[], rfl⟩
  obtain ⟨step, hstep, hfails⟩ := Decoder.exists_of_each_eq_error he
  exact hblamed step hstep e hfails

/-- If a flow whose outline is in order is not decoded, then that is the fault of its own fields or of
one of its steps. -/
theorem fault_of_decoder {flow : Json} {e : DecodeError} (hcheck : Outline.checkFlow flow = .ok ())
    (hfails : decoder flow = .error e) :
    FailsWithoutSteps flow e ∨ FailsAmong (stepsOfFlow flow) e := by
  obtain ⟨hlist, hnone⟩ := Outline.checkFlow_eq_ok_iff.1 hcheck
  obtain ⟨steps, hsteps⟩ := Option.isSome_iff_exists.1 hlist
  obtain ⟨value, hfound, hvalue⟩ := Option.bind_eq_some_iff.1 hsteps
  obtain rfl : value = .arr steps := by
    cases value <;> simp_all [Json.asArr?]
  have hinside : ∀ step ∈ steps, stepsOf step ⊆ stepsOfFlow flow := by
    intro step hstep s hs
    simp only [stepsOfFlow, Outline.outermost, hsteps, Option.getD_some]
    exact List.mem_flatMap.2 ⟨step, hstep, hs⟩
  have hblamed : ∀ step ∈ steps, ∀ e, Step.ofJson false step = .error e →
      FailsAmong (stepsOfFlow flow) e := fun step hstep e he =>
    (Outline.failsAmong_of_ofJson (fun s hs => hnone s (hinside step hstep hs)) he).mono
      (hinside step hstep)
  cases flow with
  | obj fields =>
      have hfound : Table.get? "steps" fields = some (.arr steps) := hfound
      have hkey : "steps" ∈ Table.keys fields := Table.mem_keys_of_mem (Table.mem_of_get? hfound)
      by_cases hown : FailsAmong (stepsOfFlow (.obj fields)) e
      · exact .inr hown
      · refine .inl ⟨fields, rfl, ?_⟩
        apply Reading.Relieves.result _ hfails hown
        refine ((((((Reading.Relieves.map ?_ Definition.mk).seq ?_).seq ?_).seq ?_).seq
          (relieves_steps hfound hblamed)).seq ?_).seq ?_
        · exact relieves_withDefault (by decide) hkey
        · exact relieves_required (by decide) hkey
        · exact relieves_withDefault (by decide) hkey
        · exact relieves_withDefault (by decide) hkey
        · exact relieves_withDefault (by decide) hkey
        · exact relieves_withDefault (by decide) hkey
  | _ => cases hfound

end Definition

end Parley
