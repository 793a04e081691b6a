import Parley.Proofs.Libraries

/-!
# Flows out of files

A file is read and decoded as a whole before a flow of it is added, so a fault in
its text leaves the library as it was.  Its flows are then added one after
another.  The first one that is refused ends the loading, and the flows in front
of it stay: the library is as it was exactly if there are none.
-/

set_option autoImplicit false

namespace Parley

namespace Library

variable {library : Library} {file : String} {content : Option String}

/-- The library with several flows at the end. -/
def addAll (library : Library) (flows : List Definition) : Library :=
  flows.foldl add library

theorem flows_addAll (library : Library) (flows : List Definition) :
    (library.addAll flows).flows = library.flows ++ flows := by
  induction flows generalizing library with
  | nil => exact (List.append_nil _).symm
  | cons flow later ih =>
      calc ((library.add flow).addAll later).flows
          = (library.add flow).flows ++ later := ih _
        _ = library.flows ++ flow :: later := by rw [flows_add, List.append_assoc]; rfl

/-- A library with more flows is another one. -/
theorem addAll_eq_self_iff {flows : List Definition} : library.addAll flows = library ↔ flows = [] := by
  constructor
  · intro hsame
    have hflows := library.flows_addAll flows
    rw [hsame] at hflows
    exact List.self_eq_append_right.1 hflows
  · rintro rfl
    rfl

/-- Flows that are added until one is refused are all added, or those in front of the first one that
the library with them refuses. -/
theorem insertUntil_cases (library : Library) (flows : List Definition) :
    library.insertUntil flows = (library.addAll flows, none) ∨
    ∃ added refused later error, flows = added ++ refused :: later ∧
      library.insertUntil added = (library.addAll added, none) ∧
      ((library.addAll added).register refused).2 = some error ∧
      library.insertUntil flows = (library.addAll added, some error) := by
  induction flows generalizing library with
  | nil => exact .inl rfl
  | cons flow later ih =>
      rcases library.register_cases flow with ⟨key, -, -, hrefused⟩ | ⟨-, hadded⟩
      · refine .inr ⟨[], flow, later, _, rfl, rfl, congrArg Prod.snd hrefused, ?_⟩
        rw [insertUntil, hrefused]
        rfl
      · have hnext : ∀ flows, library.insertUntil (flow :: flows) =
            (library.add flow).insertUntil flows := by
          intro flows
          rw [insertUntil, hadded]
        rcases ih (library.add flow) with hall | ⟨added, refused, rest, error, rfl, hfirst, herror, hlast⟩
        · exact .inl ((hnext later).trans hall)
        · exact .inr ⟨flow :: added, refused, rest, error, rfl, (hnext added).trans hfirst, herror,
            (hnext _).trans hlast⟩

/-- A flow of the file is refused after others of the file have been added. -/
def CutShort (library : Library) (file : String) (content : Option String) : Prop :=
  ∃ added refused later, flowsIn file content = .ok (added ++ refused :: later) ∧ added ≠ [] ∧
    (library.insertUntil added).2 = none ∧
    ((library.insertUntil added).1.register refused).2 ≠ none

/-- A file that is loaded has all its flows added, in its order.  A file that is refused leaves the
library as it was, unless one of its flows was refused after others of them were added. -/
theorem loaded_whole_unless_cut_short (library : Library) (file : String)
    (content : Option String) :
    (∀ count, (library.loadFile file content).2 = .ok count →
      ∃ flows, flowsIn file content = .ok flows ∧ flows.length = count ∧
        (library.loadFile file content).1 = library.addAll flows ∧
        (library.loadFile file content).1.flows = library.flows ++ flows) ∧
    ∀ error, (library.loadFile file content).2 = .error error →
      ((library.loadFile file content).1 = library ↔ ¬library.CutShort file content) := by
  unfold loadFile
  cases hflows : flowsIn file content with
  | error cause =>
      refine ⟨nofun, fun error _ => iff_of_true rfl ?_⟩
      rintro ⟨added, refused, later, hread, -⟩
      rw [hflows] at hread
      cases hread
  | ok flows =>
      rcases library.insertUntil_cases flows with
        hall | ⟨added, refused, later, cause, rfl, hadded, hrefused, hstopped⟩
      · simp only [hall]
        refine ⟨?_, nofun⟩
        rintro count ⟨⟩
        exact ⟨flows, rfl, rfl, rfl, library.flows_addAll flows⟩
      · simp only [hstopped]
        refine ⟨nofun, fun error _ => ?_⟩
        rw [addAll_eq_self_iff, ← not_ne_iff, not_iff_not]
        constructor
        · intro hsome
          refine ⟨added, refused, later, hflows, hsome, congrArg Prod.snd hadded, ?_⟩
          rw [hadded, hrefused]
          exact Option.some_ne_none cause
        · -- if nothing was added the library refuses the first flow, so nothing can be added
          rintro ⟨others, next, rest, hread, hsome, hothers, -⟩ rfl
          rw [hflows] at hread
          cases others with
          | nil => exact hsome rfl
          | cons first others =>
              cases hread
              rcases library.register_cases refused with ⟨key, -, -, hkey⟩ | ⟨-, hfree⟩
              · rw [insertUntil, hkey] at hothers
                cases hothers
              · rw [addAll, List.foldl_nil, hfree] at hrefused
                cases hrefused

end Library

namespace Kiosk

/-- A file with two flows of one name. -/
def twice : String :=
  "[\x7b\"name\": \"Order\", \"steps\": []\x7d, \x7b\"name\": \"Order\", \"steps\": []\x7d]"

/-- The second flow is refused, and the first one stays. -/
theorem order_left_behind : ¬ ∀ (library : Library) (file : String) (content : Option String)
    (error : LoadError), (library.loadFile file content).2 = .error error →
      (library.loadFile file content).1 = library := by
  intro hkept
  have hfails : (Library.empty.loadFile "menu.json" (some twice)).2.toBool = false := by
    decide +kernel
  have hone : (Library.empty.loadFile "menu.json" (some twice)).1.flows.length = 1 := by
    decide +kernel
  cases hresult : (Library.empty.loadFile "menu.json" (some twice)).2 with
  | ok count =>
      rw [hresult] at hfails
      cases hfails
  | error error =>
      rw [hkept _ _ _ error hresult] at hone
      cases hone

end Kiosk

end Parley
