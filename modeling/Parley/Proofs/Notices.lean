import Mathlib.Data.List.Infix
import Parley.Message.Catalog

/-!
# Arguments of notices

The places of a notice are filled one argument after another.  Filling one place
leaves the places of all other names where they are, so a notice that has a place
for its last argument mentions that argument, whatever the other arguments are.
-/

set_option autoImplicit false

namespace Parley

namespace Text

variable {part old new text : List Char}

theorem contains_iff : contains part text = true ↔ part <:+: text := by
  induction text with
  | nil => simp [contains, List.infix_nil]
  | cons c text ih =>
      rw [contains, Bool.or_eq_true, ih, List.isPrefixOf_iff_prefix, List.infix_cons_iff]

/-- A text in which something is replaced contains what replaces it. -/
theorem infix_replace (hold : old ≠ []) (new : List Char) (h : old <:+: text) :
    new <:+: replace old new text := by
  unfold replace
  induction text with
  | nil => exact absurd (List.infix_nil.1 h) hold
  | cons c text ih =>
      unfold replaceAfter
      split
      · exact (List.prefix_append _ _).isInfix
      · rename_i hprefix
        rcases List.infix_cons_iff.1 h with hhere | hlater
        · exact absurd (List.isPrefixOf_iff_prefix.2 hhere) hprefix
        · exact (ih hlater).trans (List.suffix_cons c _).isInfix

end Text

namespace Catalog

open Text

/-- The name has no braces, so that it can stand between two. -/
def IsName (name : String) : Prop :=
  '\x7b' ∉ name.toList ∧ '\x7d' ∉ name.toList

instance (name : String) : Decidable (IsName name) :=
  inferInstanceAs (Decidable (_ ∧ _))

variable {a b : String} {new text : List Char}

/-- Two places that begin at the same position are the same. -/
theorem eq_of_placeOf (ha : IsName a) (hb : IsName b) (hplace : placeOf a <+: text)
    (hother : placeOf b <+: text) : a = b := by
  have hend : ∀ {x y : List Char}, '\x7d' ∉ y → x ++ ['\x7d'] <+: y ++ ['\x7d'] → x = y := by
    intro x y hy h
    rcases List.prefix_concat_iff.1 h with hsame | hshorter
    · exact List.append_cancel_right hsame
    · exact absurd (hshorter.subset (by simp)) hy
  apply String.toList_injective
  rcases List.prefix_or_prefix_of_prefix hplace hother with h | h
  · exact hend hb.2 (List.cons_prefix_cons.1 h).2
  · exact (hend ha.2 (List.cons_prefix_cons.1 h).2).symm

theorem replaceAfter_of_not_mem (b : String) (new : List Char) {passed : List Char}
    (h : '\x7b' ∉ passed) (text : List Char) :
    replaceAfter (placeOf b) new 0 (passed ++ text) =
      passed ++ replaceAfter (placeOf b) new 0 text := by
  induction passed with
  | nil => rfl
  | cons c passed ih =>
      obtain ⟨hc, hpassed⟩ := not_or.1 (List.mem_cons.not.1 h)
      have hno : (placeOf b).isPrefixOf (c :: (passed ++ text)) = false := by
        rw [placeOf, List.isPrefixOf_cons_cons, beq_false_of_ne hc, Bool.false_and]
      rw [List.cons_append, replaceAfter, hno]
      simp only [Bool.false_eq_true, if_false, List.cons_append, List.cons.injEq, true_and]
      exact ih hpassed

/-- A place is still there after the places of another name have been filled.  The characters that
are passed over belong to a place of the other name, so no place begins among them. -/
theorem infix_replaceAfter (ha : IsName a) (hb : IsName b) (hne : a ≠ b) (n : Nat)
    (hpassed : '\x7b' ∉ text.take n) (h : placeOf a <:+: text) :
    placeOf a <:+: replaceAfter (placeOf b) new n text := by
  induction text generalizing n with
  | nil => simp [placeOf, List.infix_nil] at h
  | cons c text ih =>
      cases n with
      | succ n =>
          rw [List.take_succ_cons, List.mem_cons, not_or] at hpassed
          rcases List.infix_cons_iff.1 h with hhere | hlater
          · exact absurd (List.cons_prefix_cons.1 hhere).1 hpassed.1
          · exact ih n hpassed.2 hlater
      | zero =>
          unfold replaceAfter
          split
          · rename_i hother
            rw [List.isPrefixOf_iff_prefix] at hother
            rcases List.infix_cons_iff.1 h with hhere | hlater
            · exact absurd (eq_of_placeOf ha hb hhere hother) hne
            · have hinside : '\x7b' ∉ text.take ((placeOf b).length - 1) := by
                obtain ⟨rest, hrest⟩ := hother
                obtain ⟨-, htext⟩ := List.cons.inj hrest
                have hlength : (placeOf b).length - 1 = (b.toList ++ ['\x7d']).length := by
                  simp [placeOf]
                rw [← htext, hlength, List.append_eq, List.take_left]
                simpa using hb.1
              exact (ih _ hinside hlater).trans (List.suffix_append _ _).isInfix
          · rcases List.infix_cons_iff.1 h with hhere | hlater
            · -- inside the place itself nothing can be replaced
              obtain ⟨rest, hrest⟩ := hhere
              obtain ⟨hc, htext⟩ := List.cons.inj hrest
              have hfree : '\x7b' ∉ a.toList ++ ['\x7d'] := by simpa using ha.1
              rw [← hc, ← htext, List.append_eq, replaceAfter_of_not_mem b new hfree rest,
                ← List.cons_append]
              exact (List.prefix_append _ _).isInfix
            · exact (ih 0 (by simp) hlater).trans (List.suffix_cons c _).isInfix

/-- A text with a place for the last argument mentions that argument once its places are filled. -/
theorem infix_fill {arguments : List (String × String)} {name : String} (value : String)
    (hname : IsName name) (hothers : ∀ other ∈ arguments, IsName other.1 ∧ name ≠ other.1)
    (h : placeOf name <:+: text) :
    value.toList <:+: fill (arguments ++ [(name, value)]) text := by
  unfold fill
  rw [List.foldl_append]
  induction arguments generalizing text with
  | nil => exact infix_replace (by simp [placeOf]) _ h
  | cons first later ih =>
      obtain ⟨hfirst, hlater⟩ := List.forall_mem_cons.1 hothers
      exact ih hlater (infix_replaceAfter hname hfirst.1 hfirst.2 0 (by simp) h)

/-- A notice with a place for its last argument mentions that argument. -/
theorem mentions_format (catalog : Catalog) (language key : String)
    {arguments : List (String × String)} {name : String} (value : String)
    (hname : IsName name) (hothers : ∀ other ∈ arguments, IsName other.1 ∧ name ≠ other.1)
    (h : Text.contains (placeOf name) (catalog.get language key).toList = true) :
    mentions value (catalog.format language key (arguments ++ [(name, value)])) = true := by
  unfold mentions format onString
  rw [String.toList_ofList, contains_iff]
  exact infix_fill value hname hothers (contains_iff.1 h)

end Catalog

end Parley
