import Parley.Proofs.Conditions
import Parley.Proofs.Screening

/-!
# Texts that look like programs

A text that is no expression is refused if it looks like a program outside of its
quotes; any other stands for itself, and counts as true if it is not blank.  An
apostrophe without a partner is a quote that is never closed.  What stands behind it
is not found, so such a text is passed on and counts as true, whatever else it says.
-/

set_option autoImplicit false

namespace Parley

namespace Denied

variable {part text : List Char}

/-! ## Blanks around a text -/

section Blanks

variable {c : Char} (blank : Text.isBlank c = true)

include blank

theorem notMem_of_blank (hpart : ∀ d ∈ part, isVisible d = true) : c ∉ part := by
  intro hmem
  have hvisible := hpart c hmem
  rw [isVisible, blank] at hvisible
  cases hvisible

theorem isQuote_of_blank : Token.isQuote c = false := by
  by_contra hquote
  have hother := (plain_of_isQuote (Bool.not_eq_false _ ▸ hquote)).1
  rw [blank] at hother
  cases hother

theorem hostile_cons_blank : Hostile (c :: text) ↔ Hostile text := by
  constructor
  · rintro ⟨before, part, after, heq, hpaired, hpart⟩
    obtain ⟨hne, hvisible⟩ := hpart.visible
    cases before with
    | nil =>
        -- the part would begin with the blank
        cases part with
        | nil => exact absurd rfl hne
        | cons d part =>
            obtain ⟨rfl, -⟩ := List.cons.inj heq
            exact absurd List.mem_cons_self (notMem_of_blank blank hvisible)
    | cons d before =>
        obtain ⟨rfl, rfl⟩ := List.cons.inj heq
        have hlater : QuotesPaired before := by
          cases hpaired with
          | plain _ _ rest => exact rest
          | quoted _ hquote =>
              rw [isQuote_of_blank blank] at hquote
              cases hquote
        refine ⟨before, part, after, rfl, hlater,
          hpart.imp (fun e he => .inl ?_) fun e he => .inl he⟩
        rw [List.getLast?_cons, he]
        rfl
  · rintro ⟨before, part, after, rfl, hpaired, hpart⟩
    have hlast : ∀ d ∈ ([] ++ c :: before).getLast?, d ∈ before.getLast? ∨ Text.isBlank d = true :=
      Text.getLast?_append_cons (.inr blank) fun d hd => .inl hd
    exact ⟨c :: before, part, after, rfl, .plain c (isQuote_of_blank blank) hpaired,
      hpart.imp hlast fun d hd => .inl hd⟩

theorem hostile_concat_blank : Hostile (text ++ [c]) ↔ Hostile text := by
  constructor
  · rintro ⟨before, part, after, heq, hpaired, hpart⟩
    obtain ⟨hne, hvisible⟩ := hpart.visible
    rcases List.eq_nil_or_concat after with rfl | ⟨after, d, rfl⟩
    · -- the part would end with the blank
      obtain ⟨front, d, rfl⟩ := (List.eq_nil_or_concat part).resolve_left hne
      rw [List.concat_eq_append, List.append_nil, ← List.append_assoc] at heq
      obtain rfl := List.singleton_inj.1 (List.append_inj' heq rfl).2
      exact absurd (by simp) (notMem_of_blank blank hvisible)
    · rw [List.concat_eq_append, ← List.append_assoc, ← List.append_assoc] at heq
      obtain ⟨rfl, -⟩ := List.append_inj' heq rfl
      refine ⟨before, part, after, List.append_assoc _ _ _, hpaired,
        hpart.imp (fun e he => .inl he) fun e he => .inl ?_⟩
      rw [List.concat_eq_append, List.head?_append, he]
      rfl
  · rintro ⟨before, part, after, rfl, hpaired, hpart⟩
    refine ⟨before, part, after ++ [c], by simp, hpaired,
      hpart.imp (fun d hd => .inl hd) fun d hd => ?_⟩
    cases after with
    | nil =>
        obtain rfl : c = d := by simpa using hd
        exact .inr blank
    | cons e after => exact .inl hd

end Blanks

theorem hostile_append_left {lead : List Char} (hlead : ∀ c ∈ lead, Text.isBlank c = true) :
    Hostile (lead ++ text) ↔ Hostile text := by
  induction lead with
  | nil => rfl
  | cons c lead ih =>
      obtain ⟨hc, hlater⟩ := List.forall_mem_cons.1 hlead
      rw [List.cons_append, hostile_cons_blank hc, ih hlater]

theorem hostile_append_right {trail : List Char} (htrail : ∀ c ∈ trail, Text.isBlank c = true) :
    Hostile (text ++ trail) ↔ Hostile text := by
  induction trail using List.reverseRecOn with
  | nil => rw [List.append_nil]
  | append_singleton trail c ih =>
      have hearlier : ∀ d ∈ trail, Text.isBlank d = true := fun d hd =>
        htrail d (List.mem_append_left _ hd)
      rw [← List.append_assoc, hostile_concat_blank (htrail c (by simp)), ih hearlier]

/-- Blanks around a text make no difference. -/
theorem hostile_trim_iff (text : List Char) : Hostile (Text.trim text) ↔ Hostile text := by
  obtain ⟨lead, trail, htext, hlead, htrail⟩ := Text.exists_blanks_around text
  conv_rhs => rw [htext, hostile_append_left hlead, hostile_append_right htrail]

theorem not_hostile_nil : ¬ Hostile [] := by
  rintro ⟨before, part, after, heq, -, hpart⟩
  exact hpart.visible.1 (List.append_eq_nil_iff.1 (List.append_eq_nil_iff.1 heq.symm).2).1

end Denied

namespace Expr

variable {scope : Scope} {source : List Char}

theorem error_iff_hostile (hparsed : parse? (Text.trim source) = none) :
    (∃ refusal, evaluate scope source = .error refusal) ↔ Denied.Hostile source := by
  rw [← Denied.hostile_trim_iff]
  by_cases hblank : Text.trim source = []
  · rw [evaluate_of_blank hblank, hblank]
    simp [Denied.not_hostile_nil]
  · rw [evaluate_of_unparsed hblank hparsed, ← Denied.isSome_screen?_iff_hostile]
    cases Denied.screen? (Text.trim source) with
    | some refusal => simp
    | none => simp

theorem isLiteral_iff (hparsed : parse? (Text.trim source) = none) :
    IsLiteral source ↔ Text.trim source ≠ [] ∧ ¬ Denied.Hostile source := by
  rw [← Denied.hostile_trim_iff, ← Denied.isSome_screen?_iff_hostile, IsLiteral,
    Bool.not_eq_true, Option.isSome_eq_false_iff, Option.isNone_iff_eq_none]
  exact and_iff_right hparsed

end Expr

namespace Evaluator

/-- A text that is no expression is refused exactly if it is hostile, and otherwise stands for
itself.  As a condition without placeholders it holds exactly if it is neither blank nor hostile. -/
theorem unparsed_refused_iff_hostile (evaluator : Evaluator) (scope : Scope) {source : String}
    (h : Expr.parse? (Text.trim source.toList) = none) :
    ((∃ refusal, Expr.evaluate scope source.toList = .error refusal) ↔
      Denied.Hostile source.toList) ∧
    (¬ Denied.Hostile source.toList → Expr.evaluate scope source.toList =
      .ok (if Text.trim source.toList = [] then .null
        else .str (String.ofList (Text.trim source.toList)))) ∧
    (Template.hasOpening source.toList = false →
      (evaluator.holds scope source = true ↔
        Text.trim source.toList ≠ [] ∧ ¬ Denied.Hostile source.toList)) := by
  refine ⟨Expr.error_iff_hostile h, fun hharmless => ?_, fun hplain => ?_⟩
  · by_cases hblank : Text.trim source.toList = []
    · rw [Expr.evaluate_of_blank hblank, if_pos hblank]
    · obtain ⟨-, -, hscreen⟩ := (Expr.isLiteral_iff h).2 ⟨hblank, hharmless⟩
      rw [Expr.evaluate_of_unparsed hblank h, hscreen, if_neg hblank]
  · have htruthy : (∃ value, Expr.evaluate scope source.toList = .ok value ∧
        value.isTruthy = true) ↔ Expr.IsLiteral source.toList := Expr.evaluate_truthy_of_unparsed h
    rw [holds_iff, ← Expr.isLiteral_iff h, ← htruthy]
    simp only [conditionValue_eq_ok_iff, evaluator.reading?_of_plain scope hplain,
      Option.some.injEq, exists_eq_left']

end Evaluator

namespace Guests

open Denied

/-- A guest of whom nothing is known. -/
def unknown : Scope :=
  ⟨[], ⟨"", "", "", "", ""⟩⟩

/-- What is quoted is passed over, and the keyword behind it is found. -/
theorem return_refused :
    (∃ refusal, Expr.evaluate unknown "say 'a;b' and return".toList = .error refusal) ∧
      Evaluator.standard.holds unknown "say 'a;b' and return" = false ∧
      Evaluator.standard.holds unknown "say 'a;b' and leave" = true := by
  have hhostile : Hostile "say 'a;b' and return".toList :=
    ⟨"say 'a;b' and ".toList, "return".toList, [], by decide, by decide,
      .word (.inl (by decide)) (fun c hc => by cases show some ' ' = some c from hc; rfl) nofun⟩
  have hnone : Expr.parse? (Text.trim "say 'a;b' and return".toList) = none := by decide +kernel
  have hnone' : Expr.parse? (Text.trim "say 'a;b' and leave".toList) = none := by decide +kernel
  obtain ⟨hrefused, -, hholds⟩ :=
    Evaluator.standard.unparsed_refused_iff_hostile unknown hnone
  obtain ⟨-, -, hholds'⟩ := Evaluator.standard.unparsed_refused_iff_hostile unknown hnone'
  refine ⟨hrefused.2 hhostile, ?_, (hholds' (by decide)).2 ⟨by decide, ?_⟩⟩
  · rw [Bool.eq_false_iff, Ne, hholds (by decide), not_and_not_right]
    exact fun _ => hhostile
  · rw [← isSome_screen?_iff_hostile]
    decide +kernel

/-- The apostrophe is the only quote, so nothing is quoted.  Yet what stands behind it is not
screened: the text is passed on and holds. -/
theorem window_passed_on :
    (¬ ∀ source before part after : List Char, Expr.parse? (Text.trim source) = none →
      (∀ quote, Token.isQuote quote = true → source.count quote ≤ 1) →
      source = before ++ (part ++ after) → Suspicious before after part →
      ∃ refusal, Expr.evaluate unknown source = .error refusal) ∧
    Evaluator.standard.holds unknown "it's window.location" = true := by
  refine ⟨fun hrefused => ?_, by decide +kernel⟩
  have hquotes : ∀ quote, Token.isQuote quote = true →
      "it's window.location".toList.count quote ≤ 1 := by
    intro quote hquote
    simp only [Token.isQuote, Bool.or_eq_true, decide_eq_true_eq] at hquote
    rcases hquote with rfl | rfl <;> decide
  have hpart : Suspicious "it's ".toList ".location".toList "window".toList :=
    .word (.inr (.inl (by decide))) (fun c hc => by cases show some ' ' = some c from hc; rfl)
      fun c hc => by cases show some '.' = some c from hc; rfl
  obtain ⟨refusal, hrefusal⟩ := hrefused "it's window.location".toList _ _ _ (by decide +kernel)
    hquotes rfl hpart
  have hpassed : (Expr.evaluate unknown "it's window.location".toList).isOk = true := by
    decide +kernel
  rw [hrefusal] at hpassed
  cases hpassed

end Guests

end Parley
