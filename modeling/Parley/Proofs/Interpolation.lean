import Parley.Proofs.NamesRead
import Parley.Proofs.Refusals

/-!
# What stands between the placeholders stays as it is

A template that alternates text and placeholders is rendered to the same text with
the value of each placeholder in its place.  Values are put in and never read
again.  So the texts that are evaluated are the sources of the placeholders,
whatever the variables hold.  In a template with placeholders inside others the
texts that are evaluated depend on values, but on nothing else of the scope than
the values of these very texts.
-/

set_option autoImplicit false

namespace Parley

namespace Expr

/-! ## Refused sources -/

theorem deniedSegment?_ne_tooDeep (segments : List Segment) :
    deniedSegment? segments ≠ some .tooDeep := by
  induction segments with
  | nil => nofun
  | cons segment segments ih =>
      cases segment with
      | key name =>
          simp only [deniedSegment?]
          split
          · nofun
          · exact ih
      | index position => exact ih

theorem deniedPath?_ne_tooDeep (root : String) (segments : List Segment) :
    deniedPath? root segments ≠ some .tooDeep := by
  unfold deniedPath?
  split
  · nofun
  · exact deniedSegment?_ne_tooDeep segments

theorem or_ne_tooDeep {a b : Option Refusal} (ha : a ≠ some .tooDeep) (hb : b ≠ some .tooDeep) :
    a.or b ≠ some .tooDeep := by
  cases a with
  | none => exact hb
  | some refusal => exact ha

mutual

/-- What is denied in an expression has nothing to do with nesting. -/
theorem denied?_ne_tooDeep : ∀ e : Expr, e.denied? ≠ some .tooDeep
  | .lit _ => nofun
  | .path root segments => deniedPath?_ne_tooDeep root segments
  | .call name args => by
      unfold denied?
      split
      · exact deniedArgs?_ne_tooDeep args
      · nofun
  | .not operand | .neg operand => denied?_ne_tooDeep operand
  | .binary _ left right | .and left right | .or left right =>
      or_ne_tooDeep (denied?_ne_tooDeep left) (denied?_ne_tooDeep right)
  | .cond test yes no =>
      or_ne_tooDeep (or_ne_tooDeep (denied?_ne_tooDeep test) (denied?_ne_tooDeep yes))
        (denied?_ne_tooDeep no)

theorem deniedArgs?_ne_tooDeep : ∀ args : List Expr, deniedArgs? args ≠ some .tooDeep
  | [] => nofun
  | arg :: args => or_ne_tooDeep (denied?_ne_tooDeep arg) (deniedArgs?_ne_tooDeep args)

end

end Expr

theorem Denied.screen?_ne_tooDeep (text : List Char) : screen? text ≠ some .tooDeep := by
  unfold screen?
  simp only
  split
  · nofun
  · split
    · nofun
    · intro hfound
      obtain ⟨word, -, hjudged⟩ := List.exists_of_findSome?_eq_some hfound
      unfold judgeWord? at hjudged
      split at hjudged
      · cases hjudged
      · split at hjudged <;> cases hjudged

theorem Expr.refusal?_ne_tooDeep (source : List Char) : refusal? source ≠ some .tooDeep := by
  unfold refusal?
  simp only
  split
  · nofun
  · split
    · exact denied?_ne_tooDeep _
    · exact Denied.screen?_ne_tooDeep _

namespace Template

variable {scope : Scope} {source : List Char}

/-- The text of a value, or the note that quotes the source if it is refused. -/
def shown (scope : Scope) (source : List Char) : List Char :=
  match Expr.evaluate scope source with
  | .ok value => value.display.toList
  | .error _ => (blockedNote source).toList

theorem chars_present_evaluate (scope : Scope) (source : List Char) :
    (present source (Expr.evaluate scope source)).chars = shown scope source := by
  unfold shown
  cases hrefusal : Expr.refusal? source with
  | none =>
      obtain ⟨value, hvalue⟩ := Expr.exists_evaluate_of_refusal? hrefusal scope
      rw [hvalue]
      rfl
  | some refusal =>
      rw [Expr.evaluate_of_refusal? hrefusal scope]
      -- the marker for nesting is the only note that does not quote the source
      cases refusal with
      | tooDeep => exact absurd hrefusal (Expr.refusal?_ne_tooDeep source)
      | _ => rfl

/-! ## Text and placeholders in turn -/

theorem firstHole?_of_plain {text : List Char} (h : hasOpening text = false) :
    firstHole? text = none := by
  fun_induction firstHole? text with
  | case1 text => cases h
  | case2 c text hother ih =>
      have htail : hasOpening text = false := by
        rw [hasOpening.eq_def] at h
        split at h <;> simp_all
      rw [ih htail]
      rfl
  | case3 => rfl

/-- The text that begins with `first` and goes on with what is put in for each placeholder and with
the text after it. -/
def filled (put : List Char → List Char) (first : List Char) :
    List (List Char × List Char) → List Char
  | [] => first
  | (source, next) :: holes => first ++ (put source ++ filled put next holes)

section

variable {first : List Char} {holes : List (List Char × List Char)}

theorem renderPieces_written (limit depth : Nat) (scope : Scope) (h : Framed first holes) :
    (renderPieces limit scope depth (ofText (written first holes))).chars =
      filled (shown scope) first holes := by
  induction holes generalizing first with
  | nil =>
      rw [ofText_written_nil h]
      exact List.append_nil first
  | cons hole holes ih =>
      obtain ⟨source, next⟩ := hole
      obtain ⟨hbare, -⟩ := h.sources source List.mem_cons_self
      have hsettled : settle limit scope depth source
          (renderPieces limit scope (depth + 1) (ofText source)) = Expr.evaluate scope source := by
        rw [settle, hasOpening_eq_false hbare]
        rfl
      rw [ofText_written_cons h]
      simp only [renderPieces, renderPiece, Rendered.append, hsettled, chars_present_evaluate,
        ih h.rest, filled]

theorem evaluatedPieces_written (limit depth : Nat) (scope : Scope) (h : Framed first holes) :
    evaluatedPieces limit scope depth (ofText (written first holes)) = holes.map Prod.fst := by
  induction holes generalizing first with
  | nil =>
      rw [ofText_written_nil h]
      rfl
  | cons hole holes ih =>
      obtain ⟨source, next⟩ := hole
      obtain ⟨hbare, -⟩ := h.sources source List.mem_cons_self
      rw [ofText_written_cons h]
      simp only [evaluatedPieces, evaluatedPiece, hasOpening_eq_false hbare, Bool.false_eq_true,
        if_false, ih h.rest, List.map_cons, List.nil_append, List.singleton_append]

end

end Template

namespace Evaluator

open Template

variable (evaluator : Evaluator)

/-- Plain text is rendered like any other template. -/
theorem interpolate_eq (scope : Scope) (template : String) :
    evaluator.interpolate scope template =
      String.ofList (renderPieces evaluator.limit scope 1 (ofText template.toList)).chars := by
  unfold interpolate
  split
  · rfl
  · rename_i hplain
    rw [ofText_of_none (firstHole?_of_plain (Bool.eq_false_iff.2 hplain))]
    simp [renderPieces, renderPiece, Rendered.append]

/-- The texts that are evaluated when a template is interpolated, in order. -/
def evaluated (scope : Scope) (template : String) : List (List Char) :=
  evaluatedPieces evaluator.limit scope 1 (ofText template.toList)

/-- A text with placeholders is interpolated to the same text with the value of each placeholder in
its place, or with the note that quotes the source if that is refused.  What is evaluated are the
sources of the placeholders in their order, in every scope alike: a value with braces in it is not
read again.  Of any template at all no text is evaluated but those that are listed as such. -/
theorem interpolate_written {first : List Char} {holes : List (List Char × List Char)}
    (h : Framed first holes) :
    (∀ scope, evaluator.interpolate scope (String.ofList (written first holes)) =
      String.ofList (filled (shown scope) first holes)) ∧
    (∀ scope, evaluator.evaluated scope (String.ofList (written first holes)) =
      holes.map Prod.fst) ∧
    ∀ a b template, (∀ source ∈ evaluator.evaluated a template,
        Expr.evaluate b source = Expr.evaluate a source) →
      evaluator.interpolate b template = evaluator.interpolate a template ∧
        evaluator.evaluated b template = evaluator.evaluated a template := by
  refine ⟨fun scope => ?_, fun scope => ?_, fun a b template hsame => ?_⟩
  · rw [interpolate_eq, String.toList_ofList, renderPieces_written evaluator.limit 1 scope h]
  · rw [evaluated, String.toList_ofList, evaluatedPieces_written evaluator.limit 1 scope h]
  · obtain ⟨hrendered, hevaluated⟩ := renderPieces_of_evaluated evaluator.limit 1 _ hsame
    exact ⟨by rw [interpolate_eq, interpolate_eq, hrendered], hevaluated⟩

end Evaluator

namespace Guests

/-- A guest whose name is written like a placeholder. -/
def braced (secret : String) : Scope :=
  ⟨[("name", .str "\x7b\x7bsecret\x7d\x7d"), ("secret", .str secret)], ⟨"", "", "", "", ""⟩⟩

/-- A name and a source that is refused, with the texts after them. -/
def greeted : List (List Char × List Char) :=
  [(" name ".toList, ", ".toList), ("process.env".toList, "!".toList)]

/-- The name is put in as it is written, and the secret is not read. -/
theorem braces_not_read_again :
    Template.Framed "Hi ".toList greeted ∧
      let template := String.ofList (Template.written "Hi ".toList greeted)
      Evaluator.standard.interpolate (braced "fig") template =
        "Hi \x7b\x7bsecret\x7d\x7d, [blocked: process.env]!" ∧
      Evaluator.standard.evaluated (braced "fig") template =
        [" name ".toList, "process.env".toList] ∧
      Evaluator.standard.interpolate (braced "oak") template =
        Evaluator.standard.interpolate (braced "fig") template := by
  have hframed : Template.Framed "Hi ".toList greeted := by decide +kernel
  obtain ⟨hfilled, hevaluated, hread⟩ := Evaluator.standard.interpolate_written hframed
  refine ⟨hframed, ?_, hevaluated (braced "fig"), ?_⟩
  · rw [hfilled]
    decide +kernel
  · refine (hread (braced "fig") (braced "oak") _ ?_).1
    rw [hevaluated]
    intro source hsource
    simp only [greeted, List.map_cons, List.map_nil, List.mem_cons, List.not_mem_nil,
      or_false] at hsource
    have hname : Expr.namesRead " name ".toList = ["name"] := by decide +kernel
    have hdenied : Expr.namesRead "process.env".toList = [] := by decide +kernel
    rcases hsource with rfl | rfl
    · refine Expr.evaluate_congr ⟨rfl, fun name hnamed => ?_⟩
      rw [hname] at hnamed
      obtain rfl := List.mem_singleton.1 hnamed
      rfl
    · refine Expr.evaluate_congr ⟨rfl, fun name hnamed => ?_⟩
      rw [hdenied] at hnamed
      cases hnamed

end Guests

end Parley
