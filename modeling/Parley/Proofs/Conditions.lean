import Parley.Proofs.Placeholders

/-!
# What makes a condition true

A condition is read in one of three ways: as it stands, as the source that its only
placeholder renders to, or with names bound to the values of its placeholders.  The
text that this leads to is evaluated once.  It counts as true if it is an expression
with a true value and nothing denied in it.  A text that is no expression stands for
itself, and a text that stands for itself is true: only blanks and what looks like a
program are not.
-/

set_option autoImplicit false

namespace Parley

namespace Expr

/-- The text writes an expression with a true value and nothing denied in it. -/
def Affirmed (scope : Scope) (source : List Char) : Prop :=
  ∃ e value, parse? (Text.trim source) = some e ∧ e.denied? = none ∧
    e.eval scope = .ok value ∧ value.isTruthy = true

/-- The text is no expression and stands for itself: it is not blank, and nothing in it looks like a
program. -/
def IsLiteral (source : List Char) : Prop :=
  parse? (Text.trim source) = none ∧ Text.trim source ≠ [] ∧
    Denied.screen? (Text.trim source) = none

variable {scope : Scope} {source : List Char}

theorem evaluate_of_blank (h : Text.trim source = []) : evaluate scope source = .ok .null := by
  simp only [evaluate, h, List.isEmpty_nil, if_true]

theorem evaluate_of_unparsed (hvisible : Text.trim source ≠ [])
    (hparsed : parse? (Text.trim source) = none) :
    evaluate scope source =
      match Denied.screen? (Text.trim source) with
      | some refusal => .error refusal
      | none => .ok (.str (String.ofList (Text.trim source))) := by
  cases hscreen : Denied.screen? (Text.trim source) <;>
    simp [evaluate, hvisible, hparsed, hscreen]

/-- The text that a literal evaluates to is not empty. -/
theorem isTruthy_text {text : List Char} (h : text ≠ []) :
    (Json.str (String.ofList text)).isTruthy = true := by
  simpa [Json.isTruthy, String.isEmpty_iff] using h

theorem evaluate_truthy_of_parsed {e : Expr} (hparsed : parse? (Text.trim source) = some e) :
    (∃ value, evaluate scope source = .ok value ∧ value.isTruthy = true) ↔
      Affirmed scope source := by
  rw [Template.evaluate_of_parse? hparsed, evalChecked]
  constructor
  · rintro ⟨value, hvalue, htruthy⟩
    cases hdenied : e.denied? with
    | some refusal =>
        rw [hdenied] at hvalue
        cases hvalue
    | none =>
        rw [hdenied] at hvalue
        exact ⟨e, value, hparsed, hdenied, hvalue, htruthy⟩
  · rintro ⟨other, value, hother, hdenied, hvalue, htruthy⟩
    obtain rfl := Option.some.inj (hparsed.symm.trans hother)
    exact ⟨value, by rw [hdenied]; exact hvalue, htruthy⟩

theorem evaluate_truthy_of_unparsed (hparsed : parse? (Text.trim source) = none) :
    (∃ value, evaluate scope source = .ok value ∧ value.isTruthy = true) ↔ IsLiteral source := by
  by_cases hblank : Text.trim source = []
  · rw [evaluate_of_blank hblank]
    constructor
    · rintro ⟨value, hvalue, htruthy⟩
      cases hvalue
      cases htruthy
    · intro hliteral
      exact absurd hblank hliteral.2.1
  · rw [evaluate_of_unparsed hblank hparsed]
    constructor
    · rintro ⟨value, hvalue, -⟩
      cases hscreen : Denied.screen? (Text.trim source) with
      | some refusal =>
          rw [hscreen] at hvalue
          cases hvalue
      | none => exact ⟨hparsed, hblank, hscreen⟩
    · intro hliteral
      rw [hliteral.2.2]
      exact ⟨_, rfl, isTruthy_text hblank⟩

/-- A text counts as true as an expression or as a literal, never as both. -/
theorem evaluate_truthy_iff :
    (∃ value, evaluate scope source = .ok value ∧ value.isTruthy = true) ↔
      Affirmed scope source ∨ IsLiteral source := by
  cases hparsed : parse? (Text.trim source) with
  | some e =>
      rw [evaluate_truthy_of_parsed hparsed, or_iff_left]
      intro hliteral
      exact Option.some_ne_none e (hparsed.symm.trans hliteral.1)
  | none =>
      rw [evaluate_truthy_of_unparsed hparsed, or_iff_right]
      rintro ⟨e, -, hother, -⟩
      exact Option.some_ne_none e (hother.symm.trans hparsed)

end Expr

namespace Template

theorem hasOpening_of_part {part text : List Char} (h : part <:+: text)
    (hpart : hasOpening part = true) : hasOpening text = true := by
  have hbraces : ['\x7b', '\x7b'] <:+: part := by
    by_contra hnone
    rw [hasOpening_eq_false hnone] at hpart
    cases hpart
  obtain ⟨before, after, rfl⟩ := hbraces.trans h
  simpa using hasOpening_append before after

/-- A text without opening braces is not one placeholder. -/
theorem single?_of_plain {text : List Char} (h : hasOpening text = false) : single? text = none := by
  rw [single?]
  split
  · rename_i rest hrest
    have htrim : hasOpening (Text.trim text) = true := by rw [hrest]; rfl
    rw [hasOpening_of_part (Text.trim_isInfix text) htrim] at h
    cases h
  · rfl

/-- The text that is evaluated for a placeholder at nesting level `depth`: its source, or what the
placeholders in it render that to; none if one of these is refused or stands too deep. -/
def sourceFor? (limit : Nat) (scope : Scope) (depth : Nat) (inner : List Char) :
    Option (List Char) :=
  if hasOpening inner then
    let nested := renderPieces limit scope (depth + 1) (ofText inner)
    if limit < depth + 1 ∨ nested.refused = true then none else some nested.chars
  else some inner

theorem expand_eq_ok_iff {limit : Nat} {scope : Scope} {depth : Nat} {inner : List Char}
    {value : Json} :
    expand limit scope depth inner (ofText inner) = .ok value ↔
      ∃ source, sourceFor? limit scope depth inner = some source ∧
        Expr.evaluate scope source = .ok value := by
  rw [expand, settle, sourceFor?]
  cases hopening : hasOpening inner with
  | false => simp
  | true =>
      by_cases hdeep : limit < depth + 1
      · simp [hdeep]
      · cases hrefused : (renderPieces limit scope (depth + 1) (ofText inner)).refused with
        | false => simp [hdeep, hrefused]
        | true =>
            simp only [if_true, if_neg hdeep, hrefused, or_true, reduceCtorEq, false_and,
              exists_false, iff_false]
            split <;> simp

end Template

namespace Evaluator

/-- What a condition is read as: a source text, and the scope in which that is evaluated. -/
structure Reading where
  scope : Scope
  source : List Char

variable (evaluator : Evaluator) (scope : Scope)

/-- The text that a condition is evaluated from, with its scope; none if one of its placeholders is
refused. -/
def reading? (condition : List Char) : Option Reading :=
  match Template.single? condition with
  | some inner => (Template.sourceFor? evaluator.limit scope 1 inner).map (⟨scope, ·⟩)
  | none =>
    if Template.hasOpening condition then
      (Template.bind? evaluator.limit scope 0 (Template.ofText condition)).map
        fun (source, bindings) => ⟨withBindings scope bindings, source⟩
    else some ⟨scope, condition⟩

/-- A condition without placeholders is read as it stands. -/
theorem reading?_of_plain {condition : List Char} (h : Template.hasOpening condition = false) :
    evaluator.reading? scope condition = some ⟨scope, condition⟩ := by
  simp only [reading?, Template.single?_of_plain h, h, Bool.false_eq_true, if_false]

theorem conditionValue_eq_ok_iff {condition : List Char} {value : Json} :
    evaluator.conditionValue scope condition = some (.ok value) ↔
      ∃ reading, evaluator.reading? scope condition = some reading ∧
        Expr.evaluate reading.scope reading.source = .ok value := by
  rw [conditionValue, reading?]
  cases Template.single? condition with
  | some inner => simp [expandWhole, Template.expand_eq_ok_iff]
  | none =>
      cases Template.hasOpening condition with
      | false => simp
      | true => simp

theorem holds_iff {condition : String} :
    evaluator.holds scope condition = true ↔
      ∃ value, evaluator.conditionValue scope condition.toList = some (.ok value) ∧
        value.isTruthy = true := by
  rw [holds]
  split
  · rename_i value hvalue
    simp [hvalue]
  · rename_i hother
    simp only [Bool.false_eq_true, false_iff, not_exists, not_and]
    exact fun value hvalue => absurd hvalue (hother value)

/-- A condition holds exactly if what it is read as is an expression with a true value and nothing
denied in it, or is a literal.  In particular a condition in which a placeholder is refused never
holds, and one that is read as no expression holds exactly if it is a literal, whatever the scope. -/
theorem holds_iff_reading (condition : String) :
    (evaluator.holds scope condition = true ↔
      ∃ reading, evaluator.reading? scope condition.toList = some reading ∧
        (Expr.Affirmed reading.scope reading.source ∨ Expr.IsLiteral reading.source)) ∧
    ∀ reading, evaluator.reading? scope condition.toList = some reading →
      Expr.parse? (Text.trim reading.source) = none →
      (evaluator.holds scope condition = true ↔
        Text.trim reading.source ≠ [] ∧ Denied.screen? (Text.trim reading.source) = none) := by
  have hiff : evaluator.holds scope condition = true ↔
      ∃ reading, evaluator.reading? scope condition.toList = some reading ∧
        ∃ value, Expr.evaluate reading.scope reading.source = .ok value ∧
          value.isTruthy = true := by
    rw [holds_iff]
    simp only [conditionValue_eq_ok_iff]
    constructor
    · rintro ⟨value, ⟨reading, hreading, hvalue⟩, htruthy⟩
      exact ⟨reading, hreading, value, hvalue, htruthy⟩
    · rintro ⟨reading, hreading, value, hvalue, htruthy⟩
      exact ⟨value, ⟨reading, hreading, hvalue⟩, htruthy⟩
  constructor
  · simp only [hiff, Expr.evaluate_truthy_iff]
  · intro reading hreading hparsed
    simp only [hiff, hreading, Option.some.injEq, exists_eq_left',
      Expr.evaluate_truthy_of_unparsed hparsed, Expr.IsLiteral, hparsed, true_and]

/-- At an open door `open` holds as an expression.  The chain `1 < 2 < 3` is none and holds as a
literal; `open = 1` is none either and looks like a program. -/
theorem holds_iff_reading_of_chain :
    standard.holds ⟨[("open", .bool true)], ⟨"ada", "s", "Shop", "en", "noon"⟩⟩ "open" = true ∧
      standard.holds ⟨[], ⟨"ada", "s", "Shop", "en", "noon"⟩⟩ "1 < 2 < 3" = true ∧
      standard.holds ⟨[], ⟨"ada", "s", "Shop", "en", "noon"⟩⟩ "open = 1" = false := by
  have htrim : Text.trim "open".toList = "open".toList := by decide
  refine ⟨(holds_iff_reading standard _ "open").1.mpr
    ⟨_, reading?_of_plain _ _ (by decide), .inl ⟨.path "open" [], .bool true, ?_, rfl, rfl, rfl⟩⟩,
    ?_, ?_⟩
  · rw [htrim]
    cbv
  · refine ((holds_iff_reading standard _ "1 < 2 < 3").2 _ (reading?_of_plain _ _ (by decide))
      ?_).mpr ?_ <;> decide +kernel
  · rw [← Bool.not_eq_true, (holds_iff_reading standard _ "open = 1").2 _
      (reading?_of_plain _ _ (by decide)) ?_] <;> decide +kernel

/-- What a condition that holds is read as need not be an expression. -/
theorem chain_holds_unaffirmed :
    ¬ ∀ (evaluator : Evaluator) (scope : Scope) (condition : String),
      evaluator.holds scope condition = true →
      ∃ reading, evaluator.reading? scope condition.toList = some reading ∧
        Expr.Affirmed reading.scope reading.source := by
  intro haffirmed
  obtain ⟨reading, hreading, e, -, hparsed, -⟩ :=
    haffirmed standard ⟨[], ⟨"ada", "s", "Shop", "en", "noon"⟩⟩ "1 < 2 < 3" (by decide +kernel)
  rw [reading?_of_plain _ _ (by decide)] at hreading
  obtain rfl := Option.some.inj hreading
  have hchain : Expr.parse? (Text.trim "1 < 2 < 3".toList) = none := by decide +kernel
  rw [hchain] at hparsed
  cases hparsed

end Evaluator

end Parley
