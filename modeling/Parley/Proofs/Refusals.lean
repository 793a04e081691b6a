import Parley.Proofs.Operands

/-!
# Refusals do not depend on values

What an expression must not do is found in its tree before anything is evaluated.
Evaluation refuses nothing that this search misses, so an expression in which
nothing is found has a value in every scope.  An operator that skips an operand
may leave a denied part unevaluated; without such operators evaluation refuses
the very part that the search finds first.  So a source text alone decides
whether it is refused, and why.
-/

set_option autoImplicit false

namespace Parley

namespace Expr

mutual

/-- No operator of the expression skips an operand: every part of it is evaluated. -/
def isStrict : Expr → Bool
  | .lit _ => true
  | .path _ _ => true
  | .call _ args => areStrict args
  | .not operand => isStrict operand
  | .neg operand => isStrict operand
  | .binary _ left right => isStrict left && isStrict right
  | .and _ _ => false
  | .or _ _ => false
  | .cond _ _ _ => false

def areStrict : List Expr → Bool
  | [] => true
  | arg :: args => isStrict arg && areStrict args

end

variable {refusal : Refusal}

mutual

/-- Without skipped operands the first denied part is the one that evaluation stops at: the parts in
front of it have values. -/
theorem eval_of_isStrict (scope : Scope) :
    ∀ e : Expr, e.isStrict = true → e.denied? = some refusal → e.eval scope = .error refusal
  | .lit _, _, hdenied => nomatch hdenied
  | .path root segments, _, hdenied => by
      simp only [denied?] at hdenied
      simp only [eval, evalPath, hdenied]
  | .call name args, hstrict, hdenied => by
      cases hname : Function.ofName? name with
      | none =>
          have hrefusal : Refusal.call name = refusal := by
            simpa [denied?, Function.isAllowed, hname] using hdenied
          simp only [eval, hname, hrefusal]
      | some f =>
          have hargs : deniedArgs? args = some refusal := by
            simpa [denied?, Function.isAllowed, hname] using hdenied
          simp only [eval, hname, evalArgs_of_areStrict scope args hstrict hargs]
  | .not operand, hstrict, hdenied => by
      simp only [eval, eval_of_isStrict scope operand hstrict hdenied]
  | .neg operand, hstrict, hdenied => by
      simp only [eval, eval_of_isStrict scope operand hstrict hdenied]
  | .binary op left right, hstrict, hdenied => by
      obtain ⟨hleft, hright⟩ := Bool.and_eq_true_iff.mp hstrict
      rcases Option.or_eq_some_iff.mp hdenied with hfirst | ⟨hnone, hsecond⟩
      · simp only [eval, eval_of_isStrict scope left hleft hfirst]
      · obtain ⟨value, hvalue⟩ := eval_of_denied? scope left hnone
        simp only [eval, hvalue, eval_of_isStrict scope right hright hsecond]

theorem evalArgs_of_areStrict (scope : Scope) :
    ∀ args : List Expr, areStrict args = true → deniedArgs? args = some refusal →
      evalArgs scope args = .error refusal
  | [], _, hdenied => nomatch hdenied
  | arg :: args, hstrict, hdenied => by
      obtain ⟨harg, hargs⟩ := Bool.and_eq_true_iff.mp hstrict
      rcases Option.or_eq_some_iff.mp hdenied with hfirst | ⟨hnone, hothers⟩
      · simp only [evalArgs, eval_of_isStrict scope arg harg hfirst]
      · obtain ⟨value, hvalue⟩ := eval_of_denied? scope arg hnone
        simp only [evalArgs, hvalue, evalArgs_of_areStrict scope args hargs hothers]
        rfl

end

/-- What evaluation refuses is found without evaluating. -/
theorem denied?_of_eval {scope : Scope} {e : Expr} (hrefused : e.eval scope = .error refusal) :
    ∃ found, e.denied? = some found := by
  cases hdenied : e.denied? with
  | none =>
      obtain ⟨value, hvalue⟩ := eval_of_denied? scope e hdenied
      rw [hvalue] at hrefused
      cases hrefused
  | some found => exact ⟨found, rfl⟩

theorem eval_eq_error_iff (scope : Scope) {e : Expr} (hstrict : e.isStrict = true) :
    e.eval scope = .error refusal ↔ e.denied? = some refusal := by
  constructor
  · intro hrefused
    obtain ⟨found, hfound⟩ := denied?_of_eval hrefused
    have hsame := eval_of_isStrict scope e hstrict hfound
    rw [hrefused] at hsame
    rw [hfound, Except.error.inj hsame]
  · exact eval_of_isStrict scope e hstrict

/-! ## Source texts -/

/-- Why a source text is refused, if it is. -/
def refusal? (source : List Char) : Option Refusal :=
  let source := Text.trim source
  if source.isEmpty then none
  else
    match parse? source with
    | some e => e.denied?
    | none => Denied.screen? source

variable {source : List Char}

theorem evaluate_of_refusal? (h : refusal? source = some refusal) (scope : Scope) :
    evaluate scope source = .error refusal := by
  simp only [refusal?] at h
  simp only [evaluate]
  split at h
  · cases h
  · rename_i hfilled
    rw [if_neg hfilled]
    cases hparsed : parse? (Text.trim source) with
    | none =>
        rw [hparsed] at h
        simp only [h]
    | some e =>
        rw [hparsed] at h
        simp only [evalChecked, h]

theorem exists_evaluate_of_refusal? (h : refusal? source = none) (scope : Scope) :
    ∃ value, evaluate scope source = .ok value := by
  simp only [refusal?] at h
  simp only [evaluate]
  split
  · exact ⟨.null, rfl⟩
  · rename_i hfilled
    rw [if_neg hfilled] at h
    cases hparsed : parse? (Text.trim source) with
    | none =>
        rw [hparsed] at h
        simp only [h]
        exact ⟨_, rfl⟩
    | some e =>
        rw [hparsed] at h
        simp only [evalChecked, h]
        exact eval_of_denied? scope e h

/-- The search for denied parts covers evaluation.  An expression in which nothing is denied has a
value in every scope, and whatever evaluation refuses is found.  If no operand is skipped,
evaluation refuses exactly what is found, for the same reason.  A source text is refused in every
scope and for one reason, or in none. -/
theorem denied?_covers_eval :
    (∀ e : Expr, e.denied? = none → ∀ scope, ∃ value, e.eval scope = .ok value) ∧
      (∀ (e : Expr) (scope : Scope) (refusal : Refusal), e.eval scope = .error refusal →
        ∃ found, e.denied? = some found) ∧
      (∀ e : Expr, e.isStrict = true → ∀ (scope : Scope) (refusal : Refusal),
        e.eval scope = .error refusal ↔ e.denied? = some refusal) ∧
      ∀ source : List Char,
        (∃ refusal, ∀ scope, evaluate scope source = .error refusal) ∨
          ∀ scope, ∃ value, evaluate scope source = .ok value := by
  refine ⟨fun e hdenied scope => eval_of_denied? scope e hdenied,
    fun e scope refusal hrefused => denied?_of_eval hrefused,
    fun e hstrict scope refusal => eval_eq_error_iff scope hstrict, fun source => ?_⟩
  cases hsource : refusal? source with
  | none => exact .inr (exists_evaluate_of_refusal? hsource)
  | some refusal => exact .inl ⟨refusal, evaluate_of_refusal? hsource⟩

/-- A variable is never refused, and `-process.env` is refused where it is evaluated.  The text
`order || process.env` is refused in every scope, although its evaluation skips the denied part
where `order` is true. -/
theorem denied?_covers_eval_of_order :
    (∃ value, (Expr.path "order" []).eval ⟨[], ⟨"ada", "s", "Shop", "en", "noon"⟩⟩ = .ok value) ∧
      (Expr.neg (.path "process" [.key "env"])).eval ⟨[], ⟨"ada", "s", "Shop", "en", "noon"⟩⟩ =
        .error (.access "process") ∧
      ∃ refusal, ∀ scope, evaluate scope "order || process.env".toList = .error refusal := by
  have hsource : refusal? "order || process.env".toList = some (.access "process") := by
    decide +kernel
  refine ⟨denied?_covers_eval.1 _ (by decide) _,
    (denied?_covers_eval.2.2.1 _ (by decide) _ _).mpr (by decide), ?_⟩
  rcases denied?_covers_eval.2.2.2 "order || process.env".toList with hrefused | hvalue
  · exact hrefused
  · obtain ⟨value, hsome⟩ := hvalue ⟨[("order", .bool true)], ⟨"ada", "s", "Shop", "en", "noon"⟩⟩
    rw [evaluate_of_refusal? hsource] at hsome
    cases hsome

end Expr

end Parley
