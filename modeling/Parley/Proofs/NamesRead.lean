import Parley.Proofs.Operands

/-!
# Expressions read only what they name

An expression finds out about the variables of its frame through the names at the
roots of its paths, and a denied name is refused before it is looked up.  Two
scopes that agree on the other names of an expression give it the same value.
Templates, conditions and the values of steps know a scope only through the
expressions that are evaluated in it.  So a variable with a denied name leaves no
trace in any of them, also where rendered values become the source of the next
expression.
-/

set_option autoImplicit false

namespace Parley

namespace Table

variable {κ α : Type} [DecidableEq κ]

/-- Setting entries over two tables keeps what they agree on. -/
theorem get?_overlay_congr {key : κ} (upper : Table κ α) {one other : Table κ α}
    (h : get? key one = get? key other) :
    get? key (overlay upper one) = get? key (overlay upper other) := by
  induction upper generalizing one other with
  | nil => exact h
  | cons entry upper ih =>
      apply ih
      rw [get?_set, get?_set, h]

end Table

/-- The scopes provide the same names and have the same variables among those that `named` holds
of. -/
structure Scope.AgreeOn (named : String → Prop) (a b : Scope) : Prop where
  surroundings : a.surroundings = b.surroundings
  vars : ∀ name, named name → Table.get? name a.vars = Table.get? name b.vars

namespace Scope.AgreeOn

variable {named : String → Prop} {a b : Scope}

theorem lookup? (h : AgreeOn named a b) {name : String} (hname : named name) :
    a.lookup? name = b.lookup? name := by
  simp only [Scope.lookup?, h.vars name hname, h.surroundings]

theorem withBindings (h : AgreeOn named a b) (bindings : Fields) :
    AgreeOn named (Evaluator.withBindings a bindings) (Evaluator.withBindings b bindings) :=
  ⟨h.surroundings, fun name hname => Table.get?_overlay_congr bindings (h.vars name hname)⟩

end Scope.AgreeOn

/-! ## Expressions -/

namespace Expr

mutual

/-- The names at the roots of the paths of the expression. -/
def roots : Expr → List String
  | .lit _ => []
  | .path root _ => [root]
  | .call _ args => rootsOfAll args
  | .not operand => roots operand
  | .neg operand => roots operand
  | .binary _ left right => roots left ++ roots right
  | .and left right => roots left ++ roots right
  | .or left right => roots left ++ roots right
  | .cond test yes no => roots test ++ roots yes ++ roots no

def rootsOfAll : List Expr → List String
  | [] => []
  | arg :: args => roots arg ++ rootsOfAll args

end

variable {named : String → Prop} {a b : Scope}

/-- A path with a denied root is refused; no other path reads anything but the variable at its
root. -/
theorem evalPath_congr (h : a.AgreeOn named b) {root : String}
    (hroot : Denied.isRoot root = false → named root) (segments : List Segment) :
    evalPath a root segments = evalPath b root segments := by
  cases hdenied : Denied.isRoot root with
  | true => simp only [evalPath, deniedPath?, hdenied, if_true]
  | false => simp only [evalPath, h.lookup? (hroot hdenied)]

mutual

/-- Scopes that agree on the names of an expression, the denied ones apart, give it one value. -/
theorem eval_congr (h : a.AgreeOn named b) :
    ∀ e : Expr, (∀ name ∈ e.roots, Denied.isRoot name = false → named name) →
      e.eval a = e.eval b
  | .lit _, _ => rfl
  | .path root segments, hnames =>
      evalPath_congr h (hnames root (List.mem_singleton_self root)) segments
  | .call name args, hnames => by
      simp only [eval, evalArgs_congr h args hnames, h.surroundings]
  | .not operand, hnames => by
      simp only [eval, eval_congr h operand hnames]
  | .neg operand, hnames => by
      simp only [eval, eval_congr h operand hnames]
  | .binary _ left right, hnames => by
      obtain ⟨hleft, hright⟩ := List.forall_mem_append.1 hnames
      simp only [eval, eval_congr h left hleft, eval_congr h right hright]
  | .and left right, hnames => by
      obtain ⟨hleft, hright⟩ := List.forall_mem_append.1 hnames
      simp only [eval, eval_congr h left hleft, eval_congr h right hright]
  | .or left right, hnames => by
      obtain ⟨hleft, hright⟩ := List.forall_mem_append.1 hnames
      simp only [eval, eval_congr h left hleft, eval_congr h right hright]
  | .cond test yes no, hnames => by
      obtain ⟨hfirst, hno⟩ := List.forall_mem_append.1 hnames
      obtain ⟨htest, hyes⟩ := List.forall_mem_append.1 hfirst
      simp only [eval, eval_congr h test htest, eval_congr h yes hyes, eval_congr h no hno]

theorem evalArgs_congr (h : a.AgreeOn named b) :
    ∀ args : List Expr, (∀ name ∈ rootsOfAll args, Denied.isRoot name = false → named name) →
      evalArgs a args = evalArgs b args
  | [], _ => rfl
  | arg :: args, hnames => by
      obtain ⟨harg, hargs⟩ := List.forall_mem_append.1 hnames
      simp only [evalArgs, eval_congr h arg harg, evalArgs_congr h args hargs]

end

/-- The names that a source text reads: those at the roots of its paths that are not denied.  A text
that is no expression reads none. -/
def namesRead (source : List Char) : List String :=
  match parse? (Text.trim source) with
  | some e => e.roots.filter fun name => !Denied.isRoot name
  | none => []

theorem evaluate_congr {source : List Char} (h : a.AgreeOn (· ∈ namesRead source) b) :
    evaluate a source = evaluate b source := by
  simp only [evaluate]
  cases hparsed : parse? (Text.trim source) with
  | none => rfl
  | some e =>
      have hvalue : e.eval a = e.eval b := by
        refine eval_congr h e fun name hmem hfree => ?_
        rw [namesRead, hparsed]
        exact List.mem_filter.2 ⟨hmem, by rw [hfree]; rfl⟩
      simp only [evalChecked, hvalue]

/-- Scopes that agree on all names that are not denied evaluate every text alike. -/
theorem evaluate_eq_of_agreeOn (h : a.AgreeOn (Denied.isRoot · = false) b) :
    evaluate a = evaluate b := by
  funext source
  refine evaluate_congr ⟨h.surroundings, fun name hname => h.vars name ?_⟩
  unfold namesRead at hname
  split at hname
  · simpa using (List.mem_filter.1 hname).2
  · cases hname

end Expr

/-! ## Templates, conditions and values of steps -/

namespace Template

mutual

/-- The texts that are evaluated for a piece at nesting level `depth`, in order.  For a placeholder
with others inside these are the texts of the inner ones and, if none of them is refused, what the
source has become. -/
def evaluatedPiece (limit : Nat) (scope : Scope) : Nat → Piece → List (List Char)
  | _, .text _ => []
  | depth, .hole source pieces =>
    if hasOpening source then
      if limit < depth + 1 then []
      else
        let nested := renderPieces limit scope (depth + 1) pieces
        evaluatedPieces limit scope (depth + 1) pieces ++
          if nested.refused then [] else [nested.chars]
    else [source]

/-- The texts that are evaluated for several pieces at nesting level `depth`, in order. -/
def evaluatedPieces (limit : Nat) (scope : Scope) : Nat → List Piece → List (List Char)
  | _, [] => []
  | depth, piece :: pieces =>
    evaluatedPiece limit scope depth piece ++ evaluatedPieces limit scope depth pieces

end

variable {a b : Scope} (limit : Nat)

theorem settle_congr (h : Expr.evaluate a = Expr.evaluate b) (depth : Nat) (source : List Char)
    (nested : Rendered) :
    settle limit a depth source nested = settle limit b depth source nested := by
  simp only [settle, h]

mutual

/-- A scope that gives the evaluated texts the same values cannot be told from the first one. -/
theorem renderPiece_of_evaluated : ∀ (depth : Nat) (piece : Piece),
    (∀ source ∈ evaluatedPiece limit a depth piece,
      Expr.evaluate b source = Expr.evaluate a source) →
    renderPiece limit b depth piece = renderPiece limit a depth piece ∧
      evaluatedPiece limit b depth piece = evaluatedPiece limit a depth piece
  | _, .text _, _ => by simp only [renderPiece, evaluatedPiece, and_self]
  | depth, .hole source pieces, h => by
      simp only [renderPiece, settle, evaluatedPiece] at h ⊢
      cases hopening : hasOpening source with
      | false =>
          simp only [hopening, Bool.false_eq_true, if_false] at h ⊢
          exact ⟨by rw [h source (List.mem_singleton_self source)], trivial⟩
      | true =>
          by_cases hdeep : limit < depth + 1
          · simp only [hdeep, if_true, and_self]
          · simp only [hopening, hdeep, if_true, if_false] at h ⊢
            obtain ⟨hinner, houter⟩ := List.forall_mem_append.1 h
            obtain ⟨hrendered, hevaluated⟩ := renderPieces_of_evaluated (depth + 1) pieces hinner
            rw [hrendered, hevaluated]
            cases hrefused : (renderPieces limit a (depth + 1) pieces).refused with
            | true => simp only [if_true, and_self]
            | false =>
                simp only [hrefused, Bool.false_eq_true, if_false] at houter ⊢
                exact ⟨by rw [houter _ (List.mem_singleton_self _)], trivial⟩

theorem renderPieces_of_evaluated : ∀ (depth : Nat) (pieces : List Piece),
    (∀ source ∈ evaluatedPieces limit a depth pieces,
      Expr.evaluate b source = Expr.evaluate a source) →
    renderPieces limit b depth pieces = renderPieces limit a depth pieces ∧
      evaluatedPieces limit b depth pieces = evaluatedPieces limit a depth pieces
  | _, [], _ => by simp only [renderPieces, evaluatedPieces, and_self]
  | depth, piece :: pieces, h => by
      simp only [evaluatedPieces] at h
      obtain ⟨hpiece, hpieces⟩ := List.forall_mem_append.1 h
      obtain ⟨hfirst, hsources⟩ := renderPiece_of_evaluated depth piece hpiece
      obtain ⟨hothers, hlater⟩ := renderPieces_of_evaluated depth pieces hpieces
      simp only [renderPieces, evaluatedPieces, hfirst, hsources, hothers, hlater, and_self]

end

/-- A rendered text depends on the scope through the values of source texts only, the texts that
nested placeholders are rendered to among them. -/
theorem renderPieces_congr (h : Expr.evaluate a = Expr.evaluate b) (depth : Nat)
    (pieces : List Piece) : renderPieces limit a depth pieces = renderPieces limit b depth pieces :=
  (renderPieces_of_evaluated limit depth pieces fun source _ => congrFun h source).1

theorem expand_congr (h : Expr.evaluate a = Expr.evaluate b) (depth : Nat) (source : List Char)
    (pieces : List Piece) :
    expand limit a depth source pieces = expand limit b depth source pieces := by
  simp only [expand, renderPieces_congr limit h, settle_congr limit h]

theorem bind?_congr (h : Expr.evaluate a = Expr.evaluate b) (n : Nat) (pieces : List Piece) :
    bind? limit a n pieces = bind? limit b n pieces := by
  induction pieces generalizing n with
  | nil => simp only [bind?]
  | cons piece pieces ih =>
      cases piece with
      | text chars => simp only [bind?, ih]
      | hole source nested => simp only [bind?, expand_congr limit h, ih]

end Template

namespace Evaluator

variable {a b : Scope} (evaluator : Evaluator)

theorem interpolate_congr (h : Expr.evaluate a = Expr.evaluate b) (template : String) :
    evaluator.interpolate a template = evaluator.interpolate b template := by
  simp only [interpolate, Template.renderPieces_congr evaluator.limit h]

mutual

theorem resolve_congr (h : Expr.evaluate a = Expr.evaluate b) :
    ∀ value : Json, evaluator.resolve a value = evaluator.resolve b value
  | .str s => by
      simp only [resolve, resolveText, expandWhole, Template.expand_congr evaluator.limit h,
        interpolate_congr evaluator h]
  | .arr items => by simp only [resolve, resolveItems_congr h items]
  | .obj fields => by simp only [resolve, resolveFields_congr h fields]
  | .null => by simp only [resolve]
  | .bool _ => by simp only [resolve]
  | .num _ => by simp only [resolve]

theorem resolveItems_congr (h : Expr.evaluate a = Expr.evaluate b) :
    ∀ items : List Json, evaluator.resolveItems a items = evaluator.resolveItems b items
  | [] => by simp only [resolveItems]
  | item :: items => by
      simp only [resolveItems, resolve_congr h item, resolveItems_congr h items]

theorem resolveFields_congr (h : Expr.evaluate a = Expr.evaluate b) :
    ∀ fields : List (String × Json),
      evaluator.resolveFields a fields = evaluator.resolveFields b fields
  | [] => by simp only [resolveFields]
  | (_, value) :: fields => by
      simp only [resolveFields, resolve_congr h value, resolveFields_congr h fields]

end

/-- A condition is evaluated with generated names bound over the variables, so the scopes have to
evaluate alike under such bindings as well. -/
theorem holds_congr (h : a.AgreeOn (Denied.isRoot · = false) b) (condition : String) :
    evaluator.holds a condition = evaluator.holds b condition := by
  have hplain : Expr.evaluate a = Expr.evaluate b := Expr.evaluate_eq_of_agreeOn h
  have hbound (bindings : Fields) : Expr.evaluate (withBindings a bindings) =
      Expr.evaluate (withBindings b bindings) :=
    Expr.evaluate_eq_of_agreeOn (h.withBindings bindings)
  simp only [holds, conditionValue, expandWhole, Template.expand_congr evaluator.limit hplain,
    Template.bind?_congr evaluator.limit hplain, hbound, hplain]

end Evaluator

/-- Scopes that provide the same names evaluate a source text alike if they agree on the variables
that it names and that are not denied.  So no template, condition or value of a step tells scopes
apart that differ in variables with denied names only. -/
theorem Scope.only_named_variables_are_read (a b : Scope)
    (hprovided : a.surroundings = b.surroundings) :
    (∀ source : List Char,
      (∀ e, Expr.parse? (Text.trim source) = some e →
        ∀ name ∈ e.roots, Denied.isRoot name = false →
          Table.get? name a.vars = Table.get? name b.vars) →
      Expr.evaluate a source = Expr.evaluate b source) ∧
    ((∀ name, Denied.isRoot name = false → Table.get? name a.vars = Table.get? name b.vars) →
      ∀ evaluator : Evaluator,
        (∀ template, evaluator.interpolate a template = evaluator.interpolate b template) ∧
        (∀ condition, evaluator.holds a condition = evaluator.holds b condition) ∧
        ∀ value, evaluator.resolve a value = evaluator.resolve b value) := by
  constructor
  · intro source hnamed
    refine Expr.evaluate_congr ⟨hprovided, fun name hname => ?_⟩
    unfold Expr.namesRead at hname
    split at hname
    · rename_i e hparsed
      obtain ⟨hmem, hfree⟩ := List.mem_filter.1 hname
      exact hnamed e hparsed name hmem (by simpa using hfree)
    · cases hname
  · intro hvars evaluator
    have hagree : a.AgreeOn (Denied.isRoot · = false) b := ⟨hprovided, hvars⟩
    have halike : Expr.evaluate a = Expr.evaluate b := Expr.evaluate_eq_of_agreeOn hagree
    exact ⟨evaluator.interpolate_congr halike, evaluator.holds_congr hagree,
      evaluator.resolve_congr halike⟩

namespace Kiosk

/-- A scope in which the variable `word` has the value `process`, and the variable `process` some
value of its own. -/
def disguised (secret : String) : Scope :=
  ⟨[("word", .str "process"), ("process", .obj [("env", .str secret)])],
    ⟨"ada", "s", "Shop", "en", "noon"⟩⟩

/-- A template in which the value of `word` becomes the root of a path. -/
def nestedWord : String :=
  "\x7b\x7b \x7b\x7bword\x7d\x7d.env \x7d\x7d"

/-- A placeholder inside another one can write the name `process`, and still nobody learns the value
of the variable; the variable `word` can be read. -/
theorem only_named_variables_are_read_of_process :
    Expr.evaluate (disguised "key") "word + '!'".toList =
        Expr.evaluate (disguised "none") "word + '!'".toList ∧
      Evaluator.standard.interpolate (disguised "key") nestedWord =
        Evaluator.standard.interpolate (disguised "none") nestedWord := by
  have hvars (name : String) (hfree : Denied.isRoot name = false) :
      Table.get? name (disguised "key").vars = Table.get? name (disguised "none").vars := by
    have hother : "process" ≠ name := by
      rintro rfl
      exact absurd hfree (by decide)
    simp only [disguised, Table.get?, hother, if_false]
  have hread := Scope.only_named_variables_are_read (disguised "key") (disguised "none") rfl
  exact ⟨hread.1 _ fun _ _ name _ hfree => hvars name hfree, (hread.2 hvars .standard).1 _⟩

end Kiosk

end Parley
