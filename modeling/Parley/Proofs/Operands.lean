import Parley.Proofs.DistinctKeys
import Parley.Proofs.Placeholders
import Parley.Proofs.Provenance

/-!
# Placeholder values are operands

Binding a name to the value of an expression is the same as putting the
expression in the place of the name, once nothing in it is denied.  So a
condition with placeholders means the tree that its text has, with the trees of
its placeholders in their places.  No value of a variable is ever read as text
of the condition.
-/

set_option autoImplicit false

namespace Parley

/-! ## Putting expressions in the place of names -/

namespace Expr

mutual

/-- The expression with `f name` in the place of each path that is the single name `name`. -/
def substitute (f : String → Option Expr) : Expr → Expr
  | .lit value => .lit value
  | .path root [] => (f root).getD (.path root [])
  | .path root (segment :: segments) => .path root (segment :: segments)
  | .call name args => .call name (substituteAll f args)
  | .not operand => .not (substitute f operand)
  | .neg operand => .neg (substitute f operand)
  | .binary op left right => .binary op (substitute f left) (substitute f right)
  | .and left right => .and (substitute f left) (substitute f right)
  | .or left right => .or (substitute f left) (substitute f right)
  | .cond test yes no => .cond (substitute f test) (substitute f yes) (substitute f no)

def substituteAll (f : String → Option Expr) : List Expr → List Expr
  | [] => []
  | arg :: args => substitute f arg :: substituteAll f args

end

mutual

/-- An expression in which nothing is denied has a value. -/
theorem eval_of_denied? (scope : Scope) :
    ∀ e : Expr, e.denied? = none → ∃ value, e.eval scope = .ok value
  | .lit value, _ => ⟨value, rfl⟩
  | .path root segments, h => by
    simp only [denied?] at h
    simp only [eval, evalPath, h]
    exact ⟨_, rfl⟩
  | .call name args, h => by
    simp only [denied?] at h
    split at h
    · rename_i allowed
      obtain ⟨f, known⟩ := Option.isSome_iff_exists.mp allowed
      obtain ⟨values, done⟩ := evalArgs_of_deniedArgs? scope args h
      simp only [eval, known, done]
      exact ⟨_, rfl⟩
    · simp at h
  | .not operand, h => by
    obtain ⟨value, done⟩ := eval_of_denied? scope operand h
    simp only [eval, done]
    exact ⟨_, rfl⟩
  | .neg operand, h => by
    obtain ⟨value, done⟩ := eval_of_denied? scope operand h
    simp only [eval, done]
    exact ⟨_, rfl⟩
  | .binary op left right, h => by
    obtain ⟨hl, hr⟩ := Option.or_eq_none_iff.mp h
    obtain ⟨x, doneLeft⟩ := eval_of_denied? scope left hl
    obtain ⟨y, doneRight⟩ := eval_of_denied? scope right hr
    simp only [eval, doneLeft, doneRight]
    exact ⟨_, rfl⟩
  | .and left right, h | .or left right, h => by
    obtain ⟨hl, hr⟩ := Option.or_eq_none_iff.mp h
    obtain ⟨x, doneLeft⟩ := eval_of_denied? scope left hl
    obtain ⟨y, doneRight⟩ := eval_of_denied? scope right hr
    simp only [eval, doneLeft, doneRight]
    split <;> exact ⟨_, rfl⟩
  | .cond test yes no, h => by
    obtain ⟨h, hn⟩ := Option.or_eq_none_iff.mp h
    obtain ⟨ht, hy⟩ := Option.or_eq_none_iff.mp h
    obtain ⟨x, doneTest⟩ := eval_of_denied? scope test ht
    simp only [eval, doneTest]
    split
    · exact eval_of_denied? scope yes hy
    · exact eval_of_denied? scope no hn

theorem evalArgs_of_deniedArgs? (scope : Scope) :
    ∀ args : List Expr, deniedArgs? args = none → ∃ values, evalArgs scope args = .ok values
  | [], _ => ⟨[], rfl⟩
  | arg :: args, h => by
    obtain ⟨ha, hs⟩ := Option.or_eq_none_iff.mp h
    obtain ⟨x, done⟩ := eval_of_denied? scope arg ha
    obtain ⟨xs, doneOthers⟩ := evalArgs_of_deniedArgs? scope args hs
    simp only [evalArgs, done, doneOthers]
    exact ⟨_, rfl⟩

end

/-- What the names of `f` are bound to in place of their expressions. -/
structure Stands (f : String → Option Expr) (scope : Scope) (bindings : Fields) : Prop where
  bound : ∀ {name e}, f name = some e → Denied.isRoot name = false ∧
    ∃ value, Table.get? name (Table.overlay bindings scope.vars) = some value ∧
      e.eval scope = .ok value
  free : ∀ {name}, f name = none →
    Table.get? name (Table.overlay bindings scope.vars) = Table.get? name scope.vars

variable {f : String → Option Expr} {scope : Scope} {bindings : Fields} {ok : Token → Prop}

mutual

/-- Evaluation with names bound to values is evaluation with expressions in the place of the names,
if no path goes on from such a name. -/
theorem eval_substitute (h : Stands f scope bindings)
    (alone : ∀ source root segments, ok (.path source root segments) → (f root).isSome = true → segments = []) :
    ∀ e : Expr, e.From ok →
      e.eval (Evaluator.withBindings scope bindings) = (e.substitute f).eval scope
  | .lit value, _ => rfl
  | .path root segments, made => by
    obtain ⟨source, known⟩ := made.1
    cases place : f root with
    | none =>
      have same := h.free place
      cases segments <;>
        simp only [eval, evalPath, substitute, place, Option.getD_none, Scope.lookup?,
          Evaluator.withBindings, same]
    | some e =>
      -- The path is the bound name alone, so it has the bound value and nothing is denied in it.
      obtain rfl := alone source root segments known (by rw [place]; rfl)
      obtain ⟨allowed, value, found, done⟩ := h.bound place
      simp [eval, evalPath, deniedPath?, deniedSegment?, substitute, place, Scope.lookup?,
        Evaluator.withBindings, allowed, found, follow, done]
  | .call name args, made => by
    have others := evalArgs_substitute h alone args made.2
    simp only [eval, substitute, others]
    rfl
  | .not operand, made => by
    have inner := eval_substitute h alone operand made
    simp only [eval, substitute, inner]
  | .neg operand, made => by
    have inner := eval_substitute h alone operand made
    simp only [eval, substitute, inner]
  | .binary op left right, made => by
    have first := eval_substitute h alone left made.1
    have second := eval_substitute h alone right made.2
    simp only [eval, substitute, first, second]
  | .and left right, made => by
    have first := eval_substitute h alone left made.1
    have second := eval_substitute h alone right made.2
    simp only [eval, substitute, first, second]
  | .or left right, made => by
    have first := eval_substitute h alone left made.1
    have second := eval_substitute h alone right made.2
    simp only [eval, substitute, first, second]
  | .cond test yes no, made => by
    have first := eval_substitute h alone test made.1
    have second := eval_substitute h alone yes made.2.1
    have third := eval_substitute h alone no made.2.2
    simp only [eval, substitute, first, second, third]

theorem evalArgs_substitute (h : Stands f scope bindings)
    (alone : ∀ source root segments, ok (.path source root segments) → (f root).isSome = true → segments = []) :
    ∀ args : List Expr, AllFrom ok args →
      evalArgs (Evaluator.withBindings scope bindings) args = evalArgs scope (substituteAll f args)
  | [], _ => rfl
  | arg :: args, made => by
    have first := eval_substitute h alone arg made.1
    have others := evalArgs_substitute h alone args made.2
    simp only [evalArgs, substituteAll, first, others]

end

end Expr

namespace Template

/-! ## Generated names -/

/-- The name is a dollar sign with digits after it. -/
def IsNumbered (name : String) : Prop :=
  ∃ digits, digits ≠ [] ∧ (∀ c ∈ digits, c.isDigit = true) ∧ name = String.ofList ('$' :: digits)

theorem isNumbered_bindingName (n : Nat) : IsNumbered (bindingName n) :=
  ⟨Decimal.digitsOf n, Decimal.digitsOf_ne_nil n, Decimal.isDigit_digitsOf n, rfl⟩

theorem bindingName_injective {n m : Nat} (h : bindingName n = bindingName m) : n = m := by
  have digits : Decimal.digitsOf n = Decimal.digitsOf m :=
    (List.cons.inj (String.ofList_injective h)).2
  rw [← Decimal.valueOf_digitsOf n, digits, Decimal.valueOf_digitsOf]

namespace IsNumbered

variable {name : String}

theorem head (h : IsNumbered name) : name.toList.head? = some '$' := by
  obtain ⟨digits, -, -, rfl⟩ := h
  simp

theorem isRoot (h : IsNumbered name) : Denied.isRoot name = false := by
  by_contra root
  have others : ∀ r ∈ Denied.roots, r.toList.head? ≠ some '$' := by decide
  exact others name (by simpa [Denied.isRoot] using root) h.head

theorem reserved? (h : IsNumbered name) : Token.reserved? name = none := by
  have other : ∀ word : String, word.toList.head? ≠ some '$' → name ≠ word := by
    rintro word plain rfl
    exact plain h.head
  simp [Token.reserved?, other "true" (by decide), other "false" (by decide),
    other "null" (by decide), other "undefined" (by decide)]

theorem isName (h : IsNumbered name) : Token.isName name.toList = true := by
  obtain ⟨digits, -, numeric, rfl⟩ := h
  simp only [String.toList_ofList, Token.isName, Bool.and_eq_true, List.all_eq_true]
  refine ⟨rfl, fun c hc => ?_⟩
  simp [Token.isNameChar, Char.isAlphanum, numeric c hc]

/-- Before a blank the scanner reads the name as a path without steps. -/
theorem next? (h : IsNumbered name) (rest : List Char) :
    Token.next? (name.toList ++ ' ' :: rest) = some (.path name name [], ' ' :: rest) := by
  have free : Token.reserved? (String.ofList name.toList) = none := by
    rw [String.ofList_toList]
    exact h.reserved?
  have spelled := Token.Spelled.path h.isName free .nil
  simp only [List.append_nil, String.ofList_toList] at spelled
  exact Token.next?_of_spelled spelled (by simp [Token.continues, Token.continuesWord, Token.isNameChar])

end IsNumbered

/-- The scanner comes to this place of the text and reads a path there that begins with a numbered
name. -/
def MentionsAt (text rest : List Char) : Prop :=
  Token.Met text rest ∧ ∃ source root segments after,
    Token.next? rest = some (.path source root segments, after) ∧ IsNumbered root

/-- What is left of the source from the name of each placeholder on. -/
def places (n : Nat) : List (List Char × List Char) → List (List Char)
  | [] => []
  | (_, next) :: holes =>
    ((bindingName n).toList ++ ' ' :: named (n + 1) next holes) :: places (n + 1) holes

theorem next?_of_places {n : Nat} {holes : List (List Char × List Char)} {rest : List Char}
    (h : rest ∈ places n holes) : ∃ name after, Token.next? rest = some (.path name name [], after) := by
  induction holes generalizing n with
  | nil => simp [places] at h
  | cons hole holes ih =>
    rcases List.mem_cons.mp h with rfl | h
    · exact ⟨_, _, (isNumbered_bindingName n).next? _⟩
    · exact ih h

/-! ## Tables of generated names -/

theorem keys_numbered {α : Type} {n : Nat} {xs : List α} {name : String}
    (h : name ∈ Table.keys (numbered n xs)) : ∃ m, n ≤ m ∧ name = bindingName m := by
  induction xs generalizing n with
  | nil => simp [numbered, Table.keys] at h
  | cons x xs ih =>
    rcases List.mem_cons.mp h with rfl | h
    · exact ⟨n, Nat.le_refl n, rfl⟩
    · obtain ⟨m, le, rfl⟩ := ih h
      exact ⟨m, Nat.le_of_succ_le le, rfl⟩

theorem nodup_numbered {α : Type} (n : Nat) (xs : List α) : (Table.keys (numbered n xs)).Nodup := by
  induction xs generalizing n with
  | nil => exact List.nodup_nil
  | cons x xs ih =>
    refine List.nodup_cons.mpr ⟨fun again => ?_, ih (n + 1)⟩
    obtain ⟨m, le, same⟩ := keys_numbered again
    have := bindingName_injective same
    omega

theorem get?_numbered {α β : Type} {R : α → β → Prop} {xs : List α} {ys : List β}
    (h : List.Forall₂ R xs ys) (n : Nat) (name : String) :
    (Table.get? name (numbered n xs) = none ∧ Table.get? name (numbered n ys) = none) ∨
      ∃ x y, Table.get? name (numbered n xs) = some x ∧ Table.get? name (numbered n ys) = some y ∧
        R x y := by
  induction h generalizing n with
  | nil => exact .inl ⟨rfl, rfl⟩
  | @cons x y xs ys head _ ih =>
    by_cases same : bindingName n = name
    · exact .inr ⟨x, y, by simp [numbered, Table.get?, same], by simp [numbered, Table.get?, same], head⟩
    · simpa [numbered, Table.get?, same] using ih (n + 1)

variable {scope : Scope} {parsed : List Expr} {values : List Json}

theorem stands_numbered
    (h : List.Forall₂ (fun (e : Expr) value => e.eval scope = .ok value) parsed values) :
    Expr.Stands (fun name => Table.get? name (numbered 0 parsed)) scope (numbered 0 values) := by
  constructor
  · intro name e found
    have key : name ∈ Table.keys (numbered 0 parsed) :=
      Table.mem_keys.mpr (by rw [Table.has, found]; rfl)
    obtain ⟨m, -, rfl⟩ := keys_numbered key
    refine ⟨(isNumbered_bindingName m).isRoot, ?_⟩
    rcases get?_numbered h 0 (bindingName m) with ⟨none, -⟩ | ⟨x, y, foundX, foundY, done⟩
    · rw [none] at found
      exact absurd found (by simp)
    · obtain rfl := Option.some.inj (found.symm.trans foundX)
      exact ⟨y, by rw [Table.get?_overlay (nodup_numbered 0 values), foundY]; rfl, done⟩
  · intro name none
    rcases get?_numbered h 0 name with ⟨-, none'⟩ | ⟨x, y, foundX, -, -⟩
    · rw [Table.get?_overlay (nodup_numbered 0 values), none']
      rfl
    · rw [none] at foundX
      exact absurd foundX (by simp)

theorem values?_of_denied? (scope : Scope) {parsed : List Expr} (h : ∀ e ∈ parsed, e.denied? = none) :
    ∃ values, values? scope parsed = some values ∧
      List.Forall₂ (fun (e : Expr) value => e.eval scope = .ok value) parsed values := by
  induction parsed with
  | nil => exact ⟨[], rfl, .nil⟩
  | cons e es ih =>
    obtain ⟨allowed, others⟩ := List.forall_mem_cons.mp h
    obtain ⟨value, done⟩ := Expr.eval_of_denied? scope e allowed
    obtain ⟨values, collected, evaluated⟩ := ih others
    refine ⟨value :: values, ?_, .cons done evaluated⟩
    simp only [values?, Expr.evalChecked, allowed, done, collected, Option.map_some]

theorem denied?_of_values? (h : values? scope parsed = some values) : ∀ e ∈ parsed, e.denied? = none := by
  induction parsed generalizing values with
  | nil => simp
  | cons e es ih =>
    simp only [values?] at h
    split at h
    · simp at h
    · rename_i value done
      obtain ⟨others, collected, -⟩ := Option.map_eq_some_iff.mp h
      refine List.forall_mem_cons.mpr ⟨?_, ih collected⟩
      unfold Expr.evalChecked at done
      split at done
      · simp at done
      · assumption

end Template

namespace Evaluator

variable {scope : Scope} {first : List Char} {holes : List (List Char × List Char)}
  {parsed : List Expr} {e : Expr}

/-- The bound source evaluates to what its tree has with the placeholders' trees in their places. -/
theorem evaluate_named {values : List Json} (formed : Expr.parse? (Template.named 0 first holes) = some e)
    (alone : ∀ rest, Template.MentionsAt (Template.named 0 first holes) rest →
      rest ∈ Template.places 0 holes)
    (evaluated : List.Forall₂ (fun (e : Expr) value => e.eval scope = .ok value) parsed values)
    (allowed : e.denied? = none) :
    Expr.evaluate (withBindings scope (Template.numbered 0 values)) (Template.named 0 first holes) =
      (e.substitute fun name => Table.get? name (Template.numbered 0 parsed)).eval scope := by
  have made := Expr.from_of_parse? formed
  rw [Template.evaluate_of_parse? (Expr.parse?_trim formed), Expr.evalChecked, allowed]
  refine Expr.eval_substitute (Template.stands_numbered evaluated) ?_ e made
  rintro source root segments ⟨rest, after, met, read⟩ known
  obtain ⟨other, found⟩ := Option.isSome_iff_exists.mp known
  have key : root ∈ Table.keys (Template.numbered 0 parsed) :=
    Table.mem_keys.mpr (by rw [Table.has, found]; rfl)
  obtain ⟨m, -, rfl⟩ := Template.keys_numbered key
  have place := alone rest ⟨met, source, _, segments, after, read, Template.isNumbered_bindingName m⟩
  obtain ⟨name, after', read'⟩ := Template.next?_of_places place
  rw [read] at read'
  simp only [Option.some.injEq, Prod.mk.injEq, Token.path.injEq] at read'
  exact read'.1.2.2

/-- A condition with placeholders holds exactly if nothing is denied in its tree or in the tree of a
placeholder, and its tree with the placeholders' trees in the place of their names has a true value.
The trees depend on the texts only, so nothing that a variable holds becomes part of them. -/
theorem holds_written_iff (evaluator : Evaluator) (scope : Scope)
    (framed : Template.Framed first holes) (some_holes : holes ≠ [])
    (several : ¬ Template.Whole first holes)
    (operands : List.Forall₂ (fun hole e => Expr.parse? (Text.trim hole.1) = some e) holes parsed)
    (formed : Expr.parse? (Template.named 0 first holes) = some e)
    (alone : ∀ rest, Template.MentionsAt (Template.named 0 first holes) rest →
      rest ∈ Template.places 0 holes) :
    evaluator.holds scope (String.ofList (Template.written first holes)) = true ↔
      (e.denied? = none ∧ ∀ operand ∈ parsed, operand.denied? = none) ∧
        ∃ value, (e.substitute fun name => Table.get? name (Template.numbered 0 parsed)).eval scope =
          .ok value ∧ value.isTruthy = true := by
  have cut : evaluator.conditionValue scope (Template.written first holes) =
      (Template.values? scope parsed).map fun values =>
        Expr.evaluate (withBindings scope (Template.numbered 0 values)) (Template.named 0 first holes) := by
    simp only [conditionValue, Template.single?_written framed some_holes several,
      Template.hasOpening_written some_holes, if_true,
      Template.bind?_written operands first 0 framed, Option.map_map]
    rfl
  rw [holds, String.toList_ofList, cut]
  cases collected : Template.values? scope parsed with
  | none =>
    constructor
    · simp
    · rintro ⟨⟨-, allowed⟩, -⟩
      obtain ⟨values, collected', -⟩ := Template.values?_of_denied? scope allowed
      rw [collected] at collected'
      exact absurd collected' (by simp)
  | some values =>
    have allowedOperands := Template.denied?_of_values? collected
    obtain ⟨values', collected', evaluated⟩ := Template.values?_of_denied? scope allowedOperands
    obtain rfl := Option.some.inj (collected.symm.trans collected')
    simp only [Option.map_some]
    cases denied : e.denied? with
    | some refusal =>
      have refused : Expr.evaluate (withBindings scope (Template.numbered 0 values))
          (Template.named 0 first holes) = .error refusal := by
        rw [Template.evaluate_of_parse? (Expr.parse?_trim formed), Expr.evalChecked, denied]
      simp [refused]
    | none =>
      rw [evaluate_named formed alone evaluated denied]
      cases (e.substitute fun name => Table.get? name (Template.numbered 0 parsed)).eval scope with
      | error refusal => simp
      | ok value => simpa using fun _ => allowedOperands

end Evaluator

namespace Guests

/-- A guest who gives a piece of a condition as a name, at a closed door. -/
def scope : Scope :=
  ⟨[("name", .str "y' || true || 'z"), ("open", .bool false)], ⟨"", "", "", "", ""⟩⟩

/-- Two placeholders and the texts after them. -/
def holes : List (List Char × List Char) :=
  [("name".toList, " === 'y' || ".toList), (" open ".toList, [])]

/-- The tree of the condition with names for its placeholders. -/
def admitted : Expr :=
  .or (.binary .strictEq (.path "$0" []) (.lit (.str "y"))) (.path "$1" [])

/-- The places between the tokens of its source. -/
def places : List (List Char) :=
  ["$0  === 'y' ||  $1 ".toList, "=== 'y' ||  $1 ".toList, "'y' ||  $1 ".toList, "||  $1 ".toList,
    "$1 ".toList, []]

theorem framed : Template.Framed [] holes := by
  decide +kernel

def isPath : Token → Bool
  | .path _ _ _ => true
  | _ => false

theorem alone : ∀ rest, Template.MentionsAt (Template.named 0 [] holes) rest →
    rest ∈ Template.places 0 holes := by
  have start : (Template.named 0 [] holes).dropWhile Token.isSpace ∈ places := by decide +kernel
  have onward : ∀ rest ∈ places, ∀ result ∈ Token.next? rest,
      result.2.dropWhile Token.isSpace ∈ places := by decide +kernel
  have words : ∀ rest ∈ places, ∀ result ∈ Token.next? rest,
      isPath result.1 = true → rest ∈ Template.places 0 holes := by decide +kernel
  rintro rest ⟨met, source, root, segments, after, read, -⟩
  exact words rest (met.mem start onward) _ read rfl

theorem admitted_false :
    Evaluator.standard.holds scope "\x7b\x7bname\x7d\x7d === 'y' || \x7b\x7b open \x7d\x7d" = false := by
  have several : ¬ Template.Whole [] holes := by
    rintro ⟨source, next, single, -, -⟩
    simp [holes] at single
  have operands : List.Forall₂ (fun hole e => Expr.parse? (Text.trim hole.1) = some e) holes
      [.path "name" [], .path "open" []] := by
    have first : Text.trim "name".toList = "name".toList := by decide
    have second : Text.trim " open ".toList = "open".toList := by decide
    refine .cons ?_ (.cons ?_ .nil)
    · rw [first]
      cbv
    · rw [second]
      cbv
  have formed : Expr.parse? (Template.named 0 [] holes) = some admitted := by
    have source : Template.named 0 [] holes = " $0  === 'y' ||  $1 ".toList := by decide
    rw [source]
    cbv
  have evaluated : (admitted.substitute fun name => Table.get? name
      (Template.numbered 0 [.path "name" [], .path "open" []])).eval scope = .ok (.bool false) := by
    cbv
  rw [← Bool.not_eq_true]
  intro held
  obtain ⟨-, value, done, truthy⟩ := (Evaluator.holds_written_iff Evaluator.standard scope framed
    (by simp [holes]) several operands formed alone).mp held
  rw [evaluated] at done
  obtain rfl := Except.ok.inj done
  exact Bool.noConfusion truthy

end Guests

end Parley
