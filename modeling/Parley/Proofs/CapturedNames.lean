import Parley.Proofs.Conditions
import Parley.Proofs.Interpolation
import Parley.Proofs.Mentions

/-!
# Names that placeholders take

The placeholders of a condition are bound to the names `$0`, `$1` and so on.  Such a
name is a name like any other: the frame may have a variable of that name, and the
condition may name it outside of its placeholders.  It then means the value of the
placeholder.  Every other name in the condition means what it means without
placeholders, and nothing is read but the generated names and the names that stand in
the text between the placeholders.
-/

set_option autoImplicit false

namespace Parley

/-- The name stands in the text, and no character after it would continue it. -/
def Text.Names (name text : List Char) : Prop :=
  ∃ before after, text = before ++ (name ++ after) ∧ Token.StopsAt Token.isNameChar after

theorem Token.isNameChar_of_isName {name : List Char} (h : Token.isName name = true) {c : Char}
    (hc : c ∈ name) : Token.isNameChar c = true := by
  cases name with
  | nil => cases hc
  | cons d name =>
      simp only [Token.isName, Bool.and_eq_true, List.all_eq_true] at h
      rcases List.mem_cons.1 hc with rfl | hlater
      · exact Token.isNameChar_of_isNameStart h.1
      · exact h.2 c hlater

namespace Text.Names

variable {name text left right : List Char}

theorem append_left (h : Names name text) (left : List Char) : Names name (left ++ text) := by
  obtain ⟨before, after, rfl, hstops⟩ := h
  exact ⟨left ++ before, after, (List.append_assoc _ _ _).symm, hstops⟩

/-- Blanks after a text do not continue its names. -/
theorem append_right (h : Names name text) (hblank : ∀ c ∈ right, isBlank c = true) :
    Names name (text ++ right) := by
  obtain ⟨before, after, rfl, hstops⟩ := h
  refine ⟨before, after ++ right, by simp, fun c hc => ?_⟩
  cases after with
  | nil => exact Token.blank_not_nameChar (hblank c (List.mem_of_mem_head? hc))
  | cons d after => exact hstops c hc

/-- A name stands on one side of a blank. -/
theorem of_blank (hname : Token.isName name = true) (h : Names name (left ++ ' ' :: right)) :
    Names name left ∨ Names name right := by
  obtain ⟨before, after, heq, hstops⟩ := h
  rcases List.append_eq_append_iff.1 heq with ⟨more, rfl, hright⟩ | ⟨more, rfl, hleft⟩
  · -- the name begins at the blank or behind it
    cases more with
    | nil =>
        cases name with
        | nil => cases hname
        | cons c name =>
            obtain rfl : ' ' = c := by simpa using congrArg List.head? hright
            cases hname
    | cons c more =>
        obtain ⟨-, rfl⟩ := List.cons.inj hright
        exact .inr ⟨more, after, rfl, hstops⟩
  · -- the name begins in front of the blank, so it ends there
    rcases List.append_eq_append_iff.1 hleft with ⟨rest, rfl, rfl⟩ | ⟨rest, rfl, hafter⟩
    · refine .inl ⟨before, rest, rfl, fun c hc => hstops c ?_⟩
      rw [List.head?_append, hc]
      rfl
    · cases rest with
      | nil => exact .inl ⟨before, [], by simp, Token.stopsAt_nil _⟩
      | cons c rest =>
          obtain rfl : ' ' = c := by simpa using congrArg List.head? hafter
          have hmem : ' ' ∈ more ++ ' ' :: rest := by simp
          exact absurd (Token.isNameChar_of_isName hname hmem) (by decide)

end Text.Names

namespace Template

/-- The placeholders among the pieces with what stands inside them, in order. -/
def holes : List Piece → List (List Char × List Piece)
  | [] => []
  | .text _ :: pieces => holes pieces
  | .hole source nested :: pieces => (source, nested) :: holes pieces

variable {limit n : Nat} {scope : Scope} {text name source : List Char} {bindings : Fields}

theorem keys_numbered_eq {α : Type} (n : Nat) (xs : List α) :
    Table.keys (numbered n xs) = (List.range' n xs.length).map bindingName := by
  induction xs generalizing n with
  | nil => rfl
  | cons x xs ih =>
      rw [List.length_cons, List.range'_succ, List.map_cons, ← ih (n + 1)]
      rfl

theorem get?_bindingName {α : Type} (n k : Nat) (xs : List α) :
    Table.get? (bindingName (n + k)) (numbered n xs) = xs[k]? := by
  induction xs generalizing n k with
  | nil => rfl
  | cons x xs ih =>
      cases k with
      | zero => simp [numbered, Table.get?]
      | succ k =>
          have hother : bindingName n ≠ bindingName (n + (k + 1)) := fun heq => by
            have hsame := bindingName_injective heq
            omega
          have hplace : n + (k + 1) = n + 1 + k := by omega
          rw [numbered, Table.get?, if_neg hother, hplace, ih]
          rfl

/-- What is bound are the values of the placeholders, in order. -/
theorem numbered_of_bind? {pieces : List Piece}
    (h : bind? limit scope n pieces = some (source, bindings)) :
    ∃ values, bindings = numbered n values ∧
      List.Forall₂ (fun hole value => expand limit scope 1 hole.1 hole.2 = .ok value)
        (holes pieces) values := by
  induction pieces generalizing n source bindings with
  | nil =>
      obtain ⟨-, rfl⟩ : [] = source ∧ [] = bindings := by simpa [bind?] using h
      exact ⟨[], rfl, .nil⟩
  | cons piece pieces ih =>
      cases piece with
      | text chars =>
          obtain ⟨⟨later, others⟩, hlater, heq⟩ := Option.map_eq_some_iff.1 h
          obtain ⟨-, rfl⟩ := Prod.mk.inj heq
          exact ih hlater
      | hole inner nested =>
          rw [bind?] at h
          cases hvalue : expand limit scope 1 inner nested with
          | error refusal => simp [hvalue] at h
          | ok value =>
              rw [hvalue] at h
              obtain ⟨⟨later, others⟩, hlater, heq⟩ := Option.map_eq_some_iff.1 h
              obtain ⟨-, rfl⟩ := Prod.mk.inj heq
              obtain ⟨values, rfl, hvalues⟩ := ih hlater
              exact ⟨value :: values, rfl, .cons hvalue hvalues⟩

/-- Of a generated name no part is a name but the whole. -/
theorem eq_bindingName (hname : Token.isName name = true)
    (h : Text.Names name (bindingName n).toList) : name = (bindingName n).toList := by
  obtain ⟨before, after, heq, hstops⟩ := h
  rw [bindingName, String.toList_ofList] at heq ⊢
  cases before with
  | nil =>
      cases after with
      | nil => simpa using heq.symm
      | cons c after =>
          cases name with
          | nil => cases hname
          | cons d name =>
              obtain ⟨-, hdigits⟩ := List.cons.inj heq
              have hdigit : c.isDigit = true :=
                Decimal.isDigit_digitsOf n c (by rw [hdigits]; simp)
              have hstop : Token.isNameChar c = false := hstops c rfl
              simp [Token.isNameChar, Char.isAlphanum, hdigit] at hstop
  | cons c before =>
      obtain ⟨-, hdigits⟩ := List.cons.inj heq
      cases name with
      | nil => cases hname
      | cons d name =>
          simp only [Token.isName, Bool.and_eq_true] at hname
          have hdigit : d.isDigit = true :=
            Decimal.isDigit_digitsOf n d (by rw [hdigits]; simp)
          have hstart := Token.notDigit_of_isNameStart hname.1
          rw [hdigit] at hstart
          cases hstart

/-- A name in the source of a condition was generated for a placeholder or stands in the text
between the placeholders. -/
theorem names_of_bind? (hname : Token.isName name = true)
    (h : bind? limit scope n (ofText text) = some (source, bindings))
    (hnames : Text.Names name source) :
    (∃ k < (holes (ofText text)).length, name = (bindingName (n + k)).toList) ∨
      ∃ chars, .text chars ∈ ofText text ∧ Text.Names name chars := by
  fun_induction ofText text generalizing n source bindings with
  | case1 text hnone =>
      obtain ⟨rfl, -⟩ : text = source ∧ [] = bindings := by simpa [bind?] using h
      exact .inr ⟨text, by simp, hnames⟩
  | case2 text before inner rest hfound ih ih' =>
      rw [bind?, bind?] at h
      cases hvalue : expand limit scope 1 inner (ofText inner) with
      | error refusal => simp [hvalue] at h
      | ok value =>
          cases hlater : bind? limit scope (n + 1) (ofText rest) with
          | none => simp [hvalue, hlater] at h
          | some later =>
              obtain ⟨others, more⟩ := later
              simp only [hvalue, hlater, Option.map_some, Option.some.injEq, Prod.mk.injEq] at h
              obtain ⟨rfl, -⟩ := h
              simp only [holes, List.length_cons, List.mem_cons, reduceCtorEq, Piece.text.injEq,
                false_or]
              rcases hnames.of_blank hname with hbefore | hafter
              · exact .inr ⟨before, .inl rfl, hbefore⟩
              · rcases hafter.of_blank hname with hgenerated | hothers
                · exact .inl ⟨0, Nat.succ_pos _, eq_bindingName hname hgenerated⟩
                · rcases ih' hlater hothers with ⟨k, hk, rfl⟩ | ⟨chars, hmem, hchars⟩
                  · have hplace : n + 1 + k = n + (k + 1) := by omega
                    exact .inl ⟨k + 1, Nat.succ_lt_succ hk, by rw [hplace]⟩
                  · exact .inr ⟨chars, .inr hmem, hchars⟩

end Template

/-! ## Names in expressions -/

theorem Token.name?_of_next? {text after : List Char} {source root : String}
    {segments : List Segment} (h : next? text = some (.path source root segments, after)) :
    ∃ rest, name? text = some (root, rest) := by
  unfold next? at h
  split at h
  · cases h
  · split at h
    · cases h
    · split at h
      · obtain ⟨_, -, heq⟩ := Option.map_eq_some_iff.1 h
        cases heq
      · split at h
        · unfold word? at h
          split at h
          · cases h
          · rename_i name rest hname
            split at h
            · cases h
            · obtain ⟨_, -, heq⟩ := Option.map_eq_some_iff.1 h
              cases heq
              exact ⟨rest, hname⟩
        · cases (sign_of_sign? h).2

theorem Token.names_of_name? {text rest : List Char} {name : String}
    (h : name? text = some (name, rest)) :
    isName name.toList = true ∧ Text.Names name.toList text := by
  obtain ⟨used, htext, hname, rfl⟩ := isName_of_name? h
  have hstops : StopsAt isNameChar rest := by
    cases text with
    | nil => cases h
    | cons c text =>
        simp only [name?] at h
        split at h
        · obtain ⟨-, rfl⟩ := Prod.mk.inj (Option.some.inj h)
          exact stopsAt_dropWhile isNameChar text
        · cases h
  rw [String.toList_ofList]
  exact ⟨hname, [], rest, htext, hstops⟩

namespace Expr

mutual

/-- Every root in an expression is that of a path token. -/
theorem exists_of_mem_roots {p : Token → Prop} {name : String} :
    ∀ {e : Expr}, e.From p → name ∈ e.roots → ∃ source segments, p (.path source name segments)
  | .lit _, _, hroot => nomatch hroot
  | .path root segments, ⟨⟨source, h⟩, _⟩, hroot => by
      obtain rfl := List.mem_singleton.1 hroot
      exact ⟨source, segments, h⟩
  | .call _ _, ⟨_, hargs⟩, hroot => exists_of_mem_rootsOfAll hargs hroot
  | .not operand, h, hroot => exists_of_mem_roots (e := operand) h hroot
  | .neg operand, h, hroot => exists_of_mem_roots (e := operand) h hroot
  | .binary _ _ _, ⟨h, h'⟩, hroot =>
      (List.mem_append.1 hroot).elim (exists_of_mem_roots h) (exists_of_mem_roots h')
  | .and _ _, ⟨h, h'⟩, hroot =>
      (List.mem_append.1 hroot).elim (exists_of_mem_roots h) (exists_of_mem_roots h')
  | .or _ _, ⟨h, h'⟩, hroot =>
      (List.mem_append.1 hroot).elim (exists_of_mem_roots h) (exists_of_mem_roots h')
  | .cond _ _ _, ⟨h, h', h''⟩, hroot =>
      (List.mem_append.1 hroot).elim
        (fun hfirst => (List.mem_append.1 hfirst).elim (exists_of_mem_roots h)
          (exists_of_mem_roots h'))
        (exists_of_mem_roots h'')

theorem exists_of_mem_rootsOfAll {p : Token → Prop} {name : String} :
    ∀ {args : List Expr}, AllFrom p args → name ∈ rootsOfAll args →
      ∃ source segments, p (.path source name segments)
  | [], _, hroot => nomatch hroot
  | _ :: _, ⟨h, h'⟩, hroot =>
      (List.mem_append.1 hroot).elim (exists_of_mem_roots h) (exists_of_mem_rootsOfAll h')

end

/-- The root of a path stands as a name in the text. -/
theorem names_root {source : List Char} {e : Expr} (h : parse? (Text.trim source) = some e)
    {name : String} (hroot : name ∈ e.roots) :
    Token.isName name.toList = true ∧ Text.Names name.toList source := by
  obtain ⟨path, segments, rest, after, hmet, hread⟩ := exists_of_mem_roots (from_of_parse? h) hroot
  obtain ⟨later, hname⟩ := Token.name?_of_next? hread
  obtain ⟨hisName, hnames⟩ := Token.names_of_name? hname
  obtain ⟨before, htrim⟩ := hmet.suffix
  obtain ⟨lead, trail, hsource, -, htrail⟩ := Text.exists_blanks_around source
  rw [← htrim, List.append_assoc] at hsource
  rw [hsource]
  exact ⟨hisName, ((hnames.append_right htrail).append_left before).append_left lead⟩

end Expr

namespace Evaluator

open Template

variable (evaluator : Evaluator) (scope : Scope) {condition : List Char} {reading : Reading}

/-- The placeholders of a condition that are bound to names, in order.  A condition that is one
placeholder has none: it is read as what the placeholder renders to. -/
def embedded (condition : List Char) : List (List Char × List Piece) :=
  match single? condition with
  | some _ => []
  | none => holes (ofText condition)

/-- The names that the placeholders of a condition are bound to. -/
def generatedNames (condition : List Char) : List String :=
  (List.range (embedded condition).length).map bindingName

theorem exists_values (h : evaluator.reading? scope condition = some reading) :
    ∃ values, List.Forall₂
        (fun hole value => expand evaluator.limit scope 1 hole.1 hole.2 = .ok value)
        (embedded condition) values ∧
      reading.scope = withBindings scope (numbered 0 values) := by
  unfold reading? at h
  unfold embedded
  cases hsingle : single? condition with
  | some inner =>
      rw [hsingle] at h
      obtain ⟨source, -, rfl⟩ := Option.map_eq_some_iff.1 h
      exact ⟨[], .nil, rfl⟩
  | none =>
      rw [hsingle] at h
      cases hopening : hasOpening condition with
      | false =>
          obtain rfl : ⟨scope, condition⟩ = reading := by simpa [hopening] using h
          rw [ofText_of_none (firstHole?_of_plain hopening)]
          exact ⟨[], .nil, rfl⟩
      | true =>
          rw [hopening] at h
          obtain ⟨⟨source, bindings⟩, hbound, rfl⟩ := Option.map_eq_some_iff.1 h
          obtain ⟨values, rfl, hvalues⟩ := numbered_of_bind? hbound
          exact ⟨values, hvalues, rfl⟩

theorem lookup?_withBindings (values : List Json) (name : String) :
    (withBindings scope (numbered 0 values)).lookup? name =
      ((Table.get? name (numbered 0 values)).or (scope.lookup? name)) := by
  unfold Scope.lookup? withBindings
  simp only [Table.get?_overlay (nodup_numbered 0 values)]
  cases Table.get? name (numbered 0 values) with
  | some value => rfl
  | none => rfl

variable {evaluator scope}

/-- A name that is not generated is looked up as without placeholders. -/
theorem lookup?_of_not_generated (h : evaluator.reading? scope condition = some reading)
    {name : String} (hother : name ∉ generatedNames condition) :
    reading.scope.lookup? name = scope.lookup? name := by
  obtain ⟨values, hvalues, hscope⟩ := exists_values evaluator scope h
  have hkeys : name ∉ Table.keys (numbered 0 values) := by
    rw [keys_numbered_eq, ← List.range_eq_range', ← hvalues.length_eq]
    exact hother
  have hnone : Table.get? name (numbered 0 values) = none := by
    simpa [Table.has] using mt Table.mem_keys.2 hkeys
  rw [hscope, lookup?_withBindings, hnone, Option.none_or]

/-- A generated name has the value of its placeholder, whatever the frame has under that name. -/
theorem lookup?_bindingName (h : evaluator.reading? scope condition = some reading) {k : Nat}
    {source : List Char} {pieces : List Piece}
    (hhole : (embedded condition)[k]? = some (source, pieces)) :
    ∃ value, expand evaluator.limit scope 1 source pieces = .ok value ∧
      reading.scope.lookup? (bindingName k) = some value := by
  obtain ⟨values, hvalues, hscope⟩ := exists_values evaluator scope h
  obtain ⟨hk, hat⟩ := List.getElem?_eq_some_iff.1 hhole
  have hk' : k < values.length := hvalues.length_eq ▸ hk
  have hvalue := hvalues.get hk hk'
  rw [List.get_eq_getElem, hat] at hvalue
  have hbound := get?_bindingName 0 k values
  rw [Nat.zero_add, List.getElem?_eq_getElem hk'] at hbound
  refine ⟨values[k], hvalue, ?_⟩
  rw [hscope, lookup?_withBindings, hbound, Option.some_or]

/-- The expression that a condition is read as names nothing but the generated names and what stands
in the text between the placeholders. -/
theorem generated_or_written (h : evaluator.reading? scope condition = some reading)
    (hmany : single? condition = none) {e : Expr}
    (hparsed : Expr.parse? (Text.trim reading.source) = some e) {name : String}
    (hroot : name ∈ e.roots) :
    name ∈ generatedNames condition ∨
      ∃ chars, .text chars ∈ ofText condition ∧ Text.Names name.toList chars := by
  obtain ⟨hname, hnames⟩ := Expr.names_root hparsed hroot
  unfold reading? at h
  rw [hmany] at h
  cases hopening : hasOpening condition with
  | false =>
      obtain rfl : ⟨scope, condition⟩ = reading := by simpa [hopening] using h
      rw [ofText_of_none (firstHole?_of_plain hopening)]
      exact .inr ⟨condition, List.mem_singleton.2 rfl, hnames⟩
  | true =>
      rw [hopening] at h
      obtain ⟨⟨source, bindings⟩, hbound, rfl⟩ := Option.map_eq_some_iff.1 h
      rcases names_of_bind? hname hbound hnames with ⟨k, hk, heq⟩ | htext
      · rw [Nat.zero_add] at heq
        rw [String.toList_injective heq, generatedNames, embedded, hmany]
        exact .inl (List.mem_map_of_mem (List.mem_range.2 hk))
      · exact .inr htext

/-- A condition reads a name as it is read without placeholders, unless the name is one of those
generated for its placeholders.  Such a name has the value of the placeholder and hides the variable
of that name, if the frame has one.  Every name that the condition reads is generated or stands in
the text between the placeholders. -/
theorem names_kept_unless_generated (h : evaluator.reading? scope condition = some reading) :
    (∀ name, name ∉ generatedNames condition →
      reading.scope.lookup? name = scope.lookup? name) ∧
    (∀ k source pieces, (embedded condition)[k]? = some (source, pieces) →
      bindingName k ∈ generatedNames condition ∧
        ∃ value, expand evaluator.limit scope 1 source pieces = .ok value ∧
          reading.scope.lookup? (bindingName k) = some value) ∧
    (single? condition = none → ∀ e, Expr.parse? (Text.trim reading.source) = some e →
      ∀ name ∈ e.roots, name ∈ generatedNames condition ∨
        ∃ chars, .text chars ∈ ofText condition ∧ Text.Names name.toList chars) := by
  refine ⟨fun name hother => lookup?_of_not_generated h hother, fun k source pieces hhole => ?_,
    fun hmany e hparsed name hroot => generated_or_written h hmany hparsed hroot⟩
  obtain ⟨hk, -⟩ := List.getElem?_eq_some_iff.1 hhole
  exact ⟨List.mem_map_of_mem (List.mem_range.2 hk), lookup?_bindingName h hhole⟩

end Evaluator

namespace Guests

open Evaluator Template

/-- A closed door, and two variables with names that placeholders take. -/
def tagged : Scope :=
  ⟨[("$0", .bool true), ("$1", .bool false), ("open", .bool false)], ⟨"", "", "", "", ""⟩⟩

/-- The only placeholder takes the name `$0`, so `$1` has the value that the frame gives it. -/
theorem second_name_kept :
    ∃ reading, standard.reading? tagged "$1 == \x7b\x7bopen\x7d\x7d".toList = some reading ∧
      tagged.lookup? "$1" = some (.bool false) ∧
      reading.scope.lookup? "$1" = some (.bool false) ∧
      tagged.lookup? "$0" = some (.bool true) ∧
      reading.scope.lookup? "$0" = some (.bool false) := by
  obtain ⟨reading, hreading⟩ := Option.isSome_iff_exists.1
    (show (standard.reading? tagged "$1 == \x7b\x7bopen\x7d\x7d".toList).isSome by decide +kernel)
  obtain ⟨hkept, hbound, -⟩ := names_kept_unless_generated hreading
  have hfirst : firstHole? "$1 == \x7b\x7bopen\x7d\x7d".toList =
      some ("$1 == ".toList, "open".toList, []) := by decide
  have hhole : (embedded "$1 == \x7b\x7bopen\x7d\x7d".toList)[0]? =
      some ("open".toList, ofText "open".toList) := by
    rw [embedded, show single? "$1 == \x7b\x7bopen\x7d\x7d".toList = none by decide,
      ofText_of_some hfirst]
    rfl
  obtain ⟨-, value, hvalue, hlookup⟩ := hbound 0 _ _ hhole
  have hopen : expand standard.limit tagged 1 "open".toList (ofText "open".toList) =
      .ok (.bool false) := by
    rw [expand, settle, if_neg (by decide)]
    cbv
  obtain rfl := Except.ok.inj (hvalue.symm.trans hopen)
  exact ⟨reading, hreading, rfl, hkept "$1" (by decide +kernel), rfl, hlookup⟩

/-- The name `$0` is taken by the placeholder, though the frame has a variable of that name and the
condition means it.  The placeholder is compared with itself, so the condition holds in spite of the
values. -/
theorem first_name_captured :
    (¬ ∀ reading, standard.reading? tagged "$0 == \x7b\x7bopen\x7d\x7d".toList = some reading →
      reading.scope.lookup? "$0" = tagged.lookup? "$0") ∧
    standard.holds tagged "$0 == \x7b\x7bopen\x7d\x7d" = true ∧
    standard.holds tagged "$0 == open" = false := by
  refine ⟨fun hkept => ?_, by decide +kernel, by decide +kernel⟩
  obtain ⟨reading, hreading⟩ := Option.isSome_iff_exists.1
    (show (standard.reading? tagged "$0 == \x7b\x7bopen\x7d\x7d".toList).isSome by decide +kernel)
  have hcaptured : ((standard.reading? tagged "$0 == \x7b\x7bopen\x7d\x7d".toList).bind
      fun reading => (reading.scope.lookup? "$0").map Json.isTruthy) = some false := by
    decide +kernel
  rw [hreading, Option.bind_some, hkept reading hreading] at hcaptured
  cases hcaptured

end Guests

end Parley
