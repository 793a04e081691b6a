import Parley.Proofs.Trimming
import Parley.Template.Render

/-!
# Placeholders in conditions

A condition that alternates text and placeholders is cut at exactly these
placeholders.  Its source has a generated name in the place of each, and the
names are bound to the values of the placeholders, one after another.
-/

set_option autoImplicit false

namespace Parley

namespace Template

/-- The character neither stands twice in a row in the text nor ends it. -/
structure Apart (brace : Char) (text : List Char) : Prop where
  single : ¬ [brace, brace] <:+: text
  inner : ¬ [brace] <:+ text

instance (brace : Char) (text : List Char) : Decidable (Apart brace text) :=
  decidable_of_iff (¬ [brace, brace] <:+: text ∧ ¬ [brace] <:+ text)
    ⟨fun h => ⟨h.1, h.2⟩, fun h => ⟨h.single, h.inner⟩⟩

namespace Apart

variable {brace c : Char} {text : List Char}

theorem suffix {after : List Char} (h : Apart brace text) (le : after <:+ text) :
    Apart brace after :=
  ⟨fun twice => h.single (twice.trans le.isInfix), fun last => h.inner (last.trans le)⟩

theorem tail (h : Apart brace (c :: text)) : Apart brace text :=
  h.suffix (List.suffix_cons c text)

/-- The first character and what follows it, also beyond the text, are not both the brace. -/
theorem head (h : Apart brace (c :: text)) (rest : List Char) :
    ¬ (c = brace ∧ (text ++ rest).head? = some brace) := by
  rintro ⟨rfl, next⟩
  cases text with
  | nil => exact h.inner (List.suffix_refl _)
  | cons d text =>
    obtain rfl : d = c := by simpa using next
    exact h.single ⟨[], text, rfl⟩

end Apart

theorem head_of_single {brace c : Char} {text : List Char}
    (h : ¬ [brace, brace] <:+: c :: text) : ¬ (c = brace ∧ text.head? = some brace) := by
  rintro ⟨rfl, next⟩
  cases text with
  | nil => simp at next
  | cons d text =>
    obtain rfl : d = c := by simpa using next
    exact h ⟨[], text, rfl⟩

theorem single_tail {brace c : Char} {text : List Char} (h : ¬ [brace, brace] <:+: c :: text) :
    ¬ [brace, brace] <:+: text :=
  fun twice => h (twice.trans (List.suffix_cons c text).isInfix)

theorem hasOpening_cons {c : Char} {text : List Char}
    (h : ¬ (c = '\x7b' ∧ text.head? = some '\x7b')) : hasOpening (c :: text) = hasOpening text := by
  rw [hasOpening.eq_def]
  split
  · simp_all
  · simp_all
  · simp_all

theorem hasOpening_eq_false {text : List Char} (h : ¬ ['\x7b', '\x7b'] <:+: text) :
    hasOpening text = false := by
  induction text with
  | nil => rfl
  | cons c text ih =>
    rw [hasOpening_cons (head_of_single h)]
    exact ih (single_tail h)

theorem hasOpening_append (text rest : List Char) :
    hasOpening (text ++ '\x7b' :: '\x7b' :: rest) = true := by
  induction text with
  | nil => rfl
  | cons c text ih =>
    rw [List.cons_append, hasOpening.eq_def]
    split
    · rfl
    · simp_all
    · simp_all

theorem firstHole?_cons {c : Char} {text : List Char}
    (h : ¬ (c = '\x7b' ∧ text.head? = some '\x7b')) :
    firstHole? (c :: text) =
      (firstHole? text).map fun (before, inner, rest) => (c :: before, inner, rest) := by
  rw [firstHole?.eq_def]
  split
  · simp_all
  · simp_all
  · simp_all

theorem closing?_cons {c : Char} {text : List Char}
    (h : ¬ (c = '\x7b' ∧ text.head? = some '\x7b')) (h' : ¬ (c = '\x7d' ∧ text.head? = some '\x7d')) :
    closing? 0 (c :: text) = (closing? 0 text).map fun (inner, rest) => (c :: inner, rest) := by
  rw [closing?.eq_def]
  split <;> simp_all

theorem closing?_bare {source : List Char} (opening : ¬ ['\x7b', '\x7b'] <:+: source)
    (closing : Apart '\x7d' source) (rest : List Char) :
    closing? 0 (source ++ '\x7d' :: '\x7d' :: rest) = some (source, rest) := by
  induction source with
  | nil => rfl
  | cons c source ih =>
    have notOpening : ¬ (c = '\x7b' ∧ (source ++ '\x7d' :: '\x7d' :: rest).head? = some '\x7b') := by
      cases source with
      | nil => simp
      | cons d source => simpa using head_of_single opening
    rw [List.cons_append, closing?_cons notOpening (closing.head _),
      ih (single_tail opening) closing.tail]
    rfl

theorem firstHole?_plain {text : List Char} (plain : Apart '\x7b' text) (rest : List Char) :
    firstHole? (text ++ '\x7b' :: '\x7b' :: rest) =
      (closing? 0 rest).map fun (inner, rest) => (text, inner, rest) := by
  induction text with
  | nil => rfl
  | cons c text ih =>
    rw [List.cons_append, firstHole?_cons (plain.head _), ih plain.tail, Option.map_map]
    rfl

theorem firstHole?_eq_none {text : List Char} (plain : Apart '\x7b' text) :
    firstHole? text = none := by
  induction text with
  | nil => rfl
  | cons c text ih =>
    have head := plain.head []
    rw [List.append_nil] at head
    rw [firstHole?_cons head, ih plain.tail]
    rfl

theorem ofText_of_none {text : List Char} (h : firstHole? text = none) :
    ofText text = [.text text] := by
  rw [ofText.eq_def]
  split
  · rfl
  · simp_all

theorem ofText_of_some {text before inner rest : List Char}
    (h : firstHole? text = some (before, inner, rest)) :
    ofText text = .text before :: .hole inner (ofText inner) :: ofText rest := by
  rw [ofText.eq_def]
  split
  · simp_all
  · simp_all

/-! ## Text and placeholders in turn -/

/-- The text that begins with `first` and goes on with placeholders, each followed by more text. -/
def written (first : List Char) : List (List Char × List Char) → List Char
  | [] => first
  | (source, next) :: holes => first ++ '\x7b' :: '\x7b' :: (source ++ '\x7d' :: '\x7d' :: written next holes)

/-- The same text with a name between blanks in the place of each placeholder; the names are
numbered from `n`. -/
def named (n : Nat) (first : List Char) : List (List Char × List Char) → List Char
  | [] => first
  | (_, next) :: holes => first ++ ' ' :: ((bindingName n).toList ++ ' ' :: named (n + 1) next holes)

/-- Entries for the names that are numbered from `n`. -/
def numbered {α : Type} (n : Nat) : List α → Table String α
  | [] => []
  | x :: xs => (bindingName n, x) :: numbered (n + 1) xs

/-- Braces stand only around the placeholders: no text between them holds two opening braces or ends
with one, and no source holds two braces of a kind or ends with a closing one. -/
structure Framed (first : List Char) (holes : List (List Char × List Char)) : Prop where
  texts : ∀ text ∈ first :: holes.map Prod.snd, Apart '\x7b' text
  sources : ∀ source ∈ holes.map Prod.fst, ¬ ['\x7b', '\x7b'] <:+: source ∧ Apart '\x7d' source

instance (first : List Char) (holes : List (List Char × List Char)) :
    Decidable (Framed first holes) :=
  decidable_of_iff ((∀ text ∈ first :: holes.map Prod.snd, Apart '\x7b' text) ∧
      ∀ source ∈ holes.map Prod.fst, ¬ ['\x7b', '\x7b'] <:+: source ∧ Apart '\x7d' source)
    ⟨fun h => ⟨h.1, h.2⟩, fun h => ⟨h.texts, h.sources⟩⟩

section

variable {first next source : List Char} {holes : List (List Char × List Char)}

theorem Framed.rest (h : Framed first ((source, next) :: holes)) : Framed next holes :=
  ⟨fun text ht => h.texts text (List.mem_cons_of_mem _ ht),
    fun text ht => h.sources text (List.mem_cons_of_mem _ ht)⟩

theorem ofText_written_nil (h : Framed first []) : ofText (written first []) = [.text first] :=
  ofText_of_none (firstHole?_eq_none (h.texts first List.mem_cons_self))

theorem ofText_written_cons (h : Framed first ((source, next) :: holes)) :
    ofText (written first ((source, next) :: holes)) =
      .text first :: .hole source (ofText source) :: ofText (written next holes) := by
  apply ofText_of_some
  have plain := h.texts first List.mem_cons_self
  obtain ⟨opening, closing⟩ := h.sources source List.mem_cons_self
  rw [written, firstHole?_plain plain, closing?_bare opening closing]
  rfl

theorem hasOpening_written (h : holes ≠ []) : hasOpening (written first holes) = true := by
  obtain ⟨⟨source, next⟩, others, rfl⟩ := List.exists_cons_of_ne_nil h
  exact hasOpening_append first _

/-! ## Texts that are one placeholder -/

/-- The text is one placeholder with nothing but blanks around it. -/
def Whole (first : List Char) (holes : List (List Char × List Char)) : Prop :=
  ∃ source next, holes = [(source, next)] ∧ (∀ c ∈ first, Text.isBlank c = true) ∧
    ∀ c ∈ next, Text.isBlank c = true

theorem trimEnd_written_ne_nil (h : ¬ ∀ c ∈ first, Text.isBlank c = true) :
    Text.trimEnd (written first holes) ≠ [] := by
  intro none
  apply h
  intro c hc
  apply Text.blank_of_trimEnd none
  cases holes with
  | nil => exact hc
  | cons hole holes => exact List.mem_append_left _ hc

theorem trimEnd_holes_ne_nil (h : holes ≠ []) : Text.trimEnd (written first holes) ≠ [] := by
  intro none
  obtain ⟨⟨source, next⟩, others, rfl⟩ := List.exists_cons_of_ne_nil h
  have brace := Text.blank_of_trimEnd none '\x7b' (by simp [written])
  exact absurd brace (by decide)

theorem head_of_trimEnd {c : Char} {text : List Char} (h : (Text.trimEnd text).head? = some c) :
    text.head? = some c := by
  obtain ⟨cut, whole⟩ : Text.trimEnd text <+: text := List.rdropWhile_prefix _ _
  rw [← whole, List.head?_append, h]
  rfl

theorem trim_written_blank {others : List (List Char × List Char)}
    (blank : ∀ c ∈ first, Text.isBlank c = true) :
    Text.trim (written first ((source, next) :: others)) =
      '\x7b' :: '\x7b' :: (source ++ '\x7d' :: '\x7d' :: Text.trimEnd (written next others)) := by
  have start : Text.trimStart (written first ((source, next) :: others)) =
      '\x7b' :: '\x7b' :: (source ++ '\x7d' :: '\x7d' :: written next others) := by
    rw [written, Text.trimStart, List.dropWhile_append_of_pos blank]
    rfl
  have visible : Text.isBlank '\x7d' = false := by decide
  rw [Text.trim, start]
  simpa using Text.trimEnd_append_cons ('\x7b' :: '\x7b' :: (source ++ ['\x7d'])) visible
    (written next others)

/-- What begins with a visible character is a placeholder only if it begins with two braces. -/
theorem single?_of_visible {c : Char} {text rest more : List Char}
    (start : Text.trimStart text = c :: (rest ++ more)) (visible : Text.isBlank c = false)
    (h : Apart '\x7b' (c :: rest)) : single? text = none := by
  have trimmed : Text.trim text = c :: Text.trimEnd (rest ++ more) := by
    rw [Text.trim, start]
    exact Text.trimEnd_append_cons [] visible _
  simp only [single?, trimmed]
  split
  · rename_i after opens
    obtain ⟨rfl, next_eq⟩ := List.cons.inj opens
    have second := head_of_trimEnd (c := '\x7b') (by rw [next_eq]; rfl)
    exact absurd ⟨rfl, second⟩ (h.head _)
  · rfl

/-- A text with more than one placeholder in it is not taken for a single one. -/
theorem single?_written (framed : Framed first holes) (some_holes : holes ≠ [])
    (h : ¬ Whole first holes) : single? (written first holes) = none := by
  obtain ⟨⟨source, next⟩, others, rfl⟩ := List.exists_cons_of_ne_nil some_holes
  obtain ⟨opening, closing⟩ := framed.sources source List.mem_cons_self
  -- Either something visible is left after the placeholder, or something stands in front of it.
  by_cases blank : ∀ c ∈ first, Text.isBlank c = true
  · have more : Text.trimEnd (written next others) ≠ [] := by
      by_cases last : others = []
      · apply trimEnd_written_ne_nil
        intro blank'
        exact h ⟨source, next, by rw [last], blank, blank'⟩
      · exact trimEnd_holes_ne_nil last
    simp only [single?, trim_written_blank blank, closing?_bare opening closing]
    split
    · rename_i none
      simp only [Option.some.injEq, Prod.mk.injEq] at none
      exact absurd none.2 more
    · rfl
  · obtain ⟨c, rest, start⟩ : ∃ c rest, first.dropWhile Text.isBlank = c :: rest := by
      apply List.exists_cons_of_ne_nil
      intro none
      exact blank (List.dropWhile_eq_nil_iff.mp none)
    have visible : Text.isBlank c = false :=
      Token.stopsAt_dropWhile Text.isBlank first c (by rw [start]; rfl)
    have apart : Apart '\x7b' (c :: rest) := by
      rw [← start]
      exact (framed.texts first List.mem_cons_self).suffix (List.dropWhile_suffix _)
    have begins : Text.trimStart (written first ((source, next) :: others)) = c :: (rest ++
        '\x7b' :: '\x7b' :: (source ++ '\x7d' :: '\x7d' :: written next others)) := by
      rw [Text.trimStart, written, List.dropWhile_append, start]
      rfl
    exact single?_of_visible begins visible apart

/-- The values of the placeholders in order; none if one of them is refused. -/
def values? (scope : Scope) : List Expr → Option (List Json)
  | [] => some []
  | e :: es =>
    match Expr.evalChecked scope e with
    | .error _ => none
    | .ok value => (values? scope es).map (value :: ·)

theorem evaluate_of_parse? {scope : Scope} {e : Expr}
    (parsed : Expr.parse? (Text.trim source) = some e) :
    Expr.evaluate scope source = Expr.evalChecked scope e := by
  have nonempty : (Text.trim source).isEmpty = false := by
    cases trimmed : Text.trim source with
    | nil =>
      rw [trimmed] at parsed
      exact absurd parsed (by simp [show Expr.parse? [] = none from rfl])
    | cons c text => rfl
  simp only [Expr.evaluate, nonempty, parsed]
  rfl

theorem expand_bare {limit depth : Nat} {scope : Scope} {pieces : List Piece} {e : Expr}
    (bare : ¬ ['\x7b', '\x7b'] <:+: source) (parsed : Expr.parse? (Text.trim source) = some e) :
    expand limit scope depth source pieces = Expr.evalChecked scope e := by
  rw [expand, settle, hasOpening_eq_false bare]
  exact evaluate_of_parse? parsed

/-- Binding puts the names into the source and gives each the value of its placeholder. -/
theorem bind?_written {limit : Nat} {scope : Scope} {parsed : List Expr}
    (operands : List.Forall₂ (fun hole e => Expr.parse? (Text.trim hole.1) = some e) holes parsed) :
    ∀ first n, Framed first holes →
      bind? limit scope n (ofText (written first holes)) =
        (values? scope parsed).map fun values => (named n first holes, numbered n values) := by
  induction operands with
  | nil =>
    intro first n framed
    rw [ofText_written_nil framed]
    simp [bind?, values?, named, numbered]
  | @cons hole e holes parsed operand _ ih =>
    obtain ⟨source, next⟩ := hole
    intro first n framed
    have bare := (framed.sources source List.mem_cons_self).1
    rw [ofText_written_cons framed]
    simp only [bind?, values?, expand_bare bare operand, ih next (n + 1) framed.rest]
    cases Expr.evalChecked scope e with
    | error => rfl
    | ok value => cases values? scope parsed <;> simp [named, numbered]

end

end Template

end Parley
