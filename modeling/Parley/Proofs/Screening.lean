import Parley.Expr.Refusal
import Parley.Proofs.BearerTokens
import Parley.Proofs.Notices
import Parley.Proofs.Trimming

/-!
# What the screen finds

A text that is no expression is screened with its quoted parts blanked.  What the
screen finds stands in the text itself, behind quotes that are all paired, and
everything that stands so is found.  Quotes are paired as those of strings in
expressions, and a quote that is never closed hides everything behind it.
-/

set_option autoImplicit false

namespace Parley

/-! ## Pieces of texts -/

namespace Text

variable {cut : Char → Bool} {text piece : List Char}

/-- What holds of a character and of the last one behind it holds of the last one of the text. -/
theorem getLast?_append_cons {α : Type} {p : α → Prop} {front back : List α} {d : α} (h : p d)
    (h' : ∀ c ∈ back.getLast?, p c) : ∀ c ∈ (front ++ d :: back).getLast?, p c := by
  intro c hc
  rw [List.getLast?_append, List.getLast?_cons, Option.some_or, Option.mem_some_iff] at hc
  cases hlast : back.getLast? with
  | none =>
      rw [hlast, Option.getD_none] at hc
      exact hc ▸ h
  | some e =>
      rw [hlast, Option.getD_some] at hc
      exact hc ▸ h' e hlast

/-- A text is one piece, or its first piece ends at the first cut. -/
theorem exists_first_piece (cut : Char → Bool) (text : List Char) :
    ∃ first, (∀ c ∈ first, cut c = false) ∧
      (text = first ∧ splitOn cut text = [first] ∨
        ∃ d rest, text = first ++ d :: rest ∧ cut d = true ∧
          splitOn cut text = first :: splitOn cut rest) := by
  simp only [splitOn_eq_splitOnP]
  have hfree : ∀ c ∈ text.takeWhile (!cut ·), cut c = false := fun c hc => by
    simpa using List.mem_takeWhile_imp hc
  have htext := List.takeWhile_append_dropWhile (p := (!cut ·)) (l := text)
  refine ⟨text.takeWhile (!cut ·), hfree, ?_⟩
  cases hdrop : text.dropWhile (!cut ·) with
  | nil =>
      rw [hdrop, List.append_nil] at htext
      rw [htext] at hfree ⊢
      exact .inl ⟨rfl, List.splitOnP_eq_singleton hfree⟩
  | cons d rest =>
      have hcut : cut d = true := by
        have hhead := List.head?_dropWhile_not (!cut ·) text
        rw [hdrop] at hhead
        simpa using hhead
      rw [hdrop] at htext
      refine .inr ⟨d, rest, htext.symm, hcut, ?_⟩
      conv_lhs => rw [← htext]
      rw [List.splitOnP_append_cons _ _ hcut, List.splitOnP_eq_singleton hfree]
      rfl

theorem splits_of_mem_splitOn (h : piece ∈ splitOn cut text) :
    ∃ before after, text = before ++ (piece ++ after) ∧ (∀ c ∈ piece, cut c = false) ∧
      (∀ c ∈ before.getLast?, cut c = true) ∧ ∀ c ∈ after.head?, cut c = true := by
  induction hlength : text.length using Nat.strong_induction_on generalizing text with
  | _ n ih =>
    subst hlength
    obtain ⟨first, hfree, ⟨rfl, hone⟩ | ⟨d, rest, rfl, hcut, hsplit⟩⟩ := exists_first_piece cut text
    · rw [hone, List.mem_singleton] at h
      subst h
      exact ⟨[], [], by simp, hfree, by simp, by simp⟩
    · rw [hsplit, List.mem_cons] at h
      rcases h with rfl | hlater
      · exact ⟨[], d :: rest, rfl, hfree, by simp, by simpa using hcut⟩
      · have hshorter : rest.length < (first ++ d :: rest).length := by
          rw [List.length_append, List.length_cons]
          omega
        obtain ⟨before, after, rfl, hpiece, hbefore, hafter⟩ := ih _ hshorter hlater rfl
        exact ⟨first ++ d :: before, after, by simp, hpiece,
          getLast?_append_cons (p := (cut · = true)) hcut hbefore, hafter⟩

theorem mem_splitOn_of_splits {before after : List Char} (hpiece : ∀ c ∈ piece, cut c = false)
    (hbefore : ∀ c ∈ before.getLast?, cut c = true) (hafter : ∀ c ∈ after.head?, cut c = true) :
    piece ∈ splitOn cut (before ++ (piece ++ after)) := by
  rw [splitOn_eq_splitOnP]
  have hfirst : piece ∈ (piece ++ after).splitOnP cut := by
    cases after with
    | nil =>
        rw [List.append_nil, List.splitOnP_eq_singleton hpiece]
        exact List.mem_singleton_self _
    | cons d after =>
        rw [List.splitOnP_append_cons _ _ (hafter d rfl), List.splitOnP_eq_singleton hpiece]
        exact List.mem_cons_self
  rcases List.eq_nil_or_concat before with rfl | ⟨before, d, rfl⟩
  · exact hfirst
  · have hcut : cut d = true := hbefore d (by simp)
    rw [List.concat_eq_append, List.append_assoc, List.singleton_append,
      List.splitOnP_append_cons _ _ hcut]
    exact List.mem_append_right _ hfirst

/-- A piece of a text is a part without cuts, between cuts or ends of the text. -/
theorem mem_splitOn_iff :
    piece ∈ splitOn cut text ↔
      ∃ before after, text = before ++ (piece ++ after) ∧ (∀ c ∈ piece, cut c = false) ∧
        (∀ c ∈ before.getLast?, cut c = true) ∧ ∀ c ∈ after.head?, cut c = true := by
  constructor
  · exact splits_of_mem_splitOn
  · rintro ⟨before, after, rfl, hpiece, hbefore, hafter⟩
    exact mem_splitOn_of_splits hpiece hbefore hafter

end Text

namespace Denied

/-! ## Texts with paired quotes -/

/-- Every quote of the text opens a quoted part that is closed again, or closes one.  Between its
quotes a part is written as a string in an expression. -/
inductive QuotesPaired : List Char → Prop
  | nil : QuotesPaired []
  | plain (c : Char) {text : List Char} (h : Token.isQuote c = false) (rest : QuotesPaired text) :
      QuotesPaired (c :: text)
  | quoted (quote : Char) {body meant text : List Char} (h : Token.isQuote quote = true)
      (inside : Token.QuotedAs quote body meant) (rest : QuotesPaired text) :
      QuotesPaired (quote :: (body ++ quote :: text))

/-- The part looks like one of a program where it stands between the other two. -/
inductive Suspicious (before after : List Char) : List Char → Prop
  | sign {s : String} (h : s ∈ signs) : Suspicious before after s.toList
  | assignment (left : ∀ c ∈ before.getLast?, c ∉ ['=', '!', '<', '>'])
      (right : ∀ c ∈ after.head?, c ∉ ['=', '>']) : Suspicious before after ['=']
  | word {word : String} (h : word ∈ keywords ∨ word ∈ roots ∨ word ∈ properties)
      (left : ∀ c ∈ before.getLast?, isWordChar c = false)
      (right : ∀ c ∈ after.head?, isWordChar c = false) : Suspicious before after word.toList

/-- Something like a program stands in the text outside of quotes, and all quotes in front of it are
paired. -/
def Hostile (text : List Char) : Prop :=
  ∃ before part after, text = before ++ (part ++ after) ∧ QuotesPaired before ∧
    Suspicious before after part

variable {before after part text : List Char}

/-! ## What the screen looks for -/

/-- A character that is neither blank nor a quote. -/
def isVisible (c : Char) : Bool :=
  !Text.isBlank c && !Token.isQuote c

theorem signs_visible :
    (signs.all fun s => !s.toList.isEmpty && s.toList.all isVisible) = true := by
  decide +kernel

theorem wordChars_of_listed {word : String}
    (h : word ∈ keywords ∨ word ∈ roots ∨ word ∈ properties) :
    word.toList ≠ [] ∧ ∀ c ∈ word.toList, isWordChar c = true := by
  have hlists : ((keywords ++ roots ++ properties).all fun word =>
      !word.toList.isEmpty && word.toList.all isWordChar) = true := by
    decide +kernel
  have hword := List.all_eq_true.1 hlists word (by simpa [or_assoc] using h)
  simpa using hword

theorem plain_of_isQuote {c : Char} (h : Token.isQuote c = true) :
    Text.isBlank c = false ∧ isWordChar c = false := by
  simp only [Token.isQuote, Bool.or_eq_true, decide_eq_true_eq] at h
  rcases h with rfl | rfl <;> decide

theorem isVisible_of_isWordChar {c : Char} (h : isWordChar c = true) : isVisible c = true := by
  have hblank : Text.isBlank c = false := by
    by_contra hblank
    have hother : isWordChar c = false := Token.blank_not_nameChar (Bool.not_eq_false _ ▸ hblank)
    rw [h] at hother
    cases hother
  have hquote : Token.isQuote c = false := by
    by_contra hquote
    have hother := (plain_of_isQuote (Bool.not_eq_false _ ▸ hquote)).2
    rw [h] at hother
    cases hother
  rw [isVisible, hblank, hquote]
  rfl

theorem Suspicious.visible (h : Suspicious before after part) :
    part ≠ [] ∧ ∀ c ∈ part, isVisible c = true := by
  cases h with
  | @sign s h =>
      have hsign := List.all_eq_true.1 signs_visible s h
      simpa using hsign
  | assignment => exact ⟨by simp, by simpa using (by decide : isVisible '=' = true)⟩
  | @word word h =>
      obtain ⟨hne, hchars⟩ := wordChars_of_listed h
      exact ⟨hne, fun c hc => isVisible_of_isWordChar (hchars c hc)⟩

theorem hasAssignment_iff {c : Char} :
    hasAssignment c text = true ↔
      ∃ before after, text = before ++ '=' :: after ∧ before.getLastD c ∉ ['=', '!', '<', '>'] ∧
        after.headD ' ' ∉ ['=', '>'] := by
  induction text generalizing c with
  | nil => simp [hasAssignment]
  | cons d text ih =>
      rw [hasAssignment, Bool.or_eq_true, ih]
      constructor
      · rintro (hhere | ⟨before, after, rfl, hleft, hright⟩)
        · simp only [Bool.and_eq_true, decide_eq_true_eq, Bool.not_eq_true', Bool.or_eq_false_iff,
            decide_eq_false_iff_not] at hhere
          obtain ⟨⟨rfl, hleft⟩, hright⟩ := hhere
          exact ⟨[], text, rfl, by simpa [and_assoc] using hleft, by simpa using hright⟩
        · exact ⟨d :: before, after, rfl, by rwa [List.getLastD_cons], hright⟩
      · rintro ⟨before, after, heq, hleft, hright⟩
        cases before with
        | nil =>
            obtain ⟨rfl, rfl⟩ := List.cons.inj heq
            left
            simpa [and_assoc] using And.intro hleft hright
        | cons e before =>
            obtain ⟨rfl, rfl⟩ := List.cons.inj heq
            exact .inr ⟨before, after, rfl, by rwa [List.getLastD_cons] at hleft, hright⟩

theorem isSome_judgeWord? {word : String} :
    (judgeWord? word).isSome = true ↔ word ∈ keywords ∨ word ∈ roots ∨ word ∈ properties := by
  simp only [judgeWord?, isRoot, isProperty, List.contains_iff_mem, Bool.or_eq_true]
  split
  · simp [*]
  · split <;> simp [*]

theorem mem_wordsOf_iff {word : String} :
    word ∈ wordsOf text ↔
      ∃ before after, text = before ++ (word.toList ++ after) ∧ word.toList ≠ [] ∧
        (∀ c ∈ word.toList, isWordChar c = true) ∧
        (∀ c ∈ before.getLast?, isWordChar c = false) ∧
        ∀ c ∈ after.head?, isWordChar c = false := by
  have hpiece : word ∈ wordsOf text ↔
      word.toList ≠ [] ∧ word.toList ∈ Text.splitOn (fun c => !isWordChar c) text := by
    simp only [wordsOf, List.mem_map, List.mem_filter, Bool.not_eq_true', List.isEmpty_eq_false_iff]
    constructor
    · rintro ⟨piece, ⟨hmem, hne⟩, rfl⟩
      rw [String.toList_ofList]
      exact ⟨hne, hmem⟩
    · rintro ⟨hne, hmem⟩
      exact ⟨word.toList, ⟨hmem, hne⟩, String.ofList_toList⟩
  simp only [hpiece, Text.mem_splitOn_iff, Bool.not_eq_true', Bool.not_eq_false']
  constructor
  · rintro ⟨hne, before, after, htext, hchars, hleft, hright⟩
    exact ⟨before, after, htext, hne, hchars, hleft, hright⟩
  · rintro ⟨before, after, htext, hne, hchars, hleft, hright⟩
    exact ⟨hne, before, after, htext, hchars, hleft, hright⟩

/-- Something like a program stands in the text, in quotes or not. -/
def Suspect (text : List Char) : Prop :=
  ∃ before part after, text = before ++ (part ++ after) ∧ Suspicious before after part

theorem suspect_iff :
    Suspect text ↔
      (∃ s ∈ signs, Text.contains s.toList text = true) ∨ hasAssignment ' ' text = true ∨
        ∃ word ∈ wordsOf text, (judgeWord? word).isSome = true := by
  simp only [Text.contains_iff, hasAssignment_iff, isSome_judgeWord?, mem_wordsOf_iff]
  constructor
  · rintro ⟨before, part, after, rfl, hpart⟩
    cases hpart with
    | sign h => exact .inl ⟨_, h, before, after, List.append_assoc _ _ _⟩
    | assignment left right =>
        refine .inr (.inl ⟨before, after, rfl, ?_, ?_⟩)
        · rw [List.getLastD_eq_getLast?]
          cases hlast : before.getLast? with
          | none => decide
          | some c => exact left c hlast
        · rw [List.headD_eq_head?_getD]
          cases hhead : after.head? with
          | none => decide
          | some c => exact right c hhead
    | @word word h left right =>
        obtain ⟨hne, hchars⟩ := wordChars_of_listed h
        exact .inr (.inr ⟨word, ⟨before, after, rfl, hne, hchars, left, right⟩, h⟩)
  · rintro (⟨s, h, before, after, rfl⟩ | ⟨before, after, rfl, left, right⟩ |
      ⟨word, ⟨before, after, rfl, -, -, left, right⟩, h⟩)
    · exact ⟨before, _, after, List.append_assoc _ _ _, .sign h⟩
    · refine ⟨before, ['='], after, rfl, .assignment (fun c hc => ?_) (fun c hc => ?_)⟩
      · rwa [List.getLastD_eq_getLast?, hc] at left
      · rwa [List.headD_eq_head?_getD, hc] at right
    · exact ⟨before, _, after, rfl, .word h left right⟩

/-- The screen refuses a text exactly if something suspicious is left once what is quoted has been
blanked. -/
theorem isSome_screen?_iff :
    (screen? text).isSome = true ↔ Suspect (blankQuoted .outside text) := by
  rw [suspect_iff, ← List.findSome?_isSome_iff,
    ← List.find?_isSome (p := fun s : String => Text.contains s.toList _), screen?]
  cases signs.find? fun s => Text.contains s.toList (blankQuoted .outside text) with
  | some s => simp
  | none => cases hasAssignment ' ' (blankQuoted .outside text) <;> simp

/-! ## Blanking what is quoted -/

/-- Where the reading of a text stands after one more character. -/
def Quoting.next : Quoting → Char → Quoting
  | .outside, c => if Token.isQuote c then .inside c else .outside
  | .escaped quote, _ => .inside quote
  | .inside quote, c =>
    if c = '\\' then .escaped quote else if c = quote then .outside else .inside quote

/-- What stands for a character once what is quoted has been blanked. -/
def Quoting.shown : Quoting → Char → Char
  | .outside, c => c
  | .escaped _, _ => ' '
  | .inside quote, c => if c = '\\' then ' ' else if c = quote then c else ' '

theorem blankQuoted_cons (quoting : Quoting) (c : Char) (text : List Char) :
    blankQuoted quoting (c :: text) = quoting.shown c :: blankQuoted (quoting.next c) text := by
  cases quoting with
  | outside =>
      rw [blankQuoted]
      rfl
  | escaped quote => rfl
  | inside quote =>
      simp only [blankQuoted, Quoting.shown, Quoting.next]
      split
      · rfl
      · split <;> rfl

/-- Where the reading of a text stands at its end. -/
def Quoting.read (quoting : Quoting) (text : List Char) : Quoting :=
  text.foldl Quoting.next quoting

@[simp] theorem Quoting.read_nil (quoting : Quoting) : quoting.read [] = quoting := rfl

@[simp] theorem Quoting.read_cons (quoting : Quoting) (c : Char) (text : List Char) :
    quoting.read (c :: text) = (quoting.next c).read text := rfl

theorem Quoting.read_append (quoting : Quoting) (before after : List Char) :
    quoting.read (before ++ after) = (quoting.read before).read after :=
  List.foldl_append

/-- What stands in front decides how a text is blanked, and not the other way round. -/
theorem blankQuoted_append (quoting : Quoting) (before after : List Char) :
    blankQuoted quoting (before ++ after) =
      blankQuoted quoting before ++ blankQuoted (quoting.read before) after := by
  induction before generalizing quoting with
  | nil => simp [blankQuoted]
  | cons c before ih => simp [blankQuoted_cons, ih]

@[simp] theorem length_blankQuoted (quoting : Quoting) (text : List Char) :
    (blankQuoted quoting text).length = text.length := by
  induction text generalizing quoting with
  | nil => simp [blankQuoted]
  | cons c text ih => simp [blankQuoted_cons, ih]

/-- What encloses the part that the reading stands in is a quote. -/
def Quoting.Proper : Quoting → Prop
  | .outside => True
  | .inside quote => Token.isQuote quote = true
  | .escaped quote => Token.isQuote quote = true

theorem Quoting.Proper.next {quoting : Quoting} (h : quoting.Proper) (c : Char) :
    (quoting.next c).Proper := by
  cases quoting with
  | outside =>
      rw [Quoting.next]
      split
      · assumption
      · trivial
  | inside quote =>
      rw [Quoting.next]
      split
      · exact h
      · split
        · trivial
        · exact h
  | escaped quote => exact h

theorem Quoting.Proper.read {quoting : Quoting} (h : quoting.Proper) (text : List Char) :
    (quoting.read text).Proper := by
  induction text generalizing quoting with
  | nil => exact h
  | cons c text ih => exact ih (h.next c)

/-! ## Outside of quotes -/

theorem read_quotedAs {quote : Char} {body meant : List Char}
    (inside : Token.QuotedAs quote body meant) :
    (Quoting.inside quote).read body = .inside quote := by
  induction inside with
  | nil => rfl
  | plain c hc hescape _ ih => simpa [Quoting.next, hc, hescape] using ih
  | escaped c _ ih => simpa [Quoting.next] using ih

theorem ne_backslash_of_isQuote {quote : Char} (h : Token.isQuote quote = true) : quote ≠ '\\' := by
  rintro rfl
  cases h

/-- A text with paired quotes leads outside of quotes. -/
theorem QuotesPaired.read (h : QuotesPaired text) : Quoting.outside.read text = .outside := by
  induction h with
  | nil => rfl
  | plain c hplain _ ih => simpa [Quoting.next, hplain] using ih
  | quoted quote hquote inside _ ih =>
      have hescape := ne_backslash_of_isQuote hquote
      simpa [Quoting.next, hquote, Quoting.read_append, read_quotedAs inside, hescape]
        using ih

/-- The text begins inside of quotes, which are closed, and has paired quotes from there on. -/
def ClosedBy (quote : Char) (text : List Char) : Prop :=
  ∃ body meant rest, text = body ++ quote :: rest ∧ Token.QuotedAs quote body meant ∧
    QuotesPaired rest

theorem ClosedBy.plain {quote c : Char} (h : ClosedBy quote text) (hother : c ≠ quote)
    (hescape : c ≠ '\\') : ClosedBy quote (c :: text) := by
  obtain ⟨body, meant, rest, rfl, inside, hrest⟩ := h
  exact ⟨c :: body, c :: meant, rest, rfl, .plain c hother hescape inside, hrest⟩

theorem ClosedBy.escaped {quote : Char} (h : ClosedBy quote text) (c : Char) :
    ClosedBy quote ('\\' :: c :: text) := by
  obtain ⟨body, meant, rest, rfl, inside, hrest⟩ := h
  exact ⟨_, _, rest, rfl, .escaped c inside, hrest⟩

/-- A text that leads outside of quotes has paired quotes, or closes the ones that it begins in. -/
theorem paired_of_read (text : List Char) :
    (Quoting.outside.read text = .outside → QuotesPaired text) ∧
      ∀ quote, Token.isQuote quote = true →
        ((Quoting.inside quote).read text = .outside → ClosedBy quote text) ∧
        ((Quoting.escaped quote).read text = .outside →
          ∃ c rest, text = c :: rest ∧ ClosedBy quote rest) := by
  -- each state leads to the others, so the induction is over all three at once
  induction text with
  | nil => exact ⟨fun _ => .nil, fun quote _ => ⟨nofun, nofun⟩⟩
  | cons c text ih =>
      obtain ⟨houtside, hinside⟩ := ih
      refine ⟨fun h => ?_, fun quote hquote => ⟨fun h => ?_, fun h => ?_⟩⟩
      · rw [Quoting.read_cons, Quoting.next] at h
        split at h
        · rename_i hquote
          obtain ⟨body, meant, rest, rfl, inside, hrest⟩ := (hinside c hquote).1 h
          exact .quoted c hquote inside hrest
        · rename_i hplain
          exact .plain c (Bool.eq_false_iff.2 hplain) (houtside h)
      · rw [Quoting.read_cons, Quoting.next] at h
        split at h
        · rename_i hescape
          obtain ⟨d, rest, rfl, hclosed⟩ := (hinside quote hquote).2 h
          exact hescape ▸ hclosed.escaped d
        · rename_i hescape
          split at h
          · rename_i heq
            exact ⟨[], [], text, by rw [heq]; rfl, .nil, houtside h⟩
          · rename_i hother
            exact ((hinside quote hquote).1 h).plain hother hescape
      · exact ⟨c, text, rfl, (hinside quote hquote).1 h⟩

theorem quotesPaired_iff_read : QuotesPaired text ↔ Quoting.outside.read text = .outside :=
  ⟨QuotesPaired.read, (paired_of_read text).1⟩

instance (text : List Char) : Decidable (QuotesPaired text) :=
  decidable_of_iff _ quotesPaired_iff_read.symm

theorem shown_of_next_outside {quoting : Quoting} {c : Char} (h : quoting.next c = .outside) :
    quoting.shown c = c := by
  cases quoting with
  | outside => rfl
  | escaped quote => cases h
  | inside quote =>
      rw [Quoting.next] at h
      split at h
      · cases h
      · rename_i hescape
        split at h
        · rename_i hclosing
          rw [Quoting.shown, if_neg hescape, if_pos hclosing]
        · cases h

/-- Blanking keeps the last character in front of what stands outside of quotes. -/
theorem getLast?_blankQuoted (h : QuotesPaired text) :
    (blankQuoted .outside text).getLast? = text.getLast? := by
  have hread := h.read
  rcases List.eq_nil_or_concat text with rfl | ⟨front, c, rfl⟩
  · rfl
  · rw [List.concat_eq_append, Quoting.read_append] at hread
    rw [List.concat_eq_append, blankQuoted_append, blankQuoted_cons, shown_of_next_outside hread]
    simp [blankQuoted]

theorem head?_blankQuoted (text : List Char) :
    (blankQuoted .outside text).head? = text.head? := by
  cases text with
  | nil => rfl
  | cons c text => rfl

theorem next_of_isVisible {c : Char} (h : isVisible c = true) :
    Quoting.outside.next c = .outside := by
  simp only [isVisible, Bool.and_eq_true, Bool.not_eq_true'] at h
  rw [Quoting.next, h.2]
  rfl

theorem blankQuoted_of_visible (h : ∀ c ∈ part, isVisible c = true) (after : List Char) :
    blankQuoted .outside (part ++ after) = part ++ blankQuoted .outside after := by
  induction part with
  | nil => rfl
  | cons c part ih =>
      obtain ⟨hc, hpart⟩ := List.forall_mem_cons.1 h
      rw [List.cons_append, blankQuoted_cons, next_of_isVisible hc, ih hpart]
      rfl

/-- What is visible was not blanked, so it was read outside of quotes. -/
theorem outside_of_isVisible {quoting : Quoting} (hproper : quoting.Proper) {c : Char}
    {rest : List Char} (hc : isVisible c = true) (h : blankQuoted quoting text = c :: rest) :
    quoting = .outside := by
  cases text with
  | nil => simp [blankQuoted] at h
  | cons d text =>
      rw [blankQuoted_cons] at h
      obtain ⟨rfl, -⟩ := List.cons.inj h
      cases quoting with
      | outside => rfl
      | escaped quote => cases hc
      | inside quote =>
          rw [Quoting.shown] at hc
          split at hc
          · cases hc
          · split at hc
            · rename_i heq
              rw [isVisible, heq, show Token.isQuote quote = true from hproper] at hc
              simp at hc
            · cases hc

theorem splits_of_visible (hpart : ∀ c ∈ part, isVisible c = true)
    (h : blankQuoted .outside text = part ++ after) :
    ∃ back, text = part ++ back ∧ blankQuoted .outside back = after := by
  induction part generalizing text with
  | nil => exact ⟨text, rfl, h⟩
  | cons c part ih =>
      obtain ⟨hc, hlater⟩ := List.forall_mem_cons.1 hpart
      cases text with
      | nil => simp [blankQuoted] at h
      | cons d text =>
          rw [blankQuoted_cons, List.cons_append] at h
          obtain ⟨heq, hrest⟩ := List.cons.inj h
          obtain rfl : d = c := heq
          rw [next_of_isVisible hc] at hrest
          obtain ⟨back, rfl, hback⟩ := ih hlater hrest
          exact ⟨back, rfl, hback⟩

/-- What is visible in a blanked text stands in the text itself, behind paired quotes. -/
theorem splits_of_blankQuoted (hne : part ≠ []) (hpart : ∀ c ∈ part, isVisible c = true)
    (h : blankQuoted .outside text = before ++ (part ++ after)) :
    ∃ front back, text = front ++ (part ++ back) ∧ QuotesPaired front ∧
      blankQuoted .outside front = before ∧ blankQuoted .outside back = after := by
  have hlength := congrArg List.length h
  rw [length_blankQuoted, List.length_append] at hlength
  rw [← List.take_append_drop before.length text, blankQuoted_append] at h
  obtain ⟨hfront, hrest⟩ := List.append_inj h (by
    rw [length_blankQuoted, List.length_take]
    omega)
  have hread : Quoting.outside.read (text.take before.length) = .outside := by
    cases part with
    | nil => exact absurd rfl hne
    | cons c part =>
        have hproper : Quoting.outside.Proper := trivial
        exact outside_of_isVisible (hproper.read _) (hpart c List.mem_cons_self) hrest
  rw [hread] at hrest
  obtain ⟨back, hdrop, hback⟩ := splits_of_visible hpart hrest
  refine ⟨text.take before.length, back, ?_, quotesPaired_iff_read.2 hread, hfront, hback⟩
  rw [← hdrop, List.take_append_drop]

/-- Only the neighbours of a part matter, and a blank matters no more than an end of the text. -/
theorem Suspicious.imp {front back : List Char} (h : Suspicious before after part)
    (left : ∀ c ∈ front.getLast?, c ∈ before.getLast? ∨ Text.isBlank c = true)
    (right : ∀ c ∈ back.head?, c ∈ after.head? ∨ Text.isBlank c = true) :
    Suspicious front back part := by
  have hblank : ∀ c, Text.isBlank c = true → c ∉ ['=', '!', '<', '>'] ∧ isWordChar c = false := by
    intro c hc
    refine ⟨fun hmem => ?_, Token.blank_not_nameChar hc⟩
    simp only [List.mem_cons, List.not_mem_nil, or_false] at hmem
    rcases hmem with rfl | rfl | rfl | rfl <;> cases hc
  cases h with
  | sign h => exact .sign h
  | assignment hleft hright =>
      refine .assignment (fun c hc => ?_) (fun c hc => ?_)
      · exact (left c hc).elim (hleft c) fun h => (hblank c h).1
      · refine (right c hc).elim (hright c) fun h hmem => (hblank c h).1 ?_
        simp only [List.mem_cons, List.not_mem_nil, or_false] at hmem ⊢
        exact hmem.elim .inl fun h => .inr (.inr (.inr h))
  | word h hleft hright =>
      refine .word h (fun c hc => ?_) (fun c hc => ?_)
      · exact (left c hc).elim (hleft c) fun h => (hblank c h).2
      · exact (right c hc).elim (hright c) fun h => (hblank c h).2

/-- The screen refuses a text exactly if it is hostile. -/
theorem isSome_screen?_iff_hostile : (screen? text).isSome = true ↔ Hostile text := by
  rw [isSome_screen?_iff]
  constructor
  · rintro ⟨before, part, after, hcode, hpart⟩
    obtain ⟨hne, hvisible⟩ := hpart.visible
    obtain ⟨front, back, rfl, hpaired, rfl, rfl⟩ := splits_of_blankQuoted hne hvisible hcode
    refine ⟨front, part, back, rfl, hpaired, hpart.imp (fun c hc => ?_) (fun c hc => ?_)⟩
    · rw [getLast?_blankQuoted hpaired]
      exact .inl hc
    · rw [head?_blankQuoted]
      exact .inl hc
  · rintro ⟨before, part, after, rfl, hpaired, hpart⟩
    refine ⟨blankQuoted .outside before, part, blankQuoted .outside after, ?_,
      hpart.imp (fun c hc => ?_) (fun c hc => ?_)⟩
    · rw [blankQuoted_append, hpaired.read, blankQuoted_of_visible hpart.visible.2]
    · rw [getLast?_blankQuoted hpaired] at hc
      exact .inl hc
    · rw [head?_blankQuoted] at hc
      exact .inl hc

end Denied

end Parley
