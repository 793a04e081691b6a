import Parley.Redaction

/-!
# Tokens after `bearer`

Masking goes through the words of a text from left to right and knows of the words
in front only whether they announce a token.  So a text can be masked part by part,
and the word after `bearer` leaves no trace if one blank stands between the two.
After more blanks the next word is an empty one, which is not masked and announces
nothing: the token is kept.
-/

set_option autoImplicit false

namespace Parley

namespace Text

/-- Pieces are cut as the library cuts them. -/
theorem splitOn_eq_splitOnP (cut : Char → Bool) (text : List Char) :
    splitOn cut text = text.splitOnP cut := by
  induction text with
  | nil => rfl
  | cons c text ih =>
      rw [splitOn, ih, List.splitOnP_cons_eq_if_modifyHead]
      cases hpieces : text.splitOnP cut with
      | nil => exact absurd hpieces (List.splitOnP_ne_nil cut text)
      | cons piece pieces => rfl

/-- Pieces are joined as the library joins them. -/
theorem joinWith_eq_intercalate (separator : List Char) (pieces : List (List Char)) :
    joinWith separator pieces = separator.intercalate pieces := by
  induction pieces with
  | nil => rfl
  | cons piece pieces ih =>
      cases pieces with
      | nil => simp [joinWith]
      | cons next pieces => simp [joinWith, ih, List.intercalate_cons_cons]

end Text

namespace Redaction

/-! ## Words -/

/-- The words of a text: what stands between blanks. -/
def words (s : String) : List (List Char) :=
  s.toList.splitOn ' '

/-- Words with blanks between them. -/
def unwords (words : List (List Char)) : String :=
  String.ofList ([' '].intercalate words)

theorem words_ne_nil (s : String) : words s ≠ [] :=
  List.splitOn_ne_nil ' ' s.toList

/-- A text without blanks is one word. -/
theorem words_of_word {word : String} (h : ' ' ∉ word.toList) : words word = [word.toList] :=
  List.splitOn_eq_singleton h

theorem words_append (a b : String) : words (a ++ " " ++ b) = words a ++ words b := by
  have htext : (a ++ " " ++ b).toList = a.toList ++ ' ' :: b.toList := by simp
  rw [words, htext, List.splitOn_append_cons_self]
  rfl

theorem unwords_singleton (word : String) : unwords [word.toList] = word := by
  simp [unwords]

theorem unwords_append {a b : List (List Char)} (ha : a ≠ []) (hb : b ≠ []) :
    unwords (a ++ b) = unwords a ++ " " ++ unwords b := by
  induction a with
  | nil => exact absurd rfl ha
  | cons word a ih =>
      cases a with
      | nil =>
          rw [List.singleton_append, unwords, List.intercalate_cons_of_ne_nil hb,
            String.ofList_append, String.ofList_append, unwords, List.intercalate_singleton]
          rfl
      | cons next a =>
          have hrest := ih (List.cons_ne_nil next a)
          simp only [unwords, List.cons_append, List.intercalate_cons_cons, String.ofList_append,
            String.append_assoc] at hrest ⊢
          rw [hrest]

/-! ## Masking part by part -/

/-- Whether the word after some words is a token, if the first of them is one or not as told.  A
word announces the next one if it is `bearer` and no token itself. -/
def announced (first : Bool) (words : List (List Char)) : Bool :=
  words.foldl (fun token word => isBearer word && !token) first

theorem maskWords_cons (token : Bool) (word : List Char) (words : List (List Char)) :
    maskWords token (word :: words) =
      (if token && !word.isEmpty then mask.toList else word) ::
        maskWords (isBearer word && !token) words := by
  cases token with
  | false => simp [maskWords]
  | true =>
      cases word with
      | nil => simp [maskWords, isBearer, Text.asciiLower]
      | cons c word => simp [maskWords]

theorem maskWords_append (token : Bool) (a b : List (List Char)) :
    maskWords token (a ++ b) = maskWords token a ++ maskWords (announced token a) b := by
  induction a generalizing token with
  | nil => rfl
  | cons word a ih =>
      rw [List.cons_append, maskWords_cons, maskWords_cons, ih]
      rfl

theorem maskWords_ne_nil (token : Bool) {words : List (List Char)} (h : words ≠ []) :
    maskWords token words ≠ [] := by
  obtain ⟨word, words, rfl⟩ := List.exists_cons_of_ne_nil h
  rw [maskWords_cons]
  exact List.cons_ne_nil _ _

/-- The text with its tokens masked, if its first word is a token or not as told. -/
def textFrom (token : Bool) (s : String) : String :=
  unwords (maskWords token (words s))

theorem text_eq_textFrom (s : String) : text s = textFrom false s := by
  rw [text, onString, Text.joinWith_eq_intercalate, Text.splitOn_eq_splitOnP]
  rfl

/-- What stands before a blank matters to what stands after it only by what it announces. -/
theorem textFrom_append (token : Bool) (a b : String) :
    textFrom token (a ++ " " ++ b) =
      textFrom token a ++ " " ++ textFrom (announced token (words a)) b := by
  rw [textFrom, words_append, maskWords_append, unwords_append]
  · rfl
  · exact maskWords_ne_nil token (words_ne_nil a)
  · exact maskWords_ne_nil _ (words_ne_nil b)

/-- A blank is kept, and after it no word is a token. -/
theorem textFrom_blank (token : Bool) (s : String) :
    textFrom token (" " ++ s) = " " ++ text s := by
  have hnothing : textFrom token "" = "" ∧ announced token (words "") = false := by
    cases token <;> exact ⟨rfl, rfl⟩
  have happend := textFrom_append token "" s
  rw [hnothing.1, hnothing.2, ← text_eq_textFrom] at happend
  simpa using happend

/-! ## A token and what stands around it -/

/-- So many blanks. -/
def blanks (count : Nat) : String :=
  String.ofList (List.replicate count ' ')

/-- A word that is not empty. -/
structure IsToken (token : String) : Prop where
  nonempty : token ≠ ""
  word : ' ' ∉ token.toList

/-- A word that begins where this text ends is no token of an earlier `bearer`. -/
inductive Unannounced : String → Prop where
  | start : Unannounced ""
  | after (front : String) (h : announced false (words front) = false) :
      Unannounced (front ++ " ")

/-- A word that stands before this text ends there. -/
inductive Closed : String → Prop where
  | finish : Closed ""
  | before (rest : String) : Closed (" " ++ rest)

variable {before word token after : String}

theorem text_of_unannounced (h : Unannounced before) (s : String) :
    text (before ++ s) = text before ++ text s := by
  cases h with
  | start => rw [String.empty_append, show text "" = "" from rfl, String.empty_append]
  | after front hfree =>
      have hsplit : ∀ s, text (front ++ " " ++ s) = text front ++ " " ++ text s := by
        intro s
        rw [text_eq_textFrom, textFrom_append, hfree, ← text_eq_textFrom, ← text_eq_textFrom]
      have hfront := hsplit ""
      rw [show text "" = "" from rfl, String.append_empty, String.append_empty] at hfront
      rw [hsplit, hfront]

theorem blank_notMem_of_isBearer {word : List Char} (h : isBearer word = true) : ' ' ∉ word := by
  intro hblank
  have hlower : Text.asciiLower word = "bearer".toList := of_decide_eq_true h
  have hmem : ' '.toLower ∈ Text.asciiLower word := List.mem_map_of_mem hblank
  rw [hlower] at hmem
  exact absurd hmem (by decide)

/-- A word on its own is no token. -/
theorem textFrom_false_word (hword : ' ' ∉ word.toList) : textFrom false word = word := by
  rw [textFrom, words_of_word hword, maskWords_cons]
  exact unwords_singleton word

/-- `bearer` is kept and announces what follows. -/
theorem text_bearer (h : isBearer word.toList = true) (s : String) :
    text (word ++ " " ++ s) = word ++ " " ++ textFrom true s := by
  have hword := blank_notMem_of_isBearer h
  have hannounces : announced false (words word) = true := by
    rw [words_of_word hword]
    simpa [announced] using h
  rw [text_eq_textFrom, textFrom_append, textFrom_false_word hword, hannounces]

/-- A word that announces nothing leaves what follows it alone. -/
theorem textFrom_word (token : Bool) (hword : ' ' ∉ word.toList)
    (hsilent : (isBearer word.toList && !token) = false) (hafter : Closed after) :
    textFrom token (word ++ after) = textFrom token word ++ text after := by
  cases hafter with
  | finish => rw [show text "" = "" from rfl, String.append_empty, String.append_empty]
  | before rest =>
      have hfree : announced token (words word) = false := by
        rw [words_of_word hword]
        exact hsilent
      rw [← String.append_assoc, textFrom_append, hfree, text_eq_textFrom, textFrom_blank,
        ← text_eq_textFrom, String.append_assoc]

/-- A token is masked, and announces nothing even if it is `bearer`. -/
theorem textFrom_token (htoken : IsToken token) (hafter : Closed after) :
    textFrom true (token ++ after) = mask ++ text after := by
  have hmasked : textFrom true token = mask := by
    rw [textFrom, words_of_word htoken.word, maskWords_cons]
    simpa [htoken.nonempty, maskWords] using unwords_singleton mask
  rw [textFrom_word true htoken.word (by simp) hafter, hmasked]

theorem blanks_succ (count : Nat) : blanks (count + 1) = " " ++ blanks count := by
  rw [blanks, List.replicate_succ]
  exact String.ofList_cons

theorem text_blanks (count : Nat) (s : String) :
    text (blanks count ++ s) = blanks count ++ text s := by
  induction count with
  | zero => simp [blanks]
  | succ count ih =>
      rw [blanks_succ, String.append_assoc, text_eq_textFrom, textFrom_blank, ih,
        String.append_assoc]

/-- After one blank the token is masked. -/
theorem text_of_token (hbefore : Unannounced before) (hword : isBearer word.toList = true)
    (htoken : IsToken token) (hafter : Closed after) :
    text (before ++ word ++ " " ++ token ++ after) =
      text before ++ word ++ " " ++ mask ++ text after := by
  have hrest := text_bearer hword (token ++ after)
  rw [textFrom_token htoken hafter] at hrest
  have hwhole := text_of_unannounced hbefore (word ++ " " ++ (token ++ after))
  rw [hrest] at hwhole
  simpa [String.append_assoc] using hwhole

/-- After more blanks `bearer` is forgotten. -/
theorem text_of_distant (hbefore : Unannounced before) (hword : isBearer word.toList = true)
    (count : Nat) (s : String) :
    text (before ++ word ++ blanks (count + 2) ++ s) =
      text before ++ word ++ blanks (count + 2) ++ text s := by
  have hgap : blanks (count + 2) = " " ++ (" " ++ blanks count) := by
    rw [blanks_succ, blanks_succ]
  have hrest := text_bearer hword (" " ++ (blanks count ++ s))
  rw [textFrom_blank, text_blanks] at hrest
  have hwhole := text_of_unannounced hbefore (word ++ " " ++ (" " ++ (blanks count ++ s)))
  rw [hrest] at hwhole
  rw [hgap]
  simpa only [String.append_assoc] using hwhole

/-- So a word that far away is kept. -/
theorem text_of_plain_distant (hbefore : Unannounced before) (hword : isBearer word.toList = true)
    (count : Nat) {plain : String} (hplain : ' ' ∉ plain.toList)
    (hsilent : isBearer plain.toList = false) (hafter : Closed after) :
    text (before ++ word ++ blanks (count + 2) ++ plain ++ after) =
      text before ++ word ++ blanks (count + 2) ++ plain ++ text after := by
  have hrest := textFrom_word false hplain (by simp [hsilent]) hafter
  rw [textFrom_false_word hplain, ← text_eq_textFrom] at hrest
  rw [String.append_assoc, text_of_distant hbefore hword, hrest, ← String.append_assoc]

/-- What follows `bearer` after one blank is masked whatever it is, and the rest of the text is
masked as it would be without it.  So redaction does not depend on a token exactly if one blank
stands in front of it. -/
theorem bearer_token_masked (hbefore : Unannounced before) (hword : isBearer word.toList = true)
    (hafter : Closed after) :
    (∀ token, IsToken token → text (before ++ word ++ " " ++ token ++ after) =
      text before ++ word ++ " " ++ mask ++ text after) ∧
    ∀ gap, 1 ≤ gap →
      ((∀ token other, IsToken token → IsToken other →
        text (before ++ word ++ blanks gap ++ token ++ after) =
          text (before ++ word ++ blanks gap ++ other ++ after)) ↔ gap = 1) := by
  refine ⟨fun token htoken => text_of_token hbefore hword htoken hafter, ?_⟩
  intro gap hgap
  constructor
  · intro hsame
    match gap, hgap with
    | 1, _ => rfl
    | count + 2, _ =>
        -- two letters that stand so far away are both kept
        have hletters := hsame "a" "b" ⟨by decide, by decide⟩ ⟨by decide, by decide⟩
        rw [text_of_plain_distant hbefore hword count (by decide) (by decide) hafter,
          text_of_plain_distant hbefore hword count (by decide) (by decide) hafter] at hletters
        simpa using congrArg String.toList hletters
  · rintro rfl token other htoken hother
    have hone : blanks 1 = " " := by simp [blanks]
    rw [hone, text_of_token hbefore hword htoken hafter, text_of_token hbefore hword hother hafter]

/-- In a message about a refused request the token is masked, whatever it is. -/
theorem bearer_token_masked_of_message :
    IsToken "abc.def" ∧
      text ("401 with " ++ "Bearer" ++ " " ++ "abc.def" ++ " today") =
        "401 with Bearer [REDACTED] today" := by
  have hbefore : Unannounced "401 with " := .after "401 with" (by decide +kernel)
  have hafter : Closed " today" := .before "today"
  have hword : isBearer "Bearer".toList = true := by decide
  have htoken : IsToken "abc.def" := ⟨by decide, by decide⟩
  obtain ⟨hmasked, -⟩ := bearer_token_masked hbefore hword hafter
  refine ⟨htoken, ?_⟩
  rw [hmasked "abc.def" htoken]
  decide +kernel

/-- A token is kept if two blanks stand in front of it. -/
theorem bearer_token_kept :
    ¬ ∀ (before word after : String) (gap : Nat) (token other : String),
      Unannounced before → isBearer word.toList = true → Closed after → 1 ≤ gap →
      IsToken token → IsToken other →
      text (before ++ word ++ blanks gap ++ token ++ after) =
        text (before ++ word ++ blanks gap ++ other ++ after) := by
  intro hmasked
  have hsame := hmasked "" "Bearer" "" 2 "abc.def" "xyz" .start (by decide) .finish (by decide)
    ⟨by decide, by decide⟩ ⟨by decide, by decide⟩
  exact absurd hsame (by decide +kernel)

end Redaction

end Parley
