import Mathlib
import Parley.Expr.Token

/-!
# How tokens are spelled

`Spelled t text` says that `text` is a spelling of the token `t`; one token has
many spellings.  The scanner agrees with this relation both ways: what it reads
is spelled by the characters that it took, and it reads any spelling back if no
character follows that would continue the token.  So a text that puts the
tokens one after another, with blanks or without, is cut at the same places.
-/

set_option autoImplicit false

namespace Parley

namespace Decimal

theorem digitsOf_ne_nil (n : Nat) : digitsOf n ≠ [] :=
  Nat.toDigits_ne_nil

theorem isDigit_digitsOf (n : Nat) : ∀ c ∈ digitsOf n, c.isDigit = true :=
  fun _ hc => Nat.isDigit_of_mem_toDigits (by decide) (by decide) hc

theorem valueOf_digitsOf (n : Nat) : valueOf (digitsOf n) = n := by
  have back : Nat.ofDigitChars 10 (Nat.toDigits 10 n) 0 = n := Nat.ofDigitChars_ten_toDigits
  rw [Nat.ofDigitChars_eq_foldl] at back
  exact back

end Decimal

namespace Text

variable {c : Char}

/-- Blanks are no visible characters of ASCII. -/
theorem isBlank_of_visible (low : 0x21 ≤ c.toNat) (high : c.toNat ≤ 0x7E) : isBlank c = false := by
  simp only [isBlank, blankRanges, List.any_cons, List.any_nil, Bool.or_false, Bool.or_eq_false_iff,
    Bool.and_eq_false_iff, decide_eq_false_iff_not]
  omega

theorem isBlank_of_isSpace (h : Token.isSpace c = true) : isBlank c = true := by
  simp only [Token.isSpace, Bool.or_eq_true, decide_eq_true_eq] at h
  rcases h with ((rfl | rfl) | rfl) | rfl <;> rfl

end Text

namespace Token

/-! ## Names, strings and digits -/

/-- The characters form a name. -/
def isName : List Char → Bool
  | [] => false
  | c :: text => isNameStart c && text.all isNameChar

/-- `QuotedAs quote written meant`: between two `quote`s, `written` stands for the string `meant`. -/
inductive QuotedAs (quote : Char) : List Char → List Char → Prop
  | nil : QuotedAs quote [] []
  | plain (c : Char) {written meant : List Char} (h : c ≠ quote) (h' : c ≠ '\\')
      (rest : QuotedAs quote written meant) : QuotedAs quote (c :: written) (c :: meant)
  | escaped (c : Char) {written meant : List Char} (rest : QuotedAs quote written meant) :
      QuotedAs quote ('\\' :: c :: written) (unescape c :: meant)

/-- The text does not begin with a character that satisfies `p`. -/
def StopsAt (p : Char → Bool) (text : List Char) : Prop :=
  ∀ c ∈ text.head?, p c = false

@[simp] theorem stopsAt_nil (p : Char → Bool) : StopsAt p [] := by
  simp [StopsAt]

@[simp] theorem stopsAt_cons (p : Char → Bool) (c : Char) (text : List Char) :
    StopsAt p (c :: text) ↔ p c = false := by
  simp [StopsAt]

theorem StopsAt.imp {p q : Char → Bool} {text : List Char} (h : StopsAt p text)
    (weaker : ∀ c, q c = true → p c = true) : StopsAt q text := by
  intro c hc
  have hp := h c hc
  by_contra hq
  rw [weaker c (by simpa using hq)] at hp
  exact Bool.noConfusion hp

theorem takeWhile_spelled {p : Char → Bool} {used rest : List Char} (h : ∀ c ∈ used, p c = true)
    (stops : StopsAt p rest) : (used ++ rest).takeWhile p = used := by
  rw [List.takeWhile_append_of_pos h]
  cases rest with
  | nil => simp
  | cons c rest => simp_all

theorem dropWhile_spelled {p : Char → Bool} {used rest : List Char} (h : ∀ c ∈ used, p c = true)
    (stops : StopsAt p rest) : (used ++ rest).dropWhile p = rest := by
  rw [List.dropWhile_append_of_pos h]
  cases rest with
  | nil => simp
  | cons c rest => simp_all

theorem stopsAt_dropWhile (p : Char → Bool) (text : List Char) : StopsAt p (text.dropWhile p) := by
  intro c hc
  have h := List.head?_dropWhile_not p text
  rw [hc] at h
  simpa using h

theorem name?_of_isName {used rest : List Char} (h : isName used = true)
    (stops : StopsAt isNameChar rest) : name? (used ++ rest) = some (String.ofList used, rest) := by
  cases used with
  | nil => simp [isName] at h
  | cons c used =>
    simp only [isName, Bool.and_eq_true, List.all_eq_true] at h
    simp only [List.cons_append, name?, h.1, if_true]
    rw [takeWhile_spelled h.2 stops, dropWhile_spelled h.2 stops]

theorem isName_of_name? {text rest : List Char} {name : String} (h : name? text = some (name, rest)) :
    ∃ used, text = used ++ rest ∧ isName used = true ∧ name = String.ofList used := by
  cases text with
  | nil => simp [name?] at h
  | cons c text =>
    simp only [name?] at h
    split at h
    · rename_i start
      simp only [Option.some.injEq, Prod.mk.injEq] at h
      obtain ⟨rfl, rfl⟩ := h
      refine ⟨c :: text.takeWhile isNameChar, ?_, ?_, rfl⟩
      · simp
      · simp only [isName, start, Bool.true_and, List.all_eq_true]
        intro d hd
        exact List.mem_takeWhile_imp hd
    · simp at h

theorem quotedBody?_cons {quote c : Char} {text : List Char} (h : c ≠ quote) (h' : c ≠ '\\') :
    quotedBody? quote (c :: text) =
      (quotedBody? quote text).map fun (body, rest) => (c :: body, rest) := by
  simp [quotedBody?, h, h']

theorem quotedBody?_of_quotedAs {quote : Char} {written meant rest : List Char}
    (h : QuotedAs quote written meant) (notEscape : quote ≠ '\\') :
    quotedBody? quote (written ++ quote :: rest) = some (meant, rest) := by
  induction h with
  | nil => simp [quotedBody?, notEscape]
  | plain c h h' _ ih =>
    rw [List.cons_append, quotedBody?_cons h h', ih]
    rfl
  | escaped c _ ih => simp [quotedBody?, ih]

theorem quotedAs_of_quotedBody? {quote : Char} {text meant rest : List Char}
    (h : quotedBody? quote text = some (meant, rest)) :
    ∃ written, text = written ++ quote :: rest ∧ QuotedAs quote written meant := by
  fun_induction quotedBody? quote text generalizing meant with
  | case1 c text ih =>
    obtain ⟨⟨body, after⟩, read, same⟩ := Option.map_eq_some_iff.mp h
    obtain ⟨rfl, rfl⟩ := Prod.mk.inj same
    obtain ⟨written, rfl, spelled⟩ := ih read
    exact ⟨'\\' :: c :: written, rfl, .escaped c spelled⟩
  | case2 text =>
    obtain ⟨rfl, rfl⟩ := Prod.mk.inj (Option.some.inj h)
    exact ⟨[], rfl, .nil⟩
  | case3 => simp at h
  | case4 c text _ other plain ih =>
    obtain ⟨⟨body, after⟩, read, same⟩ := Option.map_eq_some_iff.mp h
    obtain ⟨rfl, rfl⟩ := Prod.mk.inj same
    obtain ⟨written, rfl, spelled⟩ := ih read
    exact ⟨c :: written, rfl, .plain c other plain spelled⟩
  | case5 => simp at h

/-- A character that may enclose a string. -/
def isQuote (c : Char) : Bool :=
  c = '"' || c = '\''

theorem quoted?_of_quotedAs {quote : Char} {written meant : List Char}
    (h : QuotedAs quote written meant) (isQuoted : isQuote quote = true) (rest : List Char) :
    quoted? (quote :: (written ++ quote :: rest)) = some (String.ofList meant, rest) := by
  have notEscape : quote ≠ '\\' := by
    rintro rfl
    simp [isQuote] at isQuoted
  simp only [quoted?, isQuote] at isQuoted ⊢
  rw [if_pos isQuoted, quotedBody?_of_quotedAs h notEscape]
  rfl

theorem quotedAs_of_quoted? {text rest : List Char} {s : String} (h : quoted? text = some (s, rest)) :
    ∃ quote written meant, text = quote :: (written ++ quote :: rest) ∧ isQuote quote = true ∧
      QuotedAs quote written meant ∧ s = String.ofList meant := by
  cases text with
  | nil => simp [quoted?] at h
  | cons quote text =>
    simp only [quoted?] at h
    split at h
    · rename_i isQuoted
      obtain ⟨⟨meant, after⟩, read, same⟩ := Option.map_eq_some_iff.mp h
      obtain ⟨rfl, rfl⟩ := Prod.mk.inj same
      obtain ⟨written, rfl, spelled⟩ := quotedAs_of_quotedBody? read
      exact ⟨quote, written, meant, rfl, isQuoted, spelled, rfl⟩
    · simp at h

theorem quoted?_eq_none {c : Char} {text : List Char} (h : isQuote c = false) :
    quoted? (c :: text) = none := by
  simp only [isQuote] at h
  simp [quoted?, h]

end Token

/-! ## Paths -/

/-- The characters are a spelling of one step of a path. -/
inductive Segment.Spelled : Segment → List Char → Prop
  | dotted {name : List Char} (h : Token.isName name = true) :
      Spelled (.key (String.ofList name)) ('.' :: name)
  | quoted {quote : Char} {written meant : List Char} (h : Token.isQuote quote = true)
      (body : Token.QuotedAs quote written meant) :
      Spelled (.key (String.ofList meant)) ('[' :: quote :: (written ++ [quote, ']']))
  | numbered {digits : List Char} (h : digits ≠ []) (h' : ∀ c ∈ digits, c.isDigit = true) :
      Spelled (.index (Decimal.valueOf digits)) ('[' :: (digits ++ [']']))

theorem Segment.Spelled.head {segment : Segment} {used : List Char} (h : segment.Spelled used) :
    ∃ text, used = '.' :: text ∨ used = '[' :: text := by
  cases h with
  | dotted => exact ⟨_, .inl rfl⟩
  | quoted => exact ⟨_, .inr rfl⟩
  | numbered => exact ⟨_, .inr rfl⟩

/-- The characters are a spelling of the steps, one after another. -/
inductive Segment.AllSpelled : List Segment → List Char → Prop
  | nil : AllSpelled [] []
  | cons {segment : Segment} {segments : List Segment} {used used' : List Char}
      (head : segment.Spelled used) (tail : AllSpelled segments used') :
      AllSpelled (segment :: segments) (used ++ used')

theorem Segment.AllSpelled.length_le {segments : List Segment} {used : List Char}
    (h : AllSpelled segments used) : segments.length ≤ used.length := by
  induction h with
  | nil => simp
  | cons head _ ih =>
    obtain ⟨text, rfl | rfl⟩ := head.head <;> simp <;> omega

namespace Token

/-- A character that would continue a word that it follows. -/
def continuesWord (c : Char) : Bool :=
  isNameChar c || c = '.' || c = '['

theorem stopsName {text : List Char} (h : StopsAt continuesWord text) : StopsAt isNameChar text :=
  h.imp fun c hc => by simp [continuesWord, hc]

theorem isQuote_of_isDigit {c : Char} (h : c.isDigit = true) : isQuote c = false := by
  by_contra hq
  simp only [isQuote, Bool.not_eq_false, Bool.or_eq_true, decide_eq_true_eq] at hq
  rcases hq with rfl | rfl <;> simp at h

theorem segment?_of_spelled {segment : Segment} {used rest : List Char} (h : segment.Spelled used)
    (stops : StopsAt isNameChar rest) : segment? (used ++ rest) = some (segment, rest) := by
  cases h with
  | dotted h => simp [segment?, name?_of_isName h stops]
  | quoted h body =>
    have read := quoted?_of_quotedAs body h (']' :: rest)
    simp only [List.cons_append, List.append_assoc, List.nil_append, segment?, read]
  | @numbered digits h h' =>
    have stop : StopsAt Char.isDigit (']' :: rest) := by simp
    have unquoted : quoted? (digits ++ ']' :: rest) = none := by
      cases digits with
      | nil => exact absurd rfl h
      | cons c digits => exact quoted?_eq_none (isQuote_of_isDigit (h' c (by simp)))
    simp only [List.cons_append, List.append_assoc, List.nil_append, segment?]
    rw [unquoted, dropWhile_spelled h' stop, takeWhile_spelled h' stop]
    simp [h]

theorem spelled_of_segment? {text rest : List Char} {segment : Segment}
    (h : segment? text = some (segment, rest)) :
    ∃ used, text = used ++ rest ∧ segment.Spelled used := by
  unfold segment? at h
  split at h
  · obtain ⟨⟨name, after⟩, read, same⟩ := Option.map_eq_some_iff.mp h
    obtain ⟨rfl, rfl⟩ := Prod.mk.inj same
    obtain ⟨used, rfl, isName, rfl⟩ := isName_of_name? read
    exact ⟨'.' :: used, rfl, .dotted isName⟩
  · rename_i text
    split at h
    · rename_i name after read
      obtain ⟨rfl, rfl⟩ := Prod.mk.inj (Option.some.inj h)
      obtain ⟨quote, written, meant, rfl, isQuoted, spelled, rfl⟩ := quotedAs_of_quoted? read
      exact ⟨_, by simp, .quoted isQuoted spelled⟩
    · simp at h
    · simp only at h
      split at h
      · rename_i after closed
        split at h
        · simp at h
        · rename_i some_digits
          obtain ⟨rfl, rfl⟩ := Prod.mk.inj (Option.some.inj h)
          refine ⟨'[' :: (text.takeWhile Char.isDigit ++ [']']), ?_, .numbered ?_ ?_⟩
          · have whole := List.takeWhile_append_dropWhile (p := Char.isDigit) (l := text)
            rw [closed] at whole
            simp [whole]
          · simpa using some_digits
          · intro c hc
            exact List.mem_takeWhile_imp hc
      · simp at h
  · simp at h

theorem segments?_succ_of_read {n : Nat} {text rest : List Char} {segment : Segment}
    (h : segment? text = some (segment, rest)) :
    segments? (n + 1) text =
      (segments? n rest).map fun (segments, rest) => (segment :: segments, rest) := by
  have head : ∃ tail, text = '.' :: tail ∨ text = '[' :: tail := by
    unfold segment? at h
    split at h
    · exact ⟨_, .inl rfl⟩
    · exact ⟨_, .inr rfl⟩
    · simp at h
  obtain ⟨tail, rfl | rfl⟩ := head <;> simp only [segments?, h]

theorem segments?_of_stops {n : Nat} {text : List Char} (h : StopsAt continuesWord text) :
    segments? n text = some ([], text) := by
  cases n with
  | zero => rfl
  | succ n =>
    cases text with
    | nil => rfl
    | cons c text =>
      simp only [stopsAt_cons, continuesWord, Bool.or_eq_false_iff, decide_eq_false_iff_not] at h
      unfold segments?
      split
      · simp_all
      · simp_all
      · rfl

theorem segments?_of_allSpelled {segments : List Segment} {used rest : List Char}
    (h : Segment.AllSpelled segments used) (stops : StopsAt continuesWord rest) :
    ∀ n, segments.length ≤ n → segments? n (used ++ rest) = some (segments, rest) := by
  induction h with
  | nil =>
    intro n _
    exact segments?_of_stops stops
  | @cons segment segments used used' head tail ih =>
    intro n enough
    obtain ⟨m, rfl⟩ : ∃ m, n = m + 1 := ⟨n - 1, by simp at enough; omega⟩
    have stop : StopsAt isNameChar (used' ++ rest) := by
      cases tail with
      | nil => exact stopsName stops
      | cons next _ =>
        obtain ⟨text, rfl | rfl⟩ := next.head <;> simp [isNameChar]
    have read := segment?_of_spelled head stop
    rw [List.append_assoc, segments?_succ_of_read read, ih m (by simpa using enough)]
    rfl

theorem allSpelled_of_segments? {n : Nat} {text rest : List Char} {segments : List Segment}
    (h : segments? n text = some (segments, rest)) :
    ∃ used, text = used ++ rest ∧ Segment.AllSpelled segments used := by
  induction n generalizing text segments with
  | zero =>
    obtain ⟨rfl, rfl⟩ := Prod.mk.inj (Option.some.inj h)
    exact ⟨[], rfl, .nil⟩
  | succ n ih =>
    unfold segments? at h
    split at h
    case h_3 =>
      obtain ⟨rfl, rfl⟩ := Prod.mk.inj (Option.some.inj h)
      exact ⟨[], rfl, .nil⟩
    all_goals
      split at h
      · simp at h
      · rename_i segment after read
        obtain ⟨⟨others, after'⟩, readOthers, same⟩ := Option.map_eq_some_iff.mp h
        obtain ⟨rfl, rfl⟩ := Prod.mk.inj same
        obtain ⟨used, text_eq, spelled⟩ := spelled_of_segment? read
        obtain ⟨used', rfl, spelledOthers⟩ := ih readOthers
        exact ⟨used ++ used', by simp [text_eq], .cons spelled spelledOthers⟩

/-! ## Numbers and signs -/

/-- The value of the digits before a point and of those after it. -/
def decimalValue (whole fraction : List Char) : Json :=
  Json.ofFloat (Decimal.nearest (Decimal.valueOf (whole ++ fraction)) (-(fraction.length : Int)))

/-- The characters of a token that is no word, number or string. -/
def sign : Token → List Char
  | .op binary => binary.symbol.toList
  | .bang => ['!']
  | .both => ['&', '&']
  | .either => ['|', '|']
  | .question => ['?']
  | .colon => [':']
  | .opening => ['(']
  | .closing => [')']
  | .comma => [',']
  | .lit _ | .path _ _ _ => []

/-- The token is an operand by itself. -/
def isOperand : Token → Bool
  | .lit _ | .path _ _ _ => true
  | _ => false

/-- The character would continue the token if it followed at once. -/
def continues : Token → Char → Bool
  | .lit _, c | .path _ _ _, c => continuesWord c
  | .op _, c | .bang, c => c = '='
  | _, _ => false

/-- The characters are a spelling of the token. -/
inductive Spelled : Token → List Char → Prop
  | whole {digits : List Char} (h : digits ≠ []) (h' : ∀ c ∈ digits, c.isDigit = true) :
      Spelled (.lit (decimalValue digits [])) digits
  | fractional {digits fraction : List Char} (h : digits ≠ [])
      (h' : ∀ c ∈ digits, c.isDigit = true) (hf : fraction ≠ [])
      (hf' : ∀ c ∈ fraction, c.isDigit = true) :
      Spelled (.lit (decimalValue digits fraction)) (digits ++ '.' :: fraction)
  | quoted {quote : Char} {written meant : List Char} (h : isQuote quote = true)
      (body : QuotedAs quote written meant) :
      Spelled (.lit (.str (String.ofList meant))) (quote :: (written ++ [quote]))
  | reserved {name : List Char} {value : Json} (h : isName name = true)
      (h' : reserved? (String.ofList name) = some value) : Spelled (.lit value) name
  | path {name used : List Char} {segments : List Segment} (h : isName name = true)
      (h' : reserved? (String.ofList name) = none) (steps : Segment.AllSpelled segments used) :
      Spelled (.path (String.ofList (name ++ used)) (String.ofList name) segments) (name ++ used)
  | sign {t : Token} (h : t.isOperand = false) : Spelled t t.sign

theorem number_whole {digits rest : List Char} (h : ∀ c ∈ digits, c.isDigit = true)
    (stops : StopsAt continuesWord rest) :
    number (digits ++ rest) = (.lit (decimalValue digits []), rest) := by
  have stop : StopsAt Char.isDigit rest :=
    stops.imp fun c hc => by simp [continuesWord, isNameChar, Char.isAlphanum, hc]
  simp only [number, takeWhile_spelled h stop, dropWhile_spelled h stop]
  cases rest with
  | nil => rfl
  | cons c rest =>
    have notPoint : c ≠ '.' := by
      rintro rfl
      simp [continuesWord] at stops
    split
    · simp_all
    · rfl

theorem number_fractional {digits fraction rest : List Char} (h : ∀ c ∈ digits, c.isDigit = true)
    (hf : fraction ≠ []) (hf' : ∀ c ∈ fraction, c.isDigit = true)
    (stops : StopsAt continuesWord rest) :
    number (digits ++ '.' :: fraction ++ rest) = (.lit (decimalValue digits fraction), rest) := by
  have stop : StopsAt Char.isDigit rest :=
    stops.imp fun c hc => by simp [continuesWord, isNameChar, Char.isAlphanum, hc]
  have taken := takeWhile_spelled hf' stop
  have left := dropWhile_spelled hf' stop
  obtain ⟨c, others, rfl⟩ := List.exists_cons_of_ne_nil hf
  have first : c.isDigit = true := hf' c (by simp)
  have stop' : StopsAt Char.isDigit ('.' :: c :: (others ++ rest)) := by simp
  rw [List.append_assoc, List.cons_append, List.cons_append]
  rw [List.cons_append] at taken left
  simp only [number, takeWhile_spelled h stop', dropWhile_spelled h stop', first, if_true,
    Decimal.fractionPart, taken, left]
  rfl

theorem spelled_of_number {c : Char} {text rest : List Char} {t : Token} (start : c.isDigit = true)
    (h : number (c :: text) = (t, rest)) : ∃ used, c :: text = used ++ rest ∧ t.Spelled used := by
  generalize whole_eq : c :: text = source at h ⊢
  have some_digits : source.takeWhile Char.isDigit ≠ [] := by
    subst whole_eq
    simp [start]
  have digits : ∀ d ∈ source.takeWhile Char.isDigit, d.isDigit = true :=
    fun d hd => List.mem_takeWhile_imp hd
  have parts := List.takeWhile_append_dropWhile (p := Char.isDigit) (l := source)
  have plain : (.lit (decimalValue (source.takeWhile Char.isDigit) []),
      source.dropWhile Char.isDigit) = (t, rest) → ∃ used, source = used ++ rest ∧ t.Spelled used := by
    intro same
    obtain ⟨rfl, rfl⟩ := Prod.mk.inj same
    exact ⟨_, parts.symm, .whole some_digits digits⟩
  simp only [number] at h
  split at h
  · rename_i d after point
    split at h
    · rename_i first
      simp only [point, Decimal.fractionPart] at h
      obtain ⟨rfl, rfl⟩ := Prod.mk.inj h
      refine ⟨_, ?_, .fractional some_digits digits ?_ fun e he => List.mem_takeWhile_imp he⟩
      · rw [List.append_assoc, List.cons_append, List.takeWhile_append_dropWhile, ← point, parts]
      · simp [first]
    · exact plain h
  · exact plain h

theorem sign?_of_sign {t : Token} {rest : List Char} (h : t.isOperand = false)
    (stops : StopsAt t.continues rest) : sign? (t.sign ++ rest) = some (t, rest) := by
  cases t with
  | lit => simp [isOperand] at h
  | path => simp [isOperand] at h
  | op binary =>
    cases rest with
    | nil => cases binary <;> rfl
    | cons c rest =>
      have notEqual : c ≠ '=' := by simpa [continues] using stops
      cases binary <;> simp [sign, BinaryOp.symbol, sign?, notEqual]
  | bang =>
    cases rest with
    | nil => rfl
    | cons c rest =>
      have notEqual : c ≠ '=' := by simpa [continues] using stops
      simp [sign, sign?, notEqual]
  | _ => rfl

theorem sign_of_sign? {t : Token} {text rest : List Char} (h : sign? text = some (t, rest)) :
    text = t.sign ++ rest ∧ t.isOperand = false := by
  unfold sign? at h
  split at h <;> simp only [Option.some.injEq, Prod.mk.injEq, reduceCtorEq] at h <;>
    obtain ⟨rfl, rfl⟩ := h <;> exact ⟨rfl, rfl⟩

/-! ## Words and tokens -/

theorem notDigit_of_isNameStart {c : Char} (h : isNameStart c = true) : c.isDigit = false := by
  by_contra digit
  simp only [isNameStart, Bool.or_eq_true, decide_eq_true_eq] at h
  rcases h with (letter | rfl) | rfl
  · simp only [Char.isAlpha, Char.isUpper, Char.isLower, Char.isDigit, Bool.or_eq_true,
      Bool.and_eq_true, Bool.not_eq_false, decide_eq_true_eq, UInt32.le_iff_toNat_le, ge_iff_le]
      at letter digit
    have nine : '9'.val.toNat = 57 := rfl
    have upper : 'A'.val.toNat = 65 := rfl
    have lower : 'a'.val.toNat = 97 := rfl
    omega
  · simp at digit
  · simp at digit

theorem notQuote_of_isNameStart {c : Char} (h : isNameStart c = true) : isQuote c = false := by
  by_contra quoted
  simp only [isQuote, Bool.not_eq_false, Bool.or_eq_true, decide_eq_true_eq] at quoted
  rcases quoted with rfl | rfl <;> simp [isNameStart] at h

theorem isName_head {text : List Char} (h : isName text = true) :
    ∃ c rest, text = c :: rest ∧ isNameStart c = true := by
  cases text with
  | nil => simp [isName] at h
  | cons c rest => exact ⟨c, rest, rfl, (Bool.and_eq_true _ _ ▸ h).1⟩

theorem word?_reserved {name rest : List Char} {value : Json} (h : isName name = true)
    (h' : reserved? (String.ofList name) = some value) (stops : StopsAt isNameChar rest) :
    word? (name ++ rest) = some (.lit value, rest) := by
  simp only [word?, name?_of_isName h stops, h']

theorem take_used (used rest : List Char) :
    (used ++ rest).take ((used ++ rest).length - rest.length) = used := by
  simp

theorem word?_path {name used rest : List Char} {segments : List Segment} (h : isName name = true)
    (h' : reserved? (String.ofList name) = none) (steps : Segment.AllSpelled segments used)
    (stops : StopsAt continuesWord rest) :
    word? (name ++ used ++ rest) =
      some (.path (String.ofList (name ++ used)) (String.ofList name) segments, rest) := by
  have stop : StopsAt isNameChar (used ++ rest) := by
    cases steps with
    | nil => exact stopsName stops
    | cons next _ => obtain ⟨text, rfl | rfl⟩ := next.head <;> simp [isNameChar]
  have enough : segments.length ≤ (used ++ rest).length := by
    have := steps.length_le
    rw [List.length_append]
    omega
  have source := take_used (name ++ used) rest
  rw [List.append_assoc] at source ⊢
  simp only [word?, name?_of_isName h stop, h', segments?_of_allSpelled steps stops _ enough,
    Option.map_some, source]

theorem spelled_of_word? {text rest : List Char} {t : Token} (h : word? text = some (t, rest)) :
    ∃ used, text = used ++ rest ∧ t.Spelled used := by
  unfold word? at h
  split at h
  · simp at h
  · rename_i root after read
    obtain ⟨name, rfl, isName, rfl⟩ := isName_of_name? read
    split at h
    · rename_i value known
      obtain ⟨rfl, rfl⟩ := Prod.mk.inj (Option.some.inj h)
      exact ⟨name, rfl, .reserved isName known⟩
    · rename_i free
      obtain ⟨⟨segments, rest'⟩, steps, same⟩ := Option.map_eq_some_iff.mp h
      obtain ⟨rfl, rfl⟩ := Prod.mk.inj same
      obtain ⟨used, rfl, spelled⟩ := allSpelled_of_segments? steps
      rw [← List.append_assoc, take_used]
      exact ⟨name ++ used, by simp, .path isName free spelled⟩

theorem next?_sign {t : Token} (h : t.isOperand = false) (rest : List Char) :
    next? (t.sign ++ rest) = sign? (t.sign ++ rest) := by
  cases t with
  | lit => simp [isOperand] at h
  | path => simp [isOperand] at h
  | op binary => cases binary <;> rfl
  | _ => rfl

theorem decimalValue_scalar (whole fraction : List Char) :
    decimalValue whole fraction = .null ∨ ∃ n, decimalValue whole fraction = .num n := by
  unfold decimalValue Json.ofFloat
  repeat' split
  all_goals simp [Json.int]

/-- A literal is no list and no object. -/
theorem scalar_of_spelled {value : Json} {used : List Char} (h : Spelled (.lit value) used) :
    value = .null ∨ (∃ b, value = .bool b) ∨ (∃ n, value = .num n) ∨ ∃ s, value = .str s := by
  generalize literal : Token.lit value = t at h
  cases h with
  | whole =>
    obtain rfl := Token.lit.inj literal
    exact (decimalValue_scalar _ _).imp_right fun h => .inr (.inl h)
  | fractional =>
    obtain rfl := Token.lit.inj literal
    exact (decimalValue_scalar _ _).imp_right fun h => .inr (.inl h)
  | quoted =>
    obtain rfl := Token.lit.inj literal
    exact .inr (.inr (.inr ⟨_, rfl⟩))
  | reserved _ known =>
    obtain rfl := Token.lit.inj literal
    unfold reserved? at known
    repeat' split at known
    all_goals simp_all
  | path => cases literal
  | sign plain =>
    rw [← literal] at plain
    simp [isOperand] at plain

/-- The scanner reads every spelling back, unless what follows continues the token. -/
theorem next?_of_spelled {t : Token} {used rest : List Char} (h : t.Spelled used)
    (stops : StopsAt t.continues rest) : next? (used ++ rest) = some (t, rest) := by
  cases h with
  | whole h h' =>
    obtain ⟨c, others, rfl⟩ := List.exists_cons_of_ne_nil h
    have read := number_whole h' stops
    rw [List.cons_append] at read ⊢
    simp only [next?, h' c (by simp), if_true, read]
  | @fractional digits fraction h h' hf hf' =>
    obtain ⟨c, others, rfl⟩ := List.exists_cons_of_ne_nil h
    have read := number_fractional h' hf hf' stops
    rw [List.cons_append, List.cons_append] at read ⊢
    simp only [next?, h' c (by simp), if_true, read]
  | @quoted quote written meant h body =>
    have read := quoted?_of_quotedAs body h rest
    have notDigit : quote.isDigit = false := by
      by_contra digit
      rw [isQuote_of_isDigit (by simpa using digit)] at h
      exact Bool.noConfusion h
    simp only [isQuote] at h
    simp only [List.cons_append, List.append_assoc, List.nil_append, next?, notDigit, h, read]
    rfl
  | @reserved name value h h' =>
    obtain ⟨c, others, rfl, start⟩ := isName_head h
    have read := word?_reserved h h' (stopsName stops)
    have notQuote := notQuote_of_isNameStart start
    simp only [isQuote] at notQuote
    -- What begins as a name is neither a number nor a string.
    simp [next?, notDigit_of_isNameStart start, notQuote, start] at read ⊢
    exact read
  | @path name used segments h h' steps =>
    have read := word?_path h h' steps stops
    obtain ⟨c, others, rfl, start⟩ := isName_head h
    have notQuote := notQuote_of_isNameStart start
    simp only [isQuote] at notQuote
    simp [next?, notDigit_of_isNameStart start, notQuote, start] at read ⊢
    exact read
  | sign h =>
    rw [← sign?_of_sign h stops]
    exact next?_sign h rest

/-- What the scanner reads is spelled by the characters that it took. -/
theorem spelled_of_next? {text rest : List Char} {t : Token} (h : next? text = some (t, rest)) :
    ∃ used, text = used ++ rest ∧ t.Spelled used := by
  cases text with
  | nil => simp [next?] at h
  | cons c text =>
    simp only [next?] at h
    split at h
    · rename_i digit
      exact spelled_of_number digit (Option.some.inj h)
    split at h
    · obtain ⟨⟨body, after⟩, read, same⟩ := Option.map_eq_some_iff.mp h
      obtain ⟨rfl, rfl⟩ := Prod.mk.inj same
      obtain ⟨quote, written, meant, text_eq, isQuoted, spelled, rfl⟩ := quotedAs_of_quoted? read
      exact ⟨_, by simp [text_eq], .quoted isQuoted spelled⟩
    split at h
    · exact spelled_of_word? h
    · obtain ⟨text_eq, plain⟩ := sign_of_sign? h
      exact ⟨t.sign, text_eq, .sign plain⟩

/-! ## Whole texts -/

/-- The pieces in order, with any number of blanks before, between and after them. -/
inductive Spaced : List (List Char) → List Char → Prop
  | nil : Spaced [] []
  | blank {pieces : List (List Char)} {text : List Char} (c : Char) (h : isSpace c = true)
      (rest : Spaced pieces text) : Spaced pieces (c :: text)
  | piece {pieces : List (List Char)} {text : List Char} (first : List Char)
      (rest : Spaced pieces text) : Spaced (first :: pieces) (first ++ text)

theorem Spaced.apart (pieces : List (List Char)) :
    Spaced pieces (pieces.flatMap fun piece => ' ' :: piece) := by
  induction pieces with
  | nil => exact .nil
  | cons piece pieces ih => exact .blank ' ' rfl (.piece piece ih)

/-- No spelling of the second token continues the first one. -/
def Adjoins (t t' : Token) : Prop :=
  ∀ used rest, t'.Spelled used → StopsAt t.continues (used ++ rest)

theorem continues_of_isSpace (t : Token) {c : Char} (h : isSpace c = true) :
    t.continues c = false := by
  simp only [isSpace, Bool.or_eq_true, decide_eq_true_eq] at h
  rcases h with ((rfl | rfl) | rfl) | rfl <;> cases t <;> rfl

/-- The first character of a number, string or word. -/
def opensOperand (c : Char) : Bool :=
  c.isDigit || isQuote c || isNameStart c

theorem Spelled.head_of_isOperand {t : Token} {used : List Char} (h : t.Spelled used)
    (operand : t.isOperand = true) : ∃ c text, used = c :: text ∧ opensOperand c = true := by
  cases h with
  | whole h h' =>
    obtain ⟨c, others, rfl⟩ := List.exists_cons_of_ne_nil h
    exact ⟨c, others, rfl, by simp [opensOperand, h' c (by simp)]⟩
  | @fractional digits fraction h h' _ _ =>
    obtain ⟨c, others, rfl⟩ := List.exists_cons_of_ne_nil h
    exact ⟨c, _, rfl, by simp [opensOperand, h' c (by simp)]⟩
  | @quoted quote _ _ h _ => exact ⟨quote, _, rfl, by simp [opensOperand, h]⟩
  | reserved h _ =>
    obtain ⟨c, others, rfl, start⟩ := isName_head h
    exact ⟨c, others, rfl, by simp [opensOperand, start]⟩
  | path h _ _ =>
    obtain ⟨c, others, rfl, start⟩ := isName_head h
    exact ⟨c, _, rfl, by simp [opensOperand, start]⟩
  | sign h =>
    rw [h] at operand
    exact Bool.noConfusion operand

theorem Spelled.eq_sign {t : Token} {used : List Char} (h : t.Spelled used)
    (plain : t.isOperand = false) : used = t.sign := by
  cases h with
  | sign => rfl
  | _ => simp [isOperand] at plain

theorem visible_of_isNameChar {c : Char} (h : isNameChar c = true) : Text.isBlank c = false := by
  simp only [isNameChar, Bool.or_eq_true, decide_eq_true_eq] at h
  rcases h with (letter | rfl) | rfl
  · simp only [Char.isAlphanum, Char.isAlpha, Char.isUpper, Char.isLower, Char.isDigit,
      Bool.or_eq_true, Bool.and_eq_true, decide_eq_true_eq, UInt32.le_iff_toNat_le, ge_iff_le]
      at letter
    have value : c.val.toNat = c.toNat := rfl
    have nine : '9'.val.toNat = 57 := rfl
    have zero : '0'.val.toNat = 48 := rfl
    have upperA : 'A'.val.toNat = 65 := rfl
    have upperZ : 'Z'.val.toNat = 90 := rfl
    have lowerA : 'a'.val.toNat = 97 := rfl
    have lowerZ : 'z'.val.toNat = 122 := rfl
    apply Text.isBlank_of_visible <;> omega
  · rfl
  · rfl

theorem visible_of_isDigit {c : Char} (h : c.isDigit = true) : Text.isBlank c = false :=
  visible_of_isNameChar (by simp [isNameChar, Char.isAlphanum, h])

theorem isNameChar_of_isNameStart {c : Char} (h : isNameStart c = true) : isNameChar c = true := by
  simp only [isNameStart, Bool.or_eq_true, decide_eq_true_eq] at h
  simp only [isNameChar, Char.isAlphanum, Bool.or_eq_true, decide_eq_true_eq]
  tauto

theorem visible_of_opensOperand {c : Char} (h : opensOperand c = true) : Text.isBlank c = false := by
  simp only [opensOperand, Bool.or_eq_true] at h
  rcases h with (digit | quote) | start
  · exact visible_of_isDigit digit
  · simp only [isQuote, Bool.or_eq_true, decide_eq_true_eq] at quote
    rcases quote with rfl | rfl <;> rfl
  · exact visible_of_isNameChar (isNameChar_of_isNameStart start)

theorem Spelled.visible {t : Token} {used : List Char} (h : t.Spelled used) :
    ∃ c text, used = c :: text ∧ Text.isBlank c = false := by
  by_cases operand : t.isOperand = true
  · obtain ⟨c, text, rfl, opens⟩ := h.head_of_isOperand operand
    exact ⟨c, text, rfl, visible_of_opensOperand opens⟩
  · rw [Bool.not_eq_true] at operand
    rw [h.eq_sign operand]
    cases t with
    | lit => simp [isOperand] at operand
    | path => simp [isOperand] at operand
    | op binary => cases binary <;> exact ⟨_, _, rfl, rfl⟩
    | _ => exact ⟨_, _, rfl, rfl⟩

/-- The token may be the last one of an expression. -/
def isEnd : Token → Bool
  | .lit _ | .path _ _ _ | .closing => true
  | _ => false

/-- The token may be the first one of an expression. -/
def isStart : Token → Bool
  | .lit _ | .path _ _ _ | .bang | .op .sub | .opening => true
  | _ => false

theorem adjoins_of_isEnd {t t' : Token} (h : t.isEnd = true) (h' : t'.isOperand = false) :
    Adjoins t t' := by
  intro used rest spelled
  rw [spelled.eq_sign h']
  have outside : StopsAt continuesWord (t'.sign ++ rest) := by
    cases t' with
    | lit => simp [isOperand] at h'
    | path => simp [isOperand] at h'
    | op binary => cases binary <;> exact (stopsAt_cons _ _ _).mpr rfl
    | _ => exact (stopsAt_cons _ _ _).mpr rfl
  cases t with
  | lit => exact outside
  | path => exact outside
  | closing => exact fun _ _ => rfl
  | _ => simp [isEnd] at h

theorem adjoins_of_isStart {t t' : Token} (h : t.isOperand = false) (h' : t'.isStart = true) :
    Adjoins t t' := by
  intro used rest spelled
  have notEqual : ∃ c text, used = c :: text ∧ c ≠ '=' := by
    by_cases operand : t'.isOperand = true
    · obtain ⟨c, text, rfl, opens⟩ := spelled.head_of_isOperand operand
      refine ⟨c, text, rfl, ?_⟩
      rintro rfl
      exact absurd opens (by decide)
    · rw [spelled.eq_sign (by simpa using operand)]
      cases t' with
      | bang => exact ⟨_, _, rfl, by decide⟩
      | opening => exact ⟨_, _, rfl, by decide⟩
      | op binary => cases binary <;> first | exact ⟨_, _, rfl, by decide⟩ | simp [isStart] at h'
      | _ => simp_all [isStart, isOperand]
  obtain ⟨c, text, rfl, notEqual⟩ := notEqual
  rw [List.cons_append, stopsAt_cons]
  cases t <;> simp_all [isOperand, continues]

theorem adjoins_opening (t : Token) : Adjoins .opening t :=
  fun _ _ _ _ _ => rfl

theorem StopsAt.of_spaced {t : Token} {tokens : List Token} {pieces : List (List Char)}
    {text : List Char} (h : Spaced pieces text) (spelled : List.Forall₂ Spelled tokens pieces)
    (chain : (t :: tokens).IsChain Adjoins) : StopsAt t.continues text := by
  cases h with
  | nil => simp
  | blank c h _ => simpa using continues_of_isSpace t h
  | piece first _ =>
    cases spelled with
    | cons head _ => exact (List.isChain_cons_cons.mp chain).1 _ _ head

theorem scan?_of_spaced {pieces : List (List Char)} {text : List Char} (h : Spaced pieces text) :
    ∀ tokens, List.Forall₂ Spelled tokens pieces → tokens.IsChain Adjoins →
      ∀ n, text.length < n → scan? n text = some tokens := by
  induction h with
  | nil =>
    intro tokens spelled _ n enough
    obtain ⟨m, rfl⟩ := Nat.exists_eq_add_one_of_ne_zero (Nat.ne_of_gt (Nat.zero_lt_of_lt enough))
    cases spelled
    rfl
  | blank c h _ ih =>
    intro tokens spelled chain n enough
    obtain ⟨m, rfl⟩ := Nat.exists_eq_add_one_of_ne_zero (Nat.ne_of_gt (Nat.zero_lt_of_lt enough))
    have read := ih tokens spelled chain (m + 1) (by simp at enough; omega)
    rw [← read]
    simp [scan?, h]
  | @piece pieces text first spaced ih =>
    intro tokens spelled chain n enough
    obtain ⟨m, rfl⟩ := Nat.exists_eq_add_one_of_ne_zero (Nat.ne_of_gt (Nat.zero_lt_of_lt enough))
    cases spelled with
    | @cons t _ others _ head tail =>
      obtain ⟨c, used, rfl, visible⟩ := head.visible
      have solid : isSpace c = false := by
        by_contra space
        rw [Text.isBlank_of_isSpace (by simpa using space)] at visible
        exact Bool.noConfusion visible
      have read := next?_of_spelled head (.of_spaced spaced tail chain)
      have readOthers := ih others tail chain.of_cons m (by simp at enough; omega)
      rw [List.cons_append] at read ⊢
      simp [scan?, solid, read, readOthers]

/-- `Met text rest` says that scanning `text` comes to a place where `rest` is left to be read. -/
inductive Met (text : List Char) : List Char → Prop
  | start : Met text (text.dropWhile isSpace)
  | onward {t : Token} {rest after : List Char} (h : Met text rest)
      (read : next? rest = some (t, after)) : Met text (after.dropWhile isSpace)

theorem Met.trans {t : Token} {text after rest : List Char}
    (read : next? (text.dropWhile isSpace) = some (t, after)) (h : Met after rest) :
    Met text rest := by
  induction h with
  | start => exact .onward .start read
  | onward _ read' ih => exact .onward ih read'

/-- The scanner stays within places that it does not leave by reading a token. -/
theorem Met.mem {text rest : List Char} {places : List (List Char)} (h : Met text rest)
    (start : text.dropWhile isSpace ∈ places)
    (onward : ∀ rest ∈ places, ∀ result ∈ next? rest, result.2.dropWhile isSpace ∈ places) :
    rest ∈ places := by
  induction h with
  | start => exact start
  | onward _ read ih => exact onward _ ih _ read

theorem met_of_scan? {n : Nat} {text : List Char} {tokens : List Token}
    (h : scan? n text = some tokens) :
    ∀ t ∈ tokens, ∃ rest after, Met text rest ∧ next? rest = some (t, after) := by
  induction n generalizing text tokens with
  | zero => simp [scan?] at h
  | succ n ih =>
    simp only [scan?] at h
    split at h
    · obtain rfl := Option.some.inj h
      simp
    · rename_i c rest start
      split at h
      · simp at h
      · rename_i token after read
        obtain ⟨others, readOthers, rfl⟩ := Option.map_eq_some_iff.mp h
        rw [← start] at read
        intro t ht
        rcases List.mem_cons.mp ht with rfl | ht
        · exact ⟨_, after, .start, read⟩
        · obtain ⟨rest', after', met, read'⟩ := ih readOthers t ht
          exact ⟨rest', after', met.trans read, read'⟩

end Token

end Parley
