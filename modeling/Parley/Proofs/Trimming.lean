import Parley.Expr.Parser
import Parley.Proofs.Spelling

/-!
# Blanks around an expression

What writes an expression writes the same one without the blanks around it.  At
the front a blank is passed over or stops the scanner.  At the end it belongs to
no token, so every part of the scanner leaves it over.
-/

set_option autoImplicit false

namespace Parley

namespace Text

variable {c : Char} {text : List Char}

theorem trimEnd_concat_blank (h : isBlank c = true) : trimEnd (text ++ [c]) = trimEnd text := by
  simp [trimEnd, h]

theorem trimEnd_concat (h : isBlank c = false) : trimEnd (text ++ [c]) = text ++ [c] := by
  simp [trimEnd, h]

/-- Nothing before a visible character is cut off the end. -/
theorem trimEnd_append_cons (text : List Char) (h : isBlank c = false) (rest : List Char) :
    trimEnd (text ++ c :: rest) = text ++ c :: trimEnd rest := by
  induction rest using List.reverseRecOn with
  | nil => exact trimEnd_concat h
  | append_singleton rest d ih =>
    have assoc : text ++ c :: (rest ++ [d]) = (text ++ c :: rest) ++ [d] := by simp
    rw [assoc]
    by_cases blank : isBlank d = true
    · rw [trimEnd_concat_blank blank, trimEnd_concat_blank blank, ih]
    · rw [Bool.not_eq_true] at blank
      rw [trimEnd_concat blank, trimEnd_concat blank, assoc]

theorem blank_of_trimEnd (h : trimEnd text = []) : ∀ c ∈ text, isBlank c = true := by
  simpa [trimEnd] using h

/-- Trimming cuts off the blanks at both ends. -/
theorem blanks_around_trim (text : List Char) :
    text.takeWhile isBlank ++ (trim text ++ (trimStart text).rtakeWhile isBlank) = text := by
  have hfinish : trim text ++ (trimStart text).rtakeWhile isBlank = trimStart text :=
    List.rdropWhile_append_rtakeWhile
  rw [hfinish]
  exact List.takeWhile_append_dropWhile

/-- What trimming takes away are blanks at both ends. -/
theorem exists_blanks_around (text : List Char) :
    ∃ lead trail, text = lead ++ (trim text ++ trail) ∧
      (∀ c ∈ lead, isBlank c = true) ∧ ∀ c ∈ trail, isBlank c = true :=
  ⟨_, _, (blanks_around_trim text).symm, fun _ hc => List.mem_takeWhile_imp hc,
    fun _ hc => List.mem_rtakeWhile_imp hc⟩

theorem trim_isInfix (text : List Char) : trim text <:+: text := by
  obtain ⟨lead, trail, htext, -, -⟩ := exists_blanks_around text
  exact ⟨lead, trail, by rw [List.append_assoc]; exact htext.symm⟩

end Text

namespace Token

variable {c : Char} {text : List Char}

/-! ## Blanks in front -/

theorem next?_blank (h : Text.isBlank c = true) : next? (c :: text) = none := by
  cases read : next? (c :: text) with
  | none => rfl
  | some result =>
    obtain ⟨t, rest⟩ := result
    obtain ⟨used, text_eq, spelled⟩ := spelled_of_next? read
    obtain ⟨d, used, rfl, visible⟩ := spelled.visible
    obtain rfl : c = d := by simpa using congrArg List.head? text_eq
    rw [h] at visible
    exact Bool.noConfusion visible

theorem scan?_tail {n : Nat} {tokens : List Token} (h : Text.isBlank c = true)
    (scanned : scan? n (c :: text) = some tokens) : scan? n text = some tokens := by
  cases n with
  | zero => simp [scan?] at scanned
  | succ n =>
    by_cases space : isSpace c = true
    · simpa [scan?, space] using scanned
    · simp [scan?, space, next?_blank h] at scanned

theorem scan?_trimStart {n : Nat} {tokens : List Token} (scanned : scan? n text = some tokens) :
    scan? n (Text.trimStart text) = some tokens := by
  induction text with
  | nil => exact scanned
  | cons c text ih =>
    by_cases blank : Text.isBlank c = true
    · have rest := ih (scan?_tail blank scanned)
      simpa [Text.trimStart, blank] using rest
    · simpa [Text.trimStart, blank] using scanned

/-! ## A blank at the end -/

/-- The result of a reading with one more character left over. -/
def leaving {α : Type} (c : Char) : α × List Char → α × List Char
  | (x, rest) => (x, rest ++ [c])

theorem takeWhile_concat {p : Char → Bool} (h : p c = false) (text : List Char) :
    (text ++ [c]).takeWhile p = text.takeWhile p := by
  induction text with
  | nil => simp [h]
  | cons d text ih =>
    rw [List.cons_append, List.takeWhile_cons, List.takeWhile_cons, ih]

theorem dropWhile_concat {p : Char → Bool} (h : p c = false) (text : List Char) :
    (text ++ [c]).dropWhile p = text.dropWhile p ++ [c] := by
  induction text with
  | nil => simp [h]
  | cons d text ih =>
    rw [List.cons_append, List.dropWhile_cons, List.dropWhile_cons, ih]
    split <;> rfl

section

variable (blank : Text.isBlank c = true)
include blank

theorem blank_ne {d : Char} (visible : Text.isBlank d = false) : c ≠ d := by
  rintro rfl
  rw [blank] at visible
  exact Bool.noConfusion visible

theorem blank_not_nameChar : isNameChar c = false := by
  by_contra h
  rw [visible_of_isNameChar (by simpa using h)] at blank
  exact Bool.noConfusion blank

theorem blank_not_digit : c.isDigit = false := by
  by_contra h
  rw [visible_of_isDigit (by simpa using h)] at blank
  exact Bool.noConfusion blank

theorem name?_concat (text : List Char) : name? (text ++ [c]) = (name? text).map (leaving c) := by
  cases text with
  | nil =>
    have notStart : isNameStart c = false := by
      by_contra h
      have := isNameChar_of_isNameStart (by simpa using h)
      rw [blank_not_nameChar blank] at this
      exact Bool.noConfusion this
    simp [name?, notStart]
  | cons d text =>
    simp only [List.cons_append, name?, takeWhile_concat (blank_not_nameChar blank),
      dropWhile_concat (blank_not_nameChar blank)]
    split <;> rfl

theorem quotedBody?_concat {quote : Char} (isQuoted : isQuote quote = true) (text : List Char) :
    quotedBody? quote (text ++ [c]) = (quotedBody? quote text).map (leaving c) := by
  have quote_ne : quote ≠ '\\' := by
    rintro rfl
    simp [isQuote] at isQuoted
  fun_induction quotedBody? quote text with
  | case1 d text ih =>
    simp only [List.cons_append, quotedBody?, ih, Option.map_map]
    rfl
  | case2 text => simp [quotedBody?, quote_ne, leaving]
  | case3 text whole =>
    cases text with
    | nil => simp [quotedBody?]
    | cons d text => exact absurd rfl (whole d text rfl)
  | case4 d text _ other plain ih =>
    rw [List.cons_append, quotedBody?_cons other plain, ih, Option.map_map, Option.map_map]
    rfl
  | case5 =>
    have other : c ≠ quote := by
      rintro rfl
      rw [visible_of_opensOperand (by simp [opensOperand, isQuoted])] at blank
      exact Bool.noConfusion blank
    simp [quotedBody?, other, blank_ne blank (d := '\\') rfl]

theorem quoted?_concat (text : List Char) :
    quoted? (text ++ [c]) = (quoted? text).map (leaving c) := by
  cases text with
  | nil =>
    have notQuote : isQuote c = false := by
      by_contra h
      rw [visible_of_opensOperand (by simp_all [opensOperand])] at blank
      exact Bool.noConfusion blank
    exact quoted?_eq_none notQuote
  | cons d text =>
    simp only [List.cons_append, quoted?]
    split
    · rename_i isQuoted
      rw [quotedBody?_concat blank isQuoted, Option.map_map, Option.map_map]
      rfl
    · rfl

theorem segment?_concat (text : List Char) :
    segment? (text ++ [c]) = (segment? text).map (leaving c) := by
  have notClosing : c ≠ ']' := blank_ne blank rfl
  cases text with
  | nil => simp [segment?, blank_ne blank (d := '.') rfl, blank_ne blank (d := '[') rfl]
  | cons d text =>
    rw [List.cons_append]
    by_cases dot : d = '.'
    · subst dot
      simp only [segment?, name?_concat blank, Option.map_map]
      rfl
    by_cases bracket : d = '['
    · subst bracket
      simp only [segment?, quoted?_concat blank, takeWhile_concat (blank_not_digit blank),
        dropWhile_concat (blank_not_digit blank)]
      cases quoted? text with
      | some result =>
        obtain ⟨name, rest⟩ := result
        cases rest with
        | nil => simp [leaving, notClosing]
        | cons e rest =>
          by_cases closing : e = ']'
          · simp [leaving, closing]
          · simp [leaving, closing]
      | none =>
        cases text.dropWhile Char.isDigit with
        | nil => simp [notClosing]
        | cons e rest =>
          by_cases closing : e = ']'
          · subst closing
            by_cases empty : (text.takeWhile Char.isDigit).isEmpty = true
            · simp [empty]
            · simp [empty, leaving]
          · simp [closing]
    · simp [segment?, dot, bracket]

theorem segments?_concat (n : Nat) (text : List Char) :
    segments? n (text ++ [c]) = (segments? n text).map (leaving c) := by
  induction n generalizing text with
  | zero => rfl
  | succ n ih =>
    cases text with
    | nil =>
      simp [segments?, leaving, blank_ne blank (d := '.') rfl, blank_ne blank (d := '[') rfl]
    | cons d text =>
      by_cases step : d = '.' ∨ d = '['
      · have longer := segment?_concat blank (d :: text)
        cases read : segment? (d :: text) with
        | none =>
          rw [read, List.cons_append] at longer
          rcases step with rfl | rfl <;> simp [segments?, read, longer]
        | some result =>
          obtain ⟨segment, rest⟩ := result
          rw [read] at longer
          rw [segments?_succ_of_read read, segments?_succ_of_read longer, ih, Option.map_map,
            Option.map_map]
          rfl
      · push Not at step
        simp [segments?, step.1, step.2, leaving]

theorem sign?_concat_some {t : Token} {rest : List Char} (read : sign? text = some (t, rest)) :
    sign? (text ++ [c]) = some (t, rest ++ [c]) := by
  have equal : c ≠ '=' := blank_ne blank rfl
  revert read
  fun_cases sign? text
  case case22 => simp
  all_goals
    intro read
    obtain ⟨rfl, rfl⟩ := Prod.mk.inj (Option.some.inj read)
  case case3 rest _ => cases rest <;> simp_all [sign?]
  case case4 rest _ => cases rest <;> simp_all [sign?]
  case case9 rest _ => cases rest <;> simp_all [sign?]
  case case10 rest _ => cases rest <;> simp_all [sign?]
  case case16 rest _ _ =>
    cases rest with
    | nil => simp [sign?, equal]
    | cons d rest => cases rest <;> simp_all [sign?]
  all_goals rfl

omit blank in
/-- A text that begins with the sign of a token begins with some sign. -/
theorem sign?_isSome {t : Token} (h : t.isOperand = false) (rest : List Char) :
    (sign? (t.sign ++ rest)).isSome = true := by
  have alone : ∀ c ∈ ['<', '>', '!'], ∀ rest, (sign? (c :: rest)).isSome = true := by
    intro c hc rest
    rw [sign?.eq_def]
    split <;> simp_all
  have equality : ∀ rest, (sign? ('=' :: '=' :: rest)).isSome = true := by
    intro rest
    rw [sign?.eq_def]
    split <;> simp_all
  cases t with
  | lit => simp [isOperand] at h
  | path => simp [isOperand] at h
  | op binary =>
    cases binary with
    | eq => exact equality rest
    | strictEq => exact equality _
    | lt => exact alone '<' (by decide) rest
    | gt => exact alone '>' (by decide) rest
    | le => exact alone '<' (by decide) _
    | ge => exact alone '>' (by decide) _
    | ne => exact alone '!' (by decide) _
    | strictNe => exact alone '!' (by decide) _
    | _ => rfl
  | bang => exact alone '!' (by decide) rest
  | _ => rfl

omit blank in
theorem sign_last {t : Token} (h : t.isOperand = false) :
    ∃ before d, t.sign = before ++ [d] ∧ Text.isBlank d = false := by
  cases t with
  | lit => simp [isOperand] at h
  | path => simp [isOperand] at h
  | op binary => cases binary <;> first | exact ⟨[], _, rfl, rfl⟩ | exact ⟨[_], _, rfl, rfl⟩ |
      exact ⟨[_, _], _, rfl, rfl⟩
  | both => exact ⟨['&'], _, rfl, rfl⟩
  | either => exact ⟨['|'], _, rfl, rfl⟩
  | _ => exact ⟨[], _, rfl, rfl⟩

theorem sign?_concat (text : List Char) : sign? (text ++ [c]) = (sign? text).map (leaving c) := by
  cases read : sign? text with
  | some result => exact sign?_concat_some blank read
  | none =>
    -- A sign would end before the blank, and so stand in the text already.
    cases read' : sign? (text ++ [c]) with
    | none => rfl
    | some result =>
      obtain ⟨t, rest⟩ := result
      obtain ⟨whole, plain⟩ := sign_of_sign? read'
      obtain ⟨before, d, sign_eq, visible⟩ := sign_last plain
      rcases List.eq_nil_or_concat rest with rfl | ⟨rest, e, rfl⟩
      · rw [List.append_nil, sign_eq] at whole
        obtain ⟨-, same⟩ := List.append_inj' whole rfl
        exact absurd (List.singleton_inj.mp same) (blank_ne blank visible)
      · rw [List.concat_eq_append, ← List.append_assoc] at whole
        obtain ⟨rfl, -⟩ := List.append_inj' whole rfl
        have known := sign?_isSome plain rest
        rw [read] at known
        exact Bool.noConfusion known

theorem number_concat (text : List Char) :
    number (text ++ [c]) = leaving c (number text) := by
  have digit := blank_not_digit blank
  simp only [number, takeWhile_concat digit, dropWhile_concat digit]
  cases rest : text.dropWhile Char.isDigit with
  | nil => simp [leaving]
  | cons d rest' =>
    by_cases point : d = '.'
    · subst point
      cases rest' with
      | nil => simp [leaving, digit]
      | cons e others =>
        by_cases first : e.isDigit = true
        · have taken := takeWhile_concat digit (e :: others)
          have left := dropWhile_concat digit (e :: others)
          simp only [List.cons_append] at taken left
          simp [leaving, first, Decimal.fractionPart, taken, left]
        · simp [leaving, first]
    · simp [leaving, point]

omit blank in
theorem segments?_enough {n m : Nat} (h : text.length ≤ n) (h' : text.length ≤ m) :
    segments? n text = segments? m text := by
  induction n generalizing m text with
  | zero =>
    obtain rfl : text = [] := List.length_eq_zero_iff.mp (Nat.le_zero.mp h)
    cases m <;> rfl
  | succ n ih =>
    cases m with
    | zero =>
      obtain rfl : text = [] := List.length_eq_zero_iff.mp (Nat.le_zero.mp h')
      rfl
    | succ m =>
      simp only [segments?]
      cases read : segment? text with
      | none => rfl
      | some result =>
        obtain ⟨segment, rest⟩ := result
        obtain ⟨used, rfl, spelled⟩ := spelled_of_segment? read
        have shorter : 0 < used.length := by
          obtain ⟨tail, rfl | rfl⟩ := spelled.head <;> simp
        rw [List.length_append] at h h'
        have others : segments? n rest = segments? m rest := ih (by omega) (by omega)
        simp only [others]

theorem word?_concat (text : List Char) : word? (text ++ [c]) = (word? text).map (leaving c) := by
  simp only [word?, name?_concat blank]
  cases read : name? text with
  | none => rfl
  | some result =>
    obtain ⟨root, rest⟩ := result
    obtain ⟨used, rfl, -, -⟩ := isName_of_name? read
    simp only [Option.map_some, leaving]
    cases reserved? root with
    | some value => rfl
    | none =>
      have enough : segments? (rest ++ [c]).length rest = segments? rest.length rest :=
        segments?_enough (by simp) (Nat.le_refl _)
      simp only [segments?_concat blank, enough, Option.map_map]
      congr 1
      -- One more character in the text and one more left over: what was taken is the same.
      funext result
      obtain ⟨segments, after⟩ := result
      have cut : ∀ text : List Char, (text ++ [c]).take ((text ++ [c]).length - (after ++ [c]).length) =
          text.take (text.length - after.length) := by
        intro text
        rw [List.length_append, List.length_append, Nat.add_sub_add_right,
          List.take_append_of_le_length (Nat.sub_le _ _)]
      simp only [Function.comp, leaving, cut]

theorem next?_concat {text : List Char} (nonempty : text ≠ []) :
    next? (text ++ [c]) = (next? text).map (leaving c) := by
  obtain ⟨d, text, rfl⟩ := List.exists_cons_of_ne_nil nonempty
  simp only [List.cons_append, next?]
  rw [← List.cons_append, number_concat blank, quoted?_concat blank, word?_concat blank,
    sign?_concat blank]
  split
  · rfl
  split
  · rw [Option.map_map, Option.map_map]
    rfl
  split
  · rfl
  · rfl

theorem scan?_concat {n : Nat} {tokens : List Token} {text : List Char}
    (scanned : scan? n (text ++ [c]) = some tokens) : scan? n text = some tokens := by
  induction n generalizing text tokens with
  | zero => simp [scan?] at scanned
  | succ n ih =>
    simp only [scan?] at scanned ⊢
    rw [List.dropWhile_append] at scanned
    cases start : text.dropWhile isSpace with
    | nil =>
      by_cases space : isSpace c = true
      · simpa [start, space] using scanned
      · simp [start, space, next?_blank blank] at scanned
    | cons d rest =>
      -- A token begins before the blank, and so ends before it.
      have read := next?_concat blank (List.cons_ne_nil d rest)
      simp only [start, List.isEmpty_cons, Bool.false_eq_true, if_false, List.cons_append] at scanned read
      simp only [read] at scanned
      cases token : next? (d :: rest) with
      | none => simp [token] at scanned
      | some result =>
        obtain ⟨t, after⟩ := result
        simp only [token, Option.map_some, leaving] at scanned ⊢
        obtain ⟨others, readOthers, rfl⟩ := Option.map_eq_some_iff.mp scanned
        rw [ih readOthers]
        rfl

end

theorem scan?_trimEnd {n : Nat} {tokens : List Token} (scanned : scan? n text = some tokens) :
    scan? n (Text.trimEnd text) = some tokens := by
  induction text using List.reverseRecOn with
  | nil => exact scanned
  | append_singleton text c ih =>
    by_cases blank : Text.isBlank c = true
    · rw [Text.trimEnd_concat_blank blank]
      exact ih (scan?_concat blank scanned)
    · rw [Bool.not_eq_true] at blank
      rw [Text.trimEnd_concat blank]
      exact scanned

/-- A scan that succeeds does so with any number of steps beyond the length of the text. -/
theorem scan?_enough {n m : Nat} {tokens : List Token} (scanned : scan? n text = some tokens)
    (h : text.length < m) : scan? m text = some tokens := by
  induction n generalizing text tokens m with
  | zero => simp [scan?] at scanned
  | succ n ih =>
    obtain ⟨m, rfl⟩ : ∃ k, m = k + 1 := ⟨m - 1, by omega⟩
    have shorter := List.length_dropWhile_le isSpace text
    simp only [scan?] at scanned ⊢
    cases start : text.dropWhile isSpace with
    | nil => simpa [start] using scanned
    | cons d rest =>
      rw [start] at shorter
      simp only [start] at scanned ⊢
      cases read : next? (d :: rest) with
      | none => simp [read] at scanned
      | some result =>
        obtain ⟨t, after⟩ := result
        obtain ⟨used, text_eq, spelled⟩ := spelled_of_next? read
        obtain ⟨e, used, rfl, -⟩ := spelled.visible
        have length := congrArg List.length text_eq
        simp only [List.length_cons, List.length_append] at length shorter
        simp only [read] at scanned ⊢
        obtain ⟨others, readOthers, rfl⟩ := Option.map_eq_some_iff.mp scanned
        rw [ih readOthers (by omega)]
        rfl

theorem ofText?_trim {tokens : List Token} (scanned : ofText? text = some tokens) :
    ofText? (Text.trim text) = some tokens :=
  scan?_enough (scan?_trimEnd (scan?_trimStart scanned)) (Nat.lt_succ_self _)

end Token

/-- A text that writes an expression writes it without the blanks around it as well. -/
theorem Expr.parse?_trim {text : List Char} {e : Expr} (h : parse? text = some e) :
    parse? (Text.trim text) = some e := by
  obtain ⟨tokens, scanned, formed⟩ := Option.bind_eq_some_iff.mp h
  rw [parse?, Token.ofText?_trim scanned]
  exact formed

end Parley
