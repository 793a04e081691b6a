import Parley.Json.Basic
import Parley.Proofs.NearestDecimals
import Parley.Proofs.Spelling

/-!
# Texts of numbers

The text of a float tells its digits and where the point stands among them, in
whichever layout it is written; so it tells the float.  Texts of integers have
neither point nor exponent.  Hence different numbers have different texts.
-/

set_option autoImplicit false

namespace Parley

namespace Decimal

/-! ## Digits -/

theorem foldl_digits (a : List Char) (n : ℕ) :
    a.foldl (fun n c => 10 * n + (c.toNat - '0'.toNat)) n = n * 10 ^ a.length + valueOf a := by
  induction a generalizing n with
  | nil => simp [valueOf]
  | cons c a ih =>
      simp only [valueOf, List.foldl_cons, List.length_cons]
      rw [ih, ih (10 * 0 + _), pow_succ]
      ring

theorem valueOf_append (a b : List Char) :
    valueOf (a ++ b) = valueOf a * 10 ^ b.length + valueOf b := by
  rw [valueOf, List.foldl_append, foldl_digits]
  rfl

theorem valueOf_zeros (n : ℕ) : valueOf (List.replicate n '0') = 0 := by
  induction n with
  | zero => rfl
  | succ n ih =>
      rw [List.replicate_succ', valueOf_append, ih]
      rfl

/-! ## What a decimal text writes -/

/-- The number that a text of digits writes, where a point may stand among the digits and an exponent
behind them. -/
def readText (text : List Char) : ℚ :=
  let mantissa := text.takeWhile (· ≠ 'e')
  let fraction := (mantissa.dropWhile (· ≠ '.')).tail
  let exponent : ℤ := match text.dropWhile (· ≠ 'e') with
    | _ :: sign :: digits => if sign = '-' then -(valueOf digits : ℤ) else valueOf digits
    | _ => 0
  valueOf (mantissa.takeWhile (· ≠ '.') ++ fraction) * 10 ^ (exponent - fraction.length)

/-- All characters are digits. -/
def AllDigits (text : List Char) : Prop :=
  ∀ c ∈ text, c.isDigit = true

theorem AllDigits.append {a b : List Char} (ha : AllDigits a) (hb : AllDigits b) :
    AllDigits (a ++ b) := by
  intro c hc
  rcases List.mem_append.1 hc with hc | hc
  · exact ha c hc
  · exact hb c hc

theorem allDigits_zeros (n : ℕ) : AllDigits (List.replicate n '0') := by
  intro c hc
  rw [(List.mem_replicate.1 hc).2]
  rfl

theorem AllDigits.ne {text : List Char} (h : AllDigits text) {mark : Char}
    (hmark : mark.isDigit = false) : ∀ c ∈ text, decide (c ≠ mark) = true := by
  intro c hc
  rw [decide_eq_true_eq]
  rintro rfl
  rw [h c hc] at hmark
  cases hmark

section Mantissa

variable {whole fraction : List Char}

/-- A mantissa, whose digits may have a point among them. -/
inductive Mantissa (whole fraction : List Char) : List Char → Prop where
  | pointed : Mantissa whole fraction (whole ++ '.' :: fraction)
  | bare (hnone : fraction = []) : Mantissa whole fraction whole

theorem Mantissa.split {written : List Char} (h : Mantissa whole fraction written)
    (hwhole : AllDigits whole) : written.takeWhile (· ≠ '.') = whole ∧
      (written.dropWhile (· ≠ '.')).tail = fraction := by
  have hnoPoint : ∀ c ∈ whole, decide (c ≠ '.') = true := hwhole.ne rfl
  cases h with
  | pointed =>
      have hstops : Token.StopsAt (fun c => decide (c ≠ '.')) ('.' :: fraction) := by simp
      rw [Token.takeWhile_spelled hnoPoint hstops, Token.dropWhile_spelled hnoPoint hstops]
      exact ⟨rfl, rfl⟩
  | bare hnone =>
      rw [List.takeWhile_eq_self_iff.2 hnoPoint, List.dropWhile_eq_nil_iff.2 hnoPoint, hnone]
      exact ⟨rfl, rfl⟩

theorem Mantissa.mem {written : List Char} (h : Mantissa whole fraction written)
    (hwhole : AllDigits whole) (hfraction : AllDigits fraction) :
    ∀ c ∈ written, c.isDigit = true ∨ c = '.' := by
  cases h with
  | pointed =>
      intro c hc
      rcases List.mem_append.1 hc with hc | hc
      · exact .inl (hwhole c hc)
      · rcases List.mem_cons.1 hc with rfl | hc
        · exact .inr rfl
        · exact .inl (hfraction c hc)
  | bare => exact fun c hc => .inl (hwhole c hc)

theorem Mantissa.noMark {written : List Char} (h : Mantissa whole fraction written)
    (hwhole : AllDigits whole) (hfraction : AllDigits fraction) :
    ∀ c ∈ written, decide (c ≠ 'e') = true := by
  intro c hc
  rw [decide_eq_true_eq]
  rintro rfl
  rcases h.mem hwhole hfraction _ hc with hdigit | hpoint
  · cases hdigit
  · cases hpoint

end Mantissa

/-- The forms in which a decimal is written: positional, with digits on both sides of the point, or
with the exponent of its leading digit. -/
inductive Form (d : Decimal) : List Char → Prop where
  | positional {whole fraction : List Char} (hwhole : AllDigits whole)
      (hfraction : AllDigits fraction) (hsome : whole ≠ []) (shift : ℕ)
      (hvalue : valueOf (whole ++ fraction) = d.digits * 10 ^ shift)
      (hlength : d.exponent = shift - (fraction.length : ℤ)) :
      Form d (whole ++ '.' :: fraction)
  | scaled {first sign : Char} {others written digits : List Char}
      (hmantissa : Mantissa [first] others written) (hdigits : AllDigits (first :: others))
      (hexponent : AllDigits digits) (hsign : sign = '-' ∨ sign = '+')
      (hvalue : valueOf (first :: others) = d.digits)
      (hplace : (if sign = '-' then -(valueOf digits : ℤ) else valueOf digits)
        - (others.length : ℤ) = d.exponent) :
      Form d (written ++ 'e' :: sign :: digits)

/-- The digits and the exponent of a text that is not positional. -/
theorem form_scaled {first : Char} {others written : List Char} {d : Decimal} {leading : ℤ}
    (hmantissa : Mantissa [first] others written) (hdigits : AllDigits (first :: others))
    (hvalue : valueOf (first :: others) = d.digits)
    (hplace : leading - (others.length : ℤ) = d.exponent) :
    Form d (written ++ (if leading < 0 then dataLayout.negativeMark else dataLayout.positiveMark)
      ++ digitsOf leading.natAbs) := by
  have hexponent : AllDigits (digitsOf leading.natAbs) := isDigit_digitsOf _
  simp only [dataLayout, List.append_assoc]
  split
  · simp only [List.cons_append, List.nil_append]
    refine .scaled hmantissa hdigits hexponent (.inl rfl) hvalue ?_
    rw [if_pos rfl, valueOf_digitsOf]
    omega
  · simp only [List.cons_append, List.nil_append]
    refine .scaled hmantissa hdigits hexponent (.inr rfl) hvalue ?_
    rw [if_neg (by decide), valueOf_digitsOf]
    omega

theorem form_render (d : Decimal) : Form d (render dataLayout d) := by
  have hdigits : AllDigits (digitsOf d.digits) := isDigit_digitsOf d.digits
  have hpos : 0 < (digitsOf d.digits).length := List.length_pos_iff.2 (digitsOf_ne_nil d.digits)
  have hvalue := valueOf_digitsOf d.digits
  simp only [render]
  generalize digitsOf d.digits = digits at hdigits hpos hvalue ⊢
  generalize hleading : d.exponent + (digits.length : ℤ) - 1 = leading
  split
  · split
    · -- a whole number, with zeros after its digits
      rename_i hexponent
      refine .positional (hdigits.append (allDigits_zeros _)) (allDigits_zeros 1)
        (List.append_ne_nil_of_left_ne_nil (List.length_pos_iff.1 hpos) _)
        (d.exponent.toNat + 1) ?_ ?_
      · rw [valueOf_append, valueOf_append, valueOf_zeros, hvalue, List.length_replicate]
        simp [valueOf, pow_succ, mul_assoc]
      · rw [List.length_singleton]
        omega
    · split
      · -- the point stands among the digits
        rename_i hexponent hplace
        refine .positional (fun c hc => hdigits c (List.mem_of_mem_take hc))
          (fun c hc => hdigits c (List.mem_of_mem_drop hc)) ?_ 0 ?_ ?_
        · rw [← List.length_pos_iff, List.length_take]
          omega
        · rw [List.take_append_drop, hvalue, pow_zero, mul_one]
        · rw [List.length_drop]
          omega
      · -- the digits stand behind the point, with zeros between
        rename_i hexponent hplace
        refine .positional (allDigits_zeros 1) ((allDigits_zeros _).append hdigits)
          (List.cons_ne_nil _ _) 0 ?_ ?_
        · simp only [valueOf_append, valueOf_zeros, hvalue]
          ring
        · rw [List.length_append, List.length_replicate]
          omega
  · obtain ⟨first, others, rfl⟩ := List.exists_cons_of_length_pos hpos
    have hplace : leading - (others.length : ℤ) = d.exponent := by
      rw [List.length_cons] at hleading
      omega
    cases others with
    | nil => exact form_scaled (.bare rfl) hdigits hvalue hplace
    | cons => exact form_scaled .pointed hdigits hvalue hplace

section Form

variable {d : Decimal} {written : List Char}

/-- A written decimal is read as its value. -/
theorem Form.readText_eq (h : Form d written) : readText written = d.value := by
  cases h with
  | @positional whole fraction hwhole hfraction _ shift hvalue hlength =>
      have hmantissa : Mantissa whole fraction (whole ++ '.' :: fraction) := .pointed
      have hsplit := hmantissa.split hwhole
      have hnoMark := hmantissa.noMark hwhole hfraction
      have htake := List.takeWhile_eq_self_iff.2 hnoMark
      have hdrop := List.dropWhile_eq_nil_iff.2 hnoMark
      simp only [readText, htake, hdrop, hsplit.1, hsplit.2, hvalue, value, hlength]
      push_cast
      rw [sub_eq_add_neg (shift : ℤ), zpow_add₀ (by norm_num), zpow_natCast, zero_sub]
      ring
  | @scaled first sign others written digits hmantissa hdigits hexponent hsign hvalue hplace =>
      have hfirst : AllDigits [first] := fun c hc => hdigits c (by simp_all)
      have hothers : AllDigits others := fun c hc => hdigits c (List.mem_cons_of_mem _ hc)
      have hsplit := hmantissa.split hfirst
      have hstops : Token.StopsAt (fun c => decide (c ≠ 'e')) ('e' :: sign :: digits) := by simp
      have hnoMark := hmantissa.noMark hfirst hothers
      have htake := Token.takeWhile_spelled hnoMark hstops
      have hdrop := Token.dropWhile_spelled hnoMark hstops
      simp only [readText, htake, hdrop, hsplit.1, hsplit.2, List.singleton_append, hvalue, hplace,
        value]

/-- The first character of a written decimal is a digit. -/
theorem Form.head (h : Form d written) : ∃ c rest, written = c :: rest ∧ c.isDigit = true := by
  cases h with
  | positional hwhole _ hsome =>
      obtain ⟨c, rest, rfl⟩ := List.exists_cons_of_ne_nil hsome
      exact ⟨c, _, rfl, hwhole c (.head _)⟩
  | @scaled first sign others mantissa digits hmantissa hdigits =>
      have hfirst := hdigits first (.head _)
      cases hmantissa with
      | pointed => exact ⟨first, _, rfl, hfirst⟩
      | bare => exact ⟨first, _, rfl, hfirst⟩

/-- A written decimal has a point or an exponent. -/
theorem Form.notDigits (h : Form d written) : ¬ AllDigits written := by
  intro hdigits
  cases h with
  | positional => cases hdigits '.' (by simp)
  | scaled => cases hdigits 'e' (by simp)

/-- The characters of numbers. -/
def isNumeral (c : Char) : Bool :=
  c.isDigit || c = '.' || c = 'e' || c = '-' || c = '+'

theorem AllDigits.isNumeral {text : List Char} (h : AllDigits text) :
    ∀ c ∈ text, isNumeral c = true := by
  intro c hc
  simp [Decimal.isNumeral, h c hc]

theorem Form.isNumeral (h : Form d written) : ∀ c ∈ written, isNumeral c = true := by
  have hmarked : ∀ {whole fraction mantissa : List Char}, Mantissa whole fraction mantissa →
      AllDigits whole → AllDigits fraction → ∀ c ∈ mantissa, Decimal.isNumeral c = true := by
    intro whole fraction mantissa hmantissa hwhole hfraction c hc
    rcases hmantissa.mem hwhole hfraction c hc with hdigit | rfl
    · simp [Decimal.isNumeral, hdigit]
    · rfl
  cases h with
  | positional hwhole hfraction => exact hmarked .pointed hwhole hfraction
  | scaled hmantissa hdigits hexponent hsign =>
      intro c hc
      rcases List.mem_append.1 hc with hc | hc
      · exact hmarked hmantissa (fun c hc => hdigits c (by simp_all))
          (fun c hc => hdigits c (List.mem_cons_of_mem _ hc)) c hc
      · simp only [List.mem_cons] at hc
        rcases hc with rfl | rfl | hc
        · rfl
        · rcases hsign with rfl | rfl <;> rfl
        · exact hexponent.isNumeral c hc

end Form

/-! ## Floats -/

/-- The digits of a float, none for zero. -/
def significant (a : FloatValue) : Decimal :=
  if a.mantissa = 0 then ⟨0, 0⟩ else shortest a

/-- The text of a float without its sign. -/
def unsigned (a : FloatValue) : List Char :=
  if a.mantissa = 0 then ['0', '.', '0'] else render dataLayout (shortest a)

theorem form_unsigned (a : FloatValue) : Form (significant a) (unsigned a) := by
  unfold significant unsigned
  split
  · exact .positional (allDigits_zeros 1) (allDigits_zeros 1) (List.cons_ne_nil _ _) 1 rfl rfl
  · exact form_render _

theorem value_significant_pos {a : FloatValue} (h : a.mantissa ≠ 0) : 0 < (significant a).value := by
  have hround := roundsTo_shortest (Nat.pos_of_ne_zero h)
  have hlow : 0 < lowEnd a := by
    unfold lowEnd
    split <;> omega
  rw [significant, if_neg h]
  exact (mul_pos (Nat.cast_pos.2 hlow) (quarter_pos a)).trans_le hround.notBelow

/-- A float is told by its text up to its sign. -/
theorem eq_of_unsigned {a b : FloatValue} (ha : a.Canonical) (hb : b.Canonical)
    (h : unsigned a = unsigned b) : a.mantissa = b.mantissa ∧ a.exponent = b.exponent := by
  have hvalue : (significant a).value = (significant b).value := by
    rw [← (form_unsigned a).readText_eq, h, (form_unsigned b).readText_eq]
  by_cases hzeroA : a.mantissa = 0
  · by_cases hzeroB : b.mantissa = 0
    · have hleastA := ha.full
      have hleastB := hb.full
      omega
    · have hpos := value_significant_pos hzeroB
      rw [← hvalue, significant, if_pos hzeroA] at hpos
      simp [value] at hpos
  · by_cases hzeroB : b.mantissa = 0
    · have hpos := value_significant_pos hzeroA
      rw [hvalue, significant, if_pos hzeroB] at hpos
      simp [value] at hpos
    · have hroundA := roundsTo_shortest (Nat.pos_of_ne_zero hzeroA)
      have hroundB := roundsTo_shortest (Nat.pos_of_ne_zero hzeroB)
      simp only [significant, if_neg hzeroA, if_neg hzeroB] at hvalue
      rw [hvalue] at hroundA
      exact eq_of_roundsTo ha hb hroundA hroundB

end Decimal

namespace Number

open Decimal (AllDigits digitsOf isNumeral unsigned)

/-- The number has a value; a float may be infinite or not a number. -/
def IsFinite : Number → Prop
  | int _ => True
  | float x => (FloatValue.ofFloat? x).isSome = true

/-- A text with the sign of a number. -/
def signed (negative : Bool) (text : List Char) : List Char :=
  (if negative then ['-'] else []) ++ text

theorem render_int (n : ℤ) : (int n).render = signed (decide (n < 0)) (digitsOf n.natAbs) := by
  unfold render signed
  by_cases h : n < 0 <;> simp [h]

theorem render_float {x : Float} {a : FloatValue} (h : FloatValue.ofFloat? x = some a) :
    (float x).render = signed a.negative (unsigned a) := by
  simp only [render, Decimal.renderFloat?, h, Option.map_some, Option.getD_some, signed, unsigned]
  split <;> rfl

/-- A text that begins with a digit tells where the sign ends. -/
theorem eq_of_signed {negative negative' : Bool} {text text' : List Char}
    (hhead : ∃ c rest, text = c :: rest ∧ c.isDigit = true)
    (hhead' : ∃ c rest, text' = c :: rest ∧ c.isDigit = true)
    (h : signed negative text = signed negative' text') : negative = negative' ∧ text = text' := by
  obtain ⟨c, rest, rfl, hc⟩ := hhead
  obtain ⟨c', rest', rfl, hc'⟩ := hhead'
  cases negative <;> cases negative' <;> simp [signed] at h ⊢
  · exact h
  · rw [h.1] at hc
    cases hc
  · rw [← h.1] at hc'
    cases hc'
  · exact h

theorem head_digitsOf (n : ℕ) : ∃ c rest, digitsOf n = c :: rest ∧ c.isDigit = true := by
  obtain ⟨c, rest, h⟩ := List.exists_cons_of_ne_nil (Decimal.digitsOf_ne_nil n)
  exact ⟨c, rest, h, Decimal.isDigit_digitsOf n c (by rw [h]; exact .head _)⟩

/-- Finite numbers are told by their texts. -/
theorem render_injective {m n : Number} (hm : m.IsFinite) (hn : n.IsFinite)
    (h : m.render = n.render) : m = n := by
  cases m with
  | int i =>
      rw [render_int] at h
      cases n with
      | int j =>
          rw [render_int] at h
          obtain ⟨hsign, hdigits⟩ := eq_of_signed (head_digitsOf _) (head_digitsOf _) h
          have habs : i.natAbs = j.natAbs := by
            rw [← Decimal.valueOf_digitsOf i.natAbs, hdigits, Decimal.valueOf_digitsOf]
          have hsame := decide_eq_decide.1 hsign
          congr 1
          omega
      | float y =>
          obtain ⟨b, hb⟩ := Option.isSome_iff_exists.1 hn
          have hform := Decimal.form_unsigned b
          rw [render_float hb] at h
          obtain ⟨-, hdigits⟩ := eq_of_signed (head_digitsOf _) hform.head h
          exact absurd (hdigits ▸ Decimal.isDigit_digitsOf _) hform.notDigits
  | float x =>
      obtain ⟨a, ha⟩ := Option.isSome_iff_exists.1 hm
      have hform := Decimal.form_unsigned a
      rw [render_float ha] at h
      cases n with
      | int j =>
          rw [render_int] at h
          obtain ⟨-, hdigits⟩ := eq_of_signed hform.head (head_digitsOf _) h
          exact absurd (hdigits ▸ Decimal.isDigit_digitsOf _) hform.notDigits
      | float y =>
          obtain ⟨b, hb⟩ := Option.isSome_iff_exists.1 hn
          rw [render_float hb] at h
          obtain ⟨hsign, htext⟩ := eq_of_signed hform.head (Decimal.form_unsigned b).head h
          obtain ⟨hmantissa, hexponent⟩ := Decimal.eq_of_unsigned
            (FloatValue.canonical_of_ofFloat? ha) (FloatValue.canonical_of_ofFloat? hb) htext
          have hsame : a = b := by
            obtain ⟨_, _, _⟩ := a
            obtain ⟨_, _, _⟩ := b
            cases hsign
            cases hmantissa
            cases hexponent
            rfl
          subst hsame
          rw [FloatValue.eq_of_ofFloat? ha hb]

/-- The text of a finite number consists of characters of numbers, and the first one is a digit or
the sign. -/
theorem render_numeral {n : Number} (hn : n.IsFinite) : (∀ c ∈ n.render, isNumeral c = true) ∧
    ∃ c rest, n.render = c :: rest ∧ (c.isDigit = true ∨ c = '-') := by
  obtain ⟨negative, text, hrender, hnumeral, c, rest, rfl, hc⟩ : ∃ negative text,
      n.render = signed negative text ∧ (∀ c ∈ text, isNumeral c = true) ∧
        ∃ c rest, text = c :: rest ∧ c.isDigit = true := by
    cases n with
    | int i =>
        exact ⟨_, _, render_int i, Decimal.AllDigits.isNumeral (Decimal.isDigit_digitsOf _),
          head_digitsOf _⟩
    | float x =>
        obtain ⟨a, ha⟩ := Option.isSome_iff_exists.1 hn
        have hform := Decimal.form_unsigned a
        exact ⟨_, _, render_float ha, hform.isNumeral, hform.head⟩
  rw [hrender]
  cases negative with
  | false => exact ⟨hnumeral, c, rest, rfl, .inl hc⟩
  | true => exact ⟨List.forall_mem_cons.2 ⟨rfl, hnumeral⟩, '-', c :: rest, rfl, .inr rfl⟩

end Number

end Parley
