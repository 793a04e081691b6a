import Mathlib
import Parley.Decimal.Notation

/-!
# Decimals that read back

The reals that round to a float form an interval around it, and the intervals of
different floats do not meet.  The fewest digits of a float lie in its interval,
so different floats have different fewest digits.
-/

set_option autoImplicit false

namespace Parley

namespace FloatValue

/-- The value without its sign. -/
def magnitude (x : FloatValue) : ℚ :=
  x.mantissa * (2 : ℚ) ^ x.exponent

/-- The value as a float holds it: the mantissa has at most 53 bits, and fewer only with the least
exponent. -/
structure Canonical (x : FloatValue) : Prop where
  bounded : x.mantissa < 2 ^ 53
  full : x.exponent = -1074 ∨ -1074 < x.exponent ∧ 2 ^ 52 ≤ x.mantissa

/-! ## Floats and their bits -/

/-- The exact value of a float in terms of the number that its bits write. -/
theorem ofFloat?_eq (x : Float) : ofFloat? x =
    if x.toBits.toNat / 2 ^ 52 % 2 ^ 11 = 0x7FF then none
    else if x.toBits.toNat / 2 ^ 52 % 2 ^ 11 = 0 then
      some ⟨decide (x.toBits.toNat / 2 ^ 63 = 1), x.toBits.toNat % 2 ^ 52, -1074⟩
    else some ⟨decide (x.toBits.toNat / 2 ^ 63 = 1), 2 ^ 52 + x.toBits.toNat % 2 ^ 52,
      (x.toBits.toNat / 2 ^ 52 % 2 ^ 11 : ℕ) - 1075⟩ := by
  have hsign : (x.toBits >>> 63 == 1) = decide (x.toBits.toNat / 2 ^ 63 = 1) := by
    rw [beq_eq_decide, decide_eq_decide, ← UInt64.toNat_inj, UInt64.toNat_shiftRight,
      Nat.shiftRight_eq_div_pow]
    rfl
  have hpower : ((x.toBits >>> 52) &&& 0x7FF).toNat = x.toBits.toNat / 2 ^ 52 % 2 ^ 11 := by
    rw [UInt64.toNat_and, UInt64.toNat_shiftRight, Nat.shiftRight_eq_div_pow]
    exact Nat.and_two_pow_sub_one_eq_mod _ 11
  have hfraction : (x.toBits &&& 0xFFFFFFFFFFFFF).toNat = x.toBits.toNat % 2 ^ 52 := by
    rw [UInt64.toNat_and]
    exact Nat.and_two_pow_sub_one_eq_mod _ 52
  simp only [ofFloat?, hsign, hpower, hfraction, Nat.pow_eq]

theorem canonical_of_ofFloat? {x : Float} {a : FloatValue} (h : ofFloat? x = some a) :
    a.Canonical := by
  rw [ofFloat?_eq] at h
  have hfraction : x.toBits.toNat % 2 ^ 52 < 2 ^ 52 := Nat.mod_lt _ (by decide)
  split at h
  · cases h
  · split at h
    · cases h
      refine ⟨?_, .inl rfl⟩
      dsimp only
      omega
    · cases h
      constructor
      · dsimp only
        omega
      · dsimp only
        omega

/-- A float is told by its exact value. -/
theorem eq_of_ofFloat? {x y : Float} {a : FloatValue} (hx : ofFloat? x = some a)
    (hy : ofFloat? y = some a) : x = y := by
  rw [← Float.toBits_inj, ← UInt64.toNat_inj]
  have hxlt := x.toBits.toNat_lt
  have hylt := y.toBits.toNat_lt
  rw [ofFloat?_eq] at hx hy
  generalize x.toBits.toNat = m at hx hxlt ⊢
  generalize y.toBits.toNat = n at hy hylt ⊢
  have hequal : ∀ {p q : Prop} [Decidable p] [Decidable q], decide p = decide q → (p ↔ q) :=
    fun h => decide_eq_decide.1 h
  rcases a with ⟨negative, mantissa, exponent⟩
  split at hx
  · cases hx
  · split at hy
    · cases hy
    · split at hx <;> split at hy <;> simp only [Option.some.injEq, FloatValue.mk.injEq] at hx hy
      · have hsign := hequal (hx.1.trans hy.1.symm)
        omega
      · omega
      · omega
      · have hsign := hequal (hx.1.trans hy.1.symm)
        omega

end FloatValue

namespace Decimal

/-- The value of a decimal. -/
def value (d : Decimal) : ℚ :=
  d.digits * (10 : ℚ) ^ d.exponent

/-! ## Exact comparison -/

theorem zpow_mul_pow_toNat {b : ℚ} (hb : b ≠ 0) (i : ℤ) :
    b ^ i * b ^ (-i).toNat = b ^ i.toNat := by
  have hi : i + ((-i).toNat : ℤ) = (i.toNat : ℤ) := by omega
  rw [← zpow_natCast, ← zpow_natCast, ← zpow_add₀ hb, hi]

/-- The comparison of scaled numbers is that of their values. -/
theorem compareScaled_eq (a : ℕ) (i : ℤ) (b : ℕ) (j : ℤ) :
    compareScaled a i b j = compare ((a : ℚ) * 10 ^ i) (b * 2 ^ j) := by
  have hscale : (0 : ℚ) < 10 ^ (-i).toNat * 2 ^ (-j).toNat := by positivity
  have hleft : ((a * Nat.pow 10 i.toNat * Nat.pow 2 (-j).toNat : ℕ) : ℚ)
      = a * 10 ^ i * (10 ^ (-i).toNat * 2 ^ (-j).toNat) := by
    have hten := zpow_mul_pow_toNat (b := 10) (by norm_num) i
    push_cast [Nat.pow_eq]
    rw [← hten]
    ring
  have hright : ((b * Nat.pow 2 j.toNat * Nat.pow 10 (-i).toNat : ℕ) : ℚ)
      = b * 2 ^ j * (10 ^ (-i).toNat * 2 ^ (-j).toNat) := by
    have htwo := zpow_mul_pow_toNat (b := 2) (by norm_num) j
    push_cast [Nat.pow_eq]
    rw [← htwo]
    ring
  unfold compareScaled
  rcases lt_trichotomy ((a : ℚ) * 10 ^ i) (b * 2 ^ j) with h | h | h
  · rw [compare_lt_iff_lt.2 h, compare_lt_iff_lt, ← Nat.cast_lt (α := ℚ), hleft, hright]
    exact mul_lt_mul_of_pos_right h hscale
  · rw [compare_eq_iff_eq.2 h, compare_eq_iff_eq, ← Nat.cast_inj (R := ℚ), hleft, hright, h]
  · rw [compare_gt_iff_gt.2 h, compare_gt_iff_gt, ← Nat.cast_lt (α := ℚ), hleft, hright]
    exact mul_lt_mul_of_pos_right h hscale

/-! ## The interval of a float -/

/-- Four times the mantissa of the lower end. -/
def lowEnd (x : FloatValue) : ℕ :=
  if narrowBelow x then 4 * x.mantissa - 1 else 4 * x.mantissa - 2

/-- A quarter of the last place of the mantissa. -/
def quarter (x : FloatValue) : ℚ :=
  2 ^ (x.exponent - 2)

theorem quarter_pos (x : FloatValue) : 0 < quarter x := by
  unfold quarter
  positivity

/-- The number rounds to the float: it lies within half a place, the ends included if the mantissa is
even. -/
structure RoundsTo (x : FloatValue) (q : ℚ) : Prop where
  notBelow : lowEnd x * quarter x ≤ q
  notAbove : q ≤ (4 * x.mantissa + 2 : ℕ) * quarter x
  even : q = lowEnd x * quarter x ∨ q = (4 * x.mantissa + 2 : ℕ) * quarter x → x.mantissa % 2 = 0

theorem roundsTo_of_readsBack {x : FloatValue} {d : Decimal} (h : readsBack x d = true) :
    RoundsTo x d.value := by
  simp only [readsBack, compareScaled_eq, Bool.and_eq_true, Bool.or_eq_true, beq_iff_eq,
    decide_eq_true_eq, compare_gt_iff_gt, compare_eq_iff_eq, compare_lt_iff_lt] at h
  change (lowEnd x * quarter x < d.value ∨ x.mantissa % 2 = 0 ∧ d.value = lowEnd x * quarter x) ∧
    (d.value < (4 * x.mantissa + 2 : ℕ) * quarter x ∨
      x.mantissa % 2 = 0 ∧ d.value = (4 * x.mantissa + 2 : ℕ) * quarter x) at h
  obtain ⟨hlow, hhigh⟩ := h
  refine ⟨?_, ?_, ?_⟩
  · rcases hlow with hlow | ⟨-, hlow⟩
    · exact hlow.le
    · exact hlow.ge
  · rcases hhigh with hhigh | ⟨-, hhigh⟩
    · exact hhigh.le
    · exact hhigh.le
  · rintro (heq | heq)
    · rcases hlow with hlow | ⟨heven, -⟩
      · exact absurd heq hlow.ne'
      · exact heven
    · rcases hhigh with hhigh | ⟨heven, -⟩
      · exact absurd heq hhigh.ne
      · exact heven

/-- A positive value rounds to itself. -/
theorem roundsTo_magnitude {x : FloatValue} (hpos : 0 < x.mantissa) : RoundsTo x x.magnitude := by
  have hvalue : x.magnitude = (4 * x.mantissa : ℕ) * quarter x := by
    have hplace : (2 : ℚ) ^ x.exponent = 4 * quarter x := by
      unfold quarter
      rw [zpow_sub₀ (by norm_num)]
      ring
    push_cast
    rw [FloatValue.magnitude, hplace]
    ring
  have hlow : lowEnd x < 4 * x.mantissa := by
    unfold lowEnd
    split <;> omega
  have hbelow : (lowEnd x : ℚ) * quarter x < x.magnitude := by
    rw [hvalue]
    exact mul_lt_mul_of_pos_right (Nat.cast_lt.2 hlow) (quarter_pos x)
  have habove : x.magnitude < (4 * x.mantissa + 2 : ℕ) * quarter x := by
    rw [hvalue]
    exact mul_lt_mul_of_pos_right (Nat.cast_lt.2 (by omega)) (quarter_pos x)
  refine ⟨hbelow.le, habove.le, ?_⟩
  rintro (heq | heq)
  · exact absurd heq hbelow.ne'
  · exact absurd heq habove.ne

/-! ## Different floats -/

theorem lowEnd_ge {y : FloatValue} (hy : y.Canonical) (hnormal : -1074 < y.exponent) :
    2 ^ 54 - 1 ≤ lowEnd y := by
  have hfull : 2 ^ 52 ≤ y.mantissa := by
    rcases hy.full with hleast | ⟨-, hfull⟩
    · omega
    · exact hfull
  unfold lowEnd narrowBelow
  split
  · omega
  · rename_i hwide
    have hmore : y.mantissa ≠ 2 ^ 52 := by
      intro heq
      simp [heq, hnormal] at hwide
    omega

/-- If the interval of one float ends no later than that of another begins, then they meet at this
end at most, and there both mantissas are even. -/
theorem even_of_meet {x y : FloatValue} {q : ℚ} {low : ℕ}
    (hlow : lowEnd y * quarter y = low * quarter x) (hends : 4 * x.mantissa + 2 ≤ low)
    (hxq : RoundsTo x q) (hyq : RoundsTo y q) :
    4 * x.mantissa + 2 = low ∧ x.mantissa % 2 = 0 ∧ y.mantissa % 2 = 0 := by
  have hbegin : (low : ℚ) * quarter x ≤ q := hlow ▸ hyq.notBelow
  have hmeet : (low : ℚ) ≤ (4 * x.mantissa + 2 : ℕ) :=
    le_of_mul_le_mul_right (hbegin.trans hxq.notAbove) (quarter_pos x)
  obtain rfl : 4 * x.mantissa + 2 = low := le_antisymm hends (Nat.cast_le.1 hmeet)
  have hend : q = (4 * x.mantissa + 2 : ℕ) * quarter x := le_antisymm hxq.notAbove hbegin
  exact ⟨rfl, hxq.even (.inr hend), hyq.even (.inl (hend.trans hlow.symm))⟩

/-- No number rounds to two floats, of which the one has the smaller exponent. -/
theorem not_roundsTo_of_exponent_lt {x y : FloatValue} {q : ℚ} (hx : x.Canonical) (hy : y.Canonical)
    (hlt : x.exponent < y.exponent) (hxq : RoundsTo x q) : ¬ RoundsTo y q := by
  intro hyq
  have hnormal : -1074 < y.exponent := by
    rcases hx.full with h | ⟨h, -⟩ <;> omega
  obtain ⟨k, hk⟩ : ∃ k : ℕ, y.exponent = x.exponent + (k + 1 : ℕ) :=
    ⟨(y.exponent - x.exponent - 1).toNat, by omega⟩
  have hquarter : quarter y = 2 ^ (k + 1) * quarter x := by
    unfold quarter
    rw [← zpow_natCast, ← zpow_add₀ (by norm_num), hk]
    congr 1
    omega
  have hends : 4 * x.mantissa + 2 ≤ lowEnd y * 2 ^ (k + 1) ∧
      (4 * x.mantissa + 2 = lowEnd y * 2 ^ (k + 1) → x.mantissa % 2 = 1) := by
    have hlow := lowEnd_ge hy hnormal
    have htwice : (2 ^ 54 - 1) * 2 ≤ lowEnd y * 2 ^ (k + 1) :=
      Nat.mul_le_mul hlow (by rw [pow_succ]; have := Nat.one_le_two_pow (n := k); omega)
    have hbound := hx.bounded
    omega
  have hlow : lowEnd y * quarter y = (lowEnd y * 2 ^ (k + 1) : ℕ) * quarter x := by
    rw [hquarter]
    push_cast
    ring
  obtain ⟨heq, heven, -⟩ := even_of_meet hlow hends.1 hxq hyq
  have hodd := hends.2 heq
  omega

/-- No number rounds to two floats with one exponent. -/
theorem not_roundsTo_of_mantissa_lt {x y : FloatValue} {q : ℚ} (hexponent : x.exponent = y.exponent)
    (hlt : x.mantissa < y.mantissa) (hxq : RoundsTo x q) : ¬ RoundsTo y q := by
  intro hyq
  have hends : 4 * x.mantissa + 2 ≤ lowEnd y ∧
      (4 * x.mantissa + 2 = lowEnd y → y.mantissa = x.mantissa + 1) := by
    unfold lowEnd
    split <;> omega
  have hlow : lowEnd y * quarter y = lowEnd y * quarter x := by
    rw [quarter, quarter, hexponent]
  obtain ⟨heq, hxeven, hyeven⟩ := even_of_meet hlow hends.1 hxq hyq
  have hnext := hends.2 heq
  omega

/-- A number rounds to one float only. -/
theorem eq_of_roundsTo {x y : FloatValue} {q : ℚ} (hx : x.Canonical) (hy : y.Canonical)
    (hxq : RoundsTo x q) (hyq : RoundsTo y q) :
    x.mantissa = y.mantissa ∧ x.exponent = y.exponent := by
  have hexponent : x.exponent = y.exponent := by
    rcases lt_trichotomy x.exponent y.exponent with hlt | heq | hlt
    · exact absurd hyq (not_roundsTo_of_exponent_lt hx hy hlt hxq)
    · exact heq
    · exact absurd hxq (not_roundsTo_of_exponent_lt hy hx hlt hyq)
  refine ⟨?_, hexponent⟩
  rcases lt_trichotomy x.mantissa y.mantissa with hlt | heq | hlt
  · exact absurd hyq (not_roundsTo_of_mantissa_lt hexponent hlt hxq)
  · exact heq
  · exact absurd hxq (not_roundsTo_of_mantissa_lt hexponent.symm hlt hyq)

/-! ## The fewest digits -/

theorem readsBack_of_onGrid? {x : FloatValue} {exponent : ℤ} {d : Decimal}
    (h : onGrid? x exponent = some d) : readsBack x d = true := by
  simp only [onGrid?] at h
  split at h
  · cases h
  · rename_i hbelow _
    cases h
    exact hbelow
  · rename_i _ habove
    cases h
    exact habove
  · rename_i hbelow habove
    split at h
    · cases h
      exact hbelow
    · cases h
      exact habove
    · cases h
      split <;> assumption

theorem readsBack_of_search {x : FloatValue} {k : ℤ} {count digits : ℕ} {d : Decimal}
    (h : search x k count digits = some d) : readsBack x d = true := by
  induction count generalizing digits with
  | zero => cases h
  | succ count ih =>
      unfold search at h
      split at h
      · rename_i found hgrid
        cases h
        exact readsBack_of_onGrid? hgrid
      · exact ih h

theorem value_stripZeros (n : ℕ) (d : Decimal) : (stripZeros n d).value = d.value := by
  induction n generalizing d with
  | zero => rfl
  | succ n ih =>
      unfold stripZeros
      split
      · rename_i hzero
        have hdigits : (d.digits : ℚ) = 10 * (d.digits / 10 : ℕ) := by
          exact_mod_cast (show d.digits = 10 * (d.digits / 10) by omega)
        rw [ih, value, value, zpow_add_one₀ (by norm_num), hdigits]
        ring
      · rfl

theorem value_exact (x : FloatValue) : (exact x).value = x.magnitude := by
  have htwo := zpow_mul_pow_toNat (b := 2) (by norm_num) x.exponent
  have hten : (10 : ℚ) ^ (-((-x.exponent).toNat : ℤ)) * 5 ^ (-x.exponent).toNat
      * 2 ^ (-x.exponent).toNat = 1 := by
    rw [zpow_neg, zpow_natCast, mul_assoc, ← mul_pow]
    norm_num
  have hne : (2 : ℚ) ^ (-x.exponent).toNat ≠ 0 := by positivity
  apply mul_right_cancel₀ hne
  simp only [exact, value, FloatValue.magnitude, Nat.pow_eq]
  push_cast
  calc (x.mantissa : ℚ) * 2 ^ x.exponent.toNat * 5 ^ (-x.exponent).toNat
          * 10 ^ (-((-x.exponent).toNat : ℤ)) * 2 ^ (-x.exponent).toNat
      = x.mantissa * 2 ^ x.exponent.toNat * (10 ^ (-((-x.exponent).toNat : ℤ))
          * 5 ^ (-x.exponent).toNat * 2 ^ (-x.exponent).toNat) := by ring
    _ = x.mantissa * 2 ^ x.exponent * 2 ^ (-x.exponent).toNat := by
        rw [hten, ← htwo]
        ring

/-- The fewest digits of a positive value round to it. -/
theorem roundsTo_shortest {x : FloatValue} (hpos : 0 < x.mantissa) :
    RoundsTo x (shortest x).value := by
  unfold shortest
  rw [value_stripZeros]
  cases hsearch : search x (scale x) 17 1 with
  | none =>
      rw [Option.getD_none, value_exact]
      exact roundsTo_magnitude hpos
  | some d => exact roundsTo_of_readsBack (readsBack_of_search hsearch)

end Decimal

end Parley
