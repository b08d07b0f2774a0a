import LayerSize.Proofs.Json.NumberText
import LayerSize.Proofs.Json.Overflow
import LayerSize.Proofs.PixelSize.SignedValues

/-!
# Literals of at most fifteen digits

Fifteen digits are a double without rounding, and what one more rounding does to them does not
reach a whole number: its distance is a power of ten, the distance of doubles there is less than
twice that.  So the whole part of a short literal is exact as far as it has 32 bits.  With a large
power of ten both the literal and its double have more than 32 bits, and they are too large for a
double alike; with a small one both are less than one.

* `whole_nearest_div`: fractions that are rounded once;
* `whole_convert_of_le`: powers of ten that leave no whole part;
* `int32?_convert`, `infinity_le_convert_iff`: all powers of ten;
* `int32?_magnitude`, `exists_denotes_iff_of_isShort`: literals.
-/

namespace LayerSize.Json.Literal

variable {l : Literal} {n e j k x : ℕ} {q : ℚ} {negative : Bool} {t : List Char}

/-! ## Fractions -/

/-- No double lies between a fraction of at most fifteen digits and the next whole number. -/
theorem whole_nearest_div (hn : n < 10 ^ 15) (he : e ≤ 15)
    (h : binary64.IsNearest ((n : ℚ) / 10 ^ e) k) : binary64.whole k = n / 10 ^ e := by
  have hten : 10 ^ e ≤ 10 ^ 15 := Nat.pow_le_pow_right (by decide) he
  have hpos : 0 < 10 ^ e := Nat.pow_pos (by decide)
  set m := n / 10 ^ e with hm
  have hlow : m * 10 ^ e ≤ n := Nat.div_mul_le_self n (10 ^ e)
  have hhigh : n < (m + 1) * 10 ^ e := by
    rw [hm, mul_comm]
    exact Nat.lt_mul_div_succ n hpos
  have hmax : m ≤ n := Nat.div_le_self n (10 ^ e)
  refine le_antisymm ?_ (h.le_whole (Format.represents_nat (by decide) ?_) ?_)
  · by_contra hlt
    have hvalue : ((m + 1 : ℕ) : ℚ) ≤ binary64.value k := Format.le_whole_iff.1 (by omega)
    -- the double below the whole number would be nearer, unless the fraction were this near
    obtain ⟨j, hj, hj'⟩ : ∃ j, 2 ^ j ≤ 10 ^ e ∧ 10 ^ e < 2 ^ (j + 1) :=
      ⟨Nat.log2 (10 ^ e), Nat.log2_self_le hpos.ne', Nat.lt_log2_self⟩
    have hnum : (m + 1) * 2 ^ j ≤ 2 ^ 53 := by
      calc (m + 1) * 2 ^ j ≤ (m + 1) * 10 ^ e := Nat.mul_le_mul_left (m + 1) hj
        _ = m * 10 ^ e + 10 ^ e := by ring
        _ ≤ 2 ^ 53 := by omega
    have hscale : j ≤ binary64.scale := by
      by_contra hgt
      have hle : 2 ^ binary64.scale ≤ 10 ^ 15 :=
        (Nat.pow_le_pow_right (by decide) (by omega)).trans (hj.trans hten)
      exact absurd hle (by decide +kernel)
    have hnear := h.sub_le (by decide) m.succ_pos hnum hscale hvalue
    -- and it is further away, by the last of its digits
    have hfar : (n : ℚ) / 10 ^ e ≤ (m + 1 : ℕ) - 1 / 10 ^ e := by
      have hsum : ((n + 1 : ℕ) : ℚ) / 10 ^ e ≤ (m + 1 : ℕ) := by
        rw [div_le_iff₀ (by positivity)]
        exact_mod_cast hhigh
      rw [Nat.cast_succ, add_div] at hsum
      linarith
    have hle : (2 : ℚ) ^ (j + 1) ≤ 10 ^ e :=
      (one_div_le_one_div (by positivity) (by positivity)).1 (by linarith)
    exact absurd hj' (not_lt.2 (by exact_mod_cast hle))
  · show m ≤ 2 ^ 53
    omega
  · rw [le_div_iff₀ (by positivity)]
    exact_mod_cast hlow

/-! ## Small powers of ten -/

theorem value_quotient_le (hk : binary64.value k ≤ 10 ^ 15) (hx : 16 ≤ x) :
    binary64.value (binary64.quotient k (power x)) ≤ 1 / 2 := by
  have hpower : (10 : ℚ) ^ 16 ≤ binary64.value (power x) := by
    rw [← value_power (by decide : 16 ≤ 22)]
    exact binary64.value_strictMono.monotone
      (binary64.nearest_nat_mono (Nat.pow_le_pow_right (by decide) hx))
  have hrep : binary64.Represents (1 / 2) := by
    have h := Format.represents_div (F := binary64) (m := 1) (e := 1) (by decide) (by decide)
      (by decide)
    simpa using h
  refine (binary64.isNearest_quotient k (power_pos x)).value_le hrep ?_
  rw [div_le_iff₀ (by linarith)]
  linarith

/-- One division is enough, and those after it make nothing larger. -/
theorem value_convert_le (hn : n < 10 ^ 15) (hx : 15 ≤ x) :
    binary64.value (convert n (.negSucc x)) ≤ 1 / 2 := by
  have hvalue : binary64.value (binary64.nearest n 1) ≤ 10 ^ 15 := by
    rw [value_nearest_of_le (show n ≤ 2 ^ 53 by omega)]
    exact_mod_cast hn.le
  have hconvert : convert n (.negSucc x) =
      binary64.quotient (divideByMax (x / maxPower) (binary64.nearest n 1))
        (power (x + 1 - x / maxPower * maxPower)) := rfl
  rw [hconvert]
  cases x / maxPower with
  | zero =>
    rw [divideByMax, Nat.zero_mul]
    exact value_quotient_le hvalue (by omega)
  | succ steps =>
    have hquotient : binary64.quotient (binary64.nearest n 1) (power maxPower) ≤
        binary64.infinity := binary64.nearest_le_infinity _ _
    have hdivided : binary64.value (divideByMax (steps + 1) (binary64.nearest n 1)) ≤ 1 / 2 := by
      rw [divideByMax]
      split
      · simp
      · have hle := binary64.value_strictMono.monotone (divideByMax_le hquotient steps)
        exact hle.trans (value_quotient_le hvalue (by decide))
    have hfinite := (divideByMax_le (binary64.nearest_le_infinity n 1) (steps + 1)).trans
      (binary64.nearest_le_infinity n 1)
    exact (binary64.value_strictMono.monotone (quotient_le hfinite _)).trans hdivided

/-! ## All powers of ten -/

theorem whole_convert_of_le (hn : n < 10 ^ 15) (hx : 15 ≤ x) :
    binary64.whole (convert n (.negSucc x)) = 0 ∧ n / 10 ^ (x + 1) = 0 := by
  constructor
  · by_contra hne
    have hone : ((1 : ℕ) : ℚ) ≤ binary64.value (convert n (.negSucc x)) :=
      Format.le_whole_iff.1 (by omega)
    have hhalf := value_convert_le hn hx
    push_cast at hone
    linarith
  · have hten : 10 ^ 15 ≤ 10 ^ (x + 1) := Nat.pow_le_pow_right (by decide) (by omega)
    exact Nat.div_eq_of_lt (by omega)

/-- From the next power of ten on, nothing but zero has 32 bits. -/
theorem two_pow_le_of_lt (hn : n ≠ 0) (hx : 22 < x) :
    2 ^ 53 ≤ binary64.whole (convert n (.ofNat x)) ∧ 2 ^ 53 ≤ n * 10 ^ x := by
  have hten : 2 ^ 53 ≤ 10 ^ x :=
    le_trans (by decide) (Nat.pow_le_pow_right (by decide) hx.le : 10 ^ 22 ≤ 10 ^ x)
  constructor
  · have hnear := isNearest_convert (n := 1) (x := .ofNat 22) (by decide) (by decide)
    have hwhole : 2 ^ 53 ≤ binary64.whole (convert 1 (.ofNat 22)) :=
      hnear.le_whole (Format.represents_nat (by decide) le_rfl) (by norm_num)
    exact hwhole.trans (Format.whole_mono (convert_mono (by omega) hx.le))
  · exact hten.trans (Nat.le_mul_of_pos_left _ (by omega))

theorem convert_zero_ofNat (x : ℕ) : convert 0 (.ofNat x) = 0 :=
  convert_of_nearest_eq_zero (binary64.nearest_zero Nat.one_pos) x

/-- As far as it has 32 bits, the whole part is exact. -/
theorem int32?_convert (negative : Bool) (hn : n < 10 ^ 15) (x : ℤ) :
    int32? (signed negative (binary64.whole (convert n x))) =
      int32? (signed negative (Decimal.whole ⟨n, x⟩)) := by
  have hn' : n ≤ 2 ^ 53 := by omega
  cases x with
  | ofNat x =>
    rw [Decimal.whole_ofNat]
    rcases le_or_gt x 22 with hx | hx
    · have hnear := isNearest_convert (x := .ofNat x) hn' hx
      have hnearest := binary64.isNearest_nearest (n * 10 ^ x) Nat.one_pos
      have hconvert : convert n (.ofNat x) = binary64.nearest (n * 10 ^ x) 1 := by
        refine hnear.unique ?_
        simpa using hnearest
      rw [hconvert, int32?_signed_whole_nearest]
    · by_cases hzero : n = 0
      · rw [hzero, convert_zero_ofNat, Nat.zero_mul, Format.whole_zero]
      · obtain ⟨h, h'⟩ := two_pow_le_of_lt hzero hx
        have hlargest := largest_lt_two_pow negative
        exact int32?_signed_eq_iff.2 (.inr ⟨hlargest.trans_le h, hlargest.trans_le h'⟩)
  | negSucc x =>
    rw [Decimal.whole_negSucc]
    rcases le_or_gt 15 x with hx | hx
    · obtain ⟨h, h'⟩ := whole_convert_of_le hn hx
      rw [h, h']
    · have hnear := isNearest_convert (x := .negSucc x) hn' (show x + 1 ≤ 22 by omega)
      rw [zpow_negSucc, ← div_eq_mul_inv] at hnear
      rw [whole_nearest_div hn (by omega) hnear]

/-! ## Overflow -/

/-- The least coefficient with which a power of ten is too large for a double: the product is no
less than the number halfway between the largest double and the one that would come next. -/
def tooLarge (x : ℕ) : ℕ := ((2 ^ 54 - 1) * 2 ^ 970 + 10 ^ x - 1) / 10 ^ x

/-- With one rounding coefficients lead to infinity from the same one on as with two. -/
theorem tooLarge_spec (hx : 294 ≤ x) (hx' : x ≤ maxPower) :
    convert (tooLarge x - 1) (.ofNat x) < binary64.infinity ∧
      binary64.infinity ≤ convert (tooLarge x) (.ofNat x) ∧
      binary64.nearest ((tooLarge x - 1) * 10 ^ x) 1 < binary64.infinity ∧
      binary64.infinity ≤ binary64.nearest (tooLarge x * 10 ^ x) 1 := by
  have h : ∀ i < 15, convert (tooLarge (294 + i) - 1) (.ofNat (294 + i)) < binary64.infinity ∧
      binary64.infinity ≤ convert (tooLarge (294 + i)) (.ofNat (294 + i)) ∧
      binary64.nearest ((tooLarge (294 + i) - 1) * 10 ^ (294 + i)) 1 < binary64.infinity ∧
      binary64.infinity ≤ binary64.nearest (tooLarge (294 + i) * 10 ^ (294 + i)) 1 := by
    decide +kernel
  obtain ⟨i, rfl⟩ := Nat.exists_eq_add_of_le hx
  unfold maxPower at hx'
  exact h i (by omega)

/-- No power of ten is too large here. -/
theorem convert_lt_infinity (hn : n < 10 ^ 15) (hx : x < 294) :
    convert n (.ofNat x) < binary64.infinity ∧
      binary64.nearest (n * 10 ^ x) 1 < binary64.infinity := by
  have hconvert : convert (10 ^ 15) (.ofNat 293) < binary64.infinity := by decide +kernel
  have hnearest : binary64.nearest (10 ^ 15 * 10 ^ 293) 1 < binary64.infinity := by
    decide +kernel
  constructor
  · exact (convert_mono hn.le (Nat.le_of_lt_succ hx)).trans_lt hconvert
  · have hle : ∀ y, x ≤ y → n * 10 ^ x ≤ 10 ^ 15 * 10 ^ y := fun y hy =>
      Nat.mul_le_mul hn.le (Nat.pow_le_pow_right (by decide) hy)
    exact (binary64.nearest_nat_mono (hle 293 (Nat.le_of_lt_succ hx))).trans_lt hnearest

/-- From here on all powers of ten are too large. -/
theorem infinity_le_convert (hn : n ≠ 0) (hx : maxPower < x) :
    binary64.infinity ≤ convert n (.ofNat x) ∧
      binary64.infinity ≤ binary64.nearest (n * 10 ^ x) 1 := by
  have hconvert : binary64.infinity ≤ convert 1 (.ofNat (maxPower + 1)) := by decide +kernel
  have hnearest : binary64.infinity ≤ binary64.nearest (10 ^ (maxPower + 1)) 1 := by
    decide +kernel
  have hpos : 1 ≤ n := Nat.one_le_iff_ne_zero.2 hn
  constructor
  · exact hconvert.trans (convert_mono hpos hx)
  · have hle : ∀ y, y ≤ x → 10 ^ y ≤ n * 10 ^ x := fun y hy =>
      (Nat.pow_le_pow_right (by decide) hy).trans (Nat.le_mul_of_pos_left _ hpos)
    exact hnearest.trans (binary64.nearest_nat_mono (hle (maxPower + 1) hx))

/-- A short literal is too large for the conversion if it is too large for a double. -/
theorem infinity_le_convert_iff (hn : n < 10 ^ 15) (x : ℤ) :
    binary64.infinity ≤ convert n x ↔
      binary64.infinity ≤ Decimal.nearest binary64 ⟨n, x⟩ := by
  cases x with
  | ofNat x =>
    have hnearest : Decimal.nearest binary64 ⟨n, .ofNat x⟩ = binary64.nearest (n * 10 ^ x) 1 := by
      simp [Decimal.nearest_eq]
    rw [hnearest]
    rcases lt_or_ge x 294 with hx | hx
    · obtain ⟨h, h'⟩ := convert_lt_infinity hn hx
      exact iff_of_false (not_le.2 h) (not_le.2 h')
    · rcases le_or_gt x maxPower with hmax | hmax
      · obtain ⟨hlow, hhigh, hlow', hhigh'⟩ := tooLarge_spec hx hmax
        rcases lt_or_ge n (tooLarge x) with hlt | hge
        · have h := convert_mono (show n ≤ tooLarge x - 1 by omega) (le_refl x)
          have h' := binary64.nearest_nat_mono
            (Nat.mul_le_mul_right (10 ^ x) (show n ≤ tooLarge x - 1 by omega))
          exact iff_of_false (not_le.2 (h.trans_lt hlow)) (not_le.2 (h'.trans_lt hlow'))
        · have h' := binary64.nearest_nat_mono (Nat.mul_le_mul_right (10 ^ x) hge)
          exact iff_of_true (hhigh.trans (convert_mono hge le_rfl)) (hhigh'.trans h')
      · by_cases hzero : n = 0
        · have hpos := binary64.infinity_pos
          rw [hzero, convert_zero_ofNat, Nat.zero_mul, binary64.nearest_zero Nat.one_pos]
        · obtain ⟨h, h'⟩ := infinity_le_convert hzero hmax
          exact iff_of_true h h'
  | negSucc x =>
    have hle : Decimal.value ⟨n, .negSucc x⟩ ≤ (n : ℚ) / (1 : ℕ) := by
      rw [Decimal.value, zpow_negSucc, Nat.cast_one, div_one]
      exact mul_le_of_le_one_right (Nat.cast_nonneg n) (inv_le_one_of_one_le₀ (one_le_pow₀ (by norm_num)))
    have hnearest := (Decimal.isNearest_nearest binary64 ⟨n, .negSucc x⟩).mono
      (binary64.isNearest_nearest n Nat.one_pos) hle
    have hfinite := nearest_lt_infinity (show n ≤ 2 ^ 64 by omega)
    refine iff_of_false (fun h => ?_) (not_le.2 (hnearest.trans_lt hfinite))
    obtain ⟨y, hy, -⟩ := exists_of_infinity_le_convert (show n < 2 ^ 64 by omega) h
    cases hy

/-! ## Literals -/

/-- No more than fifteen digits before and after the point. -/
def IsShort (l : Literal) : Prop := l.whole.length + (l.fraction.getD []).length ≤ 15

theorem coefficient_lt (ht : LiteralText t l) (h : l.IsShort) :
    l.numeral.decimal.coefficient < 10 ^ 15 := by
  have hdigits : ∀ d ∈ l.whole ++ l.fraction.getD [], d.isDigit = true := by
    cases ht with
    | mk _ hw hf =>
      intro d hd
      rcases List.mem_append.1 hd with hd | hd
      · exact hw.1.2 d hd
      · generalize l.fraction = fraction at hf hd
        cases hf with
        | absent => simp at hd
        | digits hfraction => exact hfraction.2 d hd
  have hlength : (l.whole ++ l.fraction.getD []).length ≤ 15 := by
    rw [List.length_append]
    exact h
  exact (digitsValue_lt hdigits).trans_le (Nat.pow_le_pow_right (by decide) hlength)

/-- An exponent that is not read to its end leads to the same double, or to zero. -/
theorem magnitude_of_isShort (ht : LiteralText t l) (h : l.IsShort) :
    l.magnitude = convert l.numeral.decimal.coefficient l.numeral.decimal.exponent ∨
      l.magnitude = 0 ∧ l.numeral.decimal.exponent ≤ -16 := by
  have hc := coefficient_lt ht h
  have hexact : l.numeral.decimal.exponent = l.writtenExponent - (l.fraction.getD []).length := rfl
  obtain ⟨hsignificand, hexponent⟩ := parts_of_lt (l := l) (by omega)
  rw [magnitude, hexponent, hsignificand]
  split
  · exact .inl rfl
  · next hbig =>
    unfold IsShort at h
    unfold maxExponent at hbig
    rcases lt_or_ge l.writtenExponent 0 with hneg | hpos
    · rw [if_pos (.inl hneg)]
      exact .inr ⟨rfl, by omega⟩
    · left
      obtain ⟨x, hx⟩ : ∃ x : ℕ, l.numeral.decimal.exponent = .ofNat x :=
        Int.eq_ofNat_of_zero_le (by omega)
      have hmax : maxPower < x := by
        have hcast : Int.ofNat x = x := rfl
        unfold maxPower
        omega
      rw [hx]
      by_cases hzero : l.numeral.decimal.coefficient = 0
      · rw [if_pos (.inr hzero), hzero, convert_zero_ofNat]
      · rw [if_neg (by omega)]
        exact le_antisymm (infinity_le_convert hzero hmax).1 (convert_ofNat_le_infinity _ _)

/-- The component of a short literal is that of its exact whole part. -/
theorem int32?_magnitude (ht : LiteralText t l) (h : l.IsShort) :
    int32? (signed l.negative (binary64.whole l.magnitude)) =
      int32? (wholePart l.numeral.value) := by
  have hc := coefficient_lt ht h
  rw [Numeral.wholePart_value]
  rcases magnitude_of_isShort ht h with hmag | ⟨hmag, hx⟩
  · rw [hmag]
    exact int32?_convert l.negative hc l.numeral.decimal.exponent
  · obtain ⟨x, hx'⟩ := Int.eq_negSucc_of_lt_zero (show l.numeral.decimal.exponent < 0 by omega)
    have hsmall : l.numeral.decimal.whole = 0 := by
      have hdecimal : l.numeral.decimal = ⟨l.numeral.decimal.coefficient, .negSucc x⟩ := by
        rw [← hx']
      rw [hdecimal, Decimal.whole_negSucc]
      exact (whole_convert_of_le hc (by omega)).2
    rw [hmag, hsmall, Format.whole_zero]
    rfl

/-- A short literal denotes a number unless its exact value is rounded to infinity. -/
theorem exists_denotes_iff_of_isShort (ht : LiteralText t l) (h : l.IsShort) :
    (∃ n, l.Denotes n) ↔ ¬ binary64.IsNearest |l.numeral.value| binary64.infinity := by
  have hc := coefficient_lt ht h
  have hoverflow := infinity_le_convert_iff hc l.numeral.decimal.exponent
  have hinfinity : binary64.IsNearest |l.numeral.value| binary64.infinity ↔
      binary64.infinity ≤ l.numeral.decimal.nearest binary64 := by
    have hle := (Decimal.isNearest_nearest binary64 l.numeral.decimal).le_infinity
    rw [Numeral.abs_value, ← Decimal.nearest_eq_iff]
    exact ⟨fun heq => heq.ge, fun hge => le_antisymm hle hge⟩
  rw [exists_denotes_iff, ← not_le, hinfinity]
  refine not_congr ?_
  rcases magnitude_of_isShort ht h with hmag | ⟨hmag, hx⟩
  · rw [hmag]
    exact hoverflow
  · have hpos := binary64.infinity_pos
    refine iff_of_false (by omega) fun hge => ?_
    obtain ⟨x, hx', -⟩ := exists_of_infinity_le_convert (by omega) (hoverflow.2 hge)
    have hcast : Int.ofNat x = x := rfl
    omega

end LayerSize.Json.Literal
