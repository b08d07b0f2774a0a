import LayerSize.Proofs.Json.Numerals

/-!
# How far the conversion of literals can be trusted

A literal is converted in several roundings.  With few digits and a small power of ten each of
them but the last is exact, so that the result is the double nearest to the literal.  An integer
too large for 64 bits loses digits, but stays far beyond 32 bits.

* `exists_denotes_iff`: literals that denote a number;
* `magnitude_of_short`: literals that are converted to the nearest double;
* `largest_lt_magnitude`: integers that lose digits.
-/

namespace LayerSize.Json.Literal

variable {l : Literal} {ds : List Char}

/-! ## Exact steps -/

/-- The powers of ten up to this one have few significant bits. -/
theorem value_power {x : Nat} (hx : x ≤ 22) : binary64.value (power x) = 10 ^ x := by
  have hten : 10 ^ x = 5 ^ x * 2 ^ x := by rw [← Nat.mul_pow]
  have hfive : 5 ^ x ≤ 2 ^ binary64.precision :=
    (Nat.pow_le_pow_right (by decide) hx).trans (by decide)
  have hmax : 5 ^ x * 2 ^ x ≤ 2 ^ 2 ^ (binary64.exponentBits - 1) := by
    rw [← hten]
    calc 10 ^ x ≤ 10 ^ 22 := Nat.pow_le_pow_right (by decide) hx
      _ ≤ 2 ^ 74 := by decide
      _ ≤ 2 ^ 2 ^ (binary64.exponentBits - 1) := Nat.pow_le_pow_right (by decide) (by decide)
  rw [power, hten, binary64.value_nearest_nat hfive hmax, ← hten]
  push_cast
  rfl

theorem one_le_power (x : Nat) : 1 ≤ binary64.value (power x) := by
  have hone : binary64.value (power 0) = 1 := by simpa using value_power (x := 0) (by decide)
  have hmono : power 0 ≤ power x :=
    binary64.nearest_nat_mono (Nat.pow_le_pow_right (by decide) (Nat.zero_le x))
  rw [← hone]
  exact binary64.value_strictMono.monotone hmono

theorem power_pos (x : Nat) : 0 < power x := by
  have hone := one_le_power x
  by_contra h0
  rw [Nat.eq_zero_of_not_pos h0, Format.value_zero] at hone
  linarith

theorem isNearest_convert {n : Nat} {x : Int} (hn : n ≤ 2 ^ 53) (hx : x.natAbs ≤ 22) :
    binary64.IsNearest (n * 10 ^ x) (convert n x) := by
  cases x with
  | ofNat x =>
    have hx' : x ≤ 22 := hx
    have h := binary64.isNearest_product (binary64.nearest n 1) (power x)
    rw [value_nearest_of_le hn, value_power hx'] at h
    rw [convert_ofNat, if_pos (hx'.trans (by decide))]
    simpa using h
  | negSucc x =>
    have hx' : x + 1 ≤ 22 := hx
    have hsteps : x / maxPower = 0 := Nat.div_eq_of_lt (by unfold maxPower; omega)
    have h := binary64.isNearest_quotient (binary64.nearest n 1) (power_pos (x + 1))
    rw [value_nearest_of_le hn, value_power hx'] at h
    have hconvert : convert n (.negSucc x) =
        binary64.quotient (binary64.nearest n 1) (power (x + 1)) := by
      unfold convert
      dsimp only
      rw [hsteps]
      rfl
    rw [hconvert, zpow_negSucc, ← div_eq_mul_inv]
    exact h

/-! ## Literals that denote a number -/

theorem nearest_lt_infinity {n : Nat} (h : n ≤ 2 ^ 64) :
    binary64.nearest n 1 < binary64.infinity :=
  (binary64.nearest_nat_mono h).trans_lt (by decide +kernel)

/-- A literal is a number if its double is finite. -/
theorem exists_denotes_iff : (∃ n, l.Denotes n) ↔ l.magnitude < binary64.infinity := by
  constructor
  · rintro ⟨n, hn⟩
    cases hn with
    | integer hint =>
      rw [magnitude_of_whole hint.1 hint.2.1 (absorb_of_isInteger hint)]
      obtain ⟨-, -, -, hlow, hhigh⟩ := hint
      refine nearest_lt_infinity ?_
      cases hneg : l.negative <;> simp [hneg, signed] at hlow hhigh <;> omega
    | @real x finite hint hs hm =>
      rw [← hm]
      exact of_decide_eq_true finite
  · intro hfinite
    by_cases hint : l.IsInteger
    · exact ⟨.integer _ hint.2.2.2, .integer hint rfl⟩
    · let x : Binary binary64 :=
        ⟨l.negative, l.magnitude, hfinite.trans binary64.infinity_lt_size⟩
      exact ⟨.real x (decide_eq_true hfinite), .real hint rfl rfl⟩

/-! ## Short literals -/

/-- Where 64 bits have room for all digits, they are converted as they are written. -/
theorem parts_of_lt (hc : l.numeral.decimal.coefficient < 2 ^ 64) :
    l.significand = l.numeral.decimal.coefficient ∧
      l.shift + l.writtenExponent = l.numeral.decimal.exponent := by
  have happ : l.numeral.decimal.coefficient =
      Nat.ofDigitChars 10 (l.fraction.getD []) (digitsValue l.whole) := by
    rw [numeral, digitsValue, Nat.ofDigitChars_append]
    rfl
  have hle := le_ofDigitChars (l.fraction.getD []) (digitsValue l.whole)
  have hwhole : absorb 0 l.whole = (digitsValue l.whole, []) :=
    absorb_of_lt (show digitsValue l.whole < 2 ^ 64 by omega)
  have hall : absorb (digitsValue l.whole) (l.fraction.getD []) =
      (l.numeral.decimal.coefficient, []) := by
    rw [happ]
    exact absorb_of_lt (by omega)
  constructor
  · rw [significand, hwhole, hall]
  · rw [shift, hwhole, hall]
    simp [numeral]
    omega

/-- Digits of 53 bits and a power of ten up to the twenty-second lead to the nearest double. -/
theorem magnitude_of_short (hc : l.numeral.decimal.coefficient ≤ 2 ^ 53)
    (hx : l.numeral.decimal.exponent.natAbs ≤ 22) (he : l.writtenExponent.natAbs ≤ maxExponent) :
    l.magnitude = l.numeral.decimal.nearest binary64 := by
  obtain ⟨hsignificand, hexponent⟩ := parts_of_lt (l := l) (by omega)
  rw [magnitude, if_pos he, hsignificand, hexponent]
  exact (isNearest_convert hc hx).unique (Decimal.isNearest_nearest ..)

/-! ## Integers that lose digits -/

theorem absorb_full {n m : Nat} {d : Char} {dropped : List Char}
    (h : absorb n ds = (m, d :: dropped)) : 2 ^ 64 ≤ 10 * m + digitValue d := by
  induction ds generalizing n with
  | nil => simp [absorb] at h
  | cons c ds ih =>
    rw [absorb] at h
    split at h
    · exact ih h
    · next hbig =>
      simp only [Prod.mk.injEq, List.cons.injEq] at h
      obtain ⟨rfl, rfl, -⟩ := h
      omega

/-- A number to which no more than one digit can be appended in 64 bits. -/
def Full (m : Nat) : Prop := 2 ^ 64 ≤ 10 * m + 9

theorem full_absorb {n : Nat} (hdigits : ∀ d ∈ ds, d.isDigit = true) (h : (absorb n ds).2 ≠ []) :
    Full (absorb n ds).1 := by
  obtain ⟨d, dropped, hdropped⟩ := List.exists_cons_of_ne_nil h
  obtain ⟨kept, hds, -⟩ := absorb_eq (Prod.eta (absorb n ds)).symm
  have hdigit : digitValue d < 10 := by
    refine digitValue_lt (hdigits d ?_)
    rw [hds, hdropped]
    simp
  have hfull : 2 ^ 64 ≤ 10 * (absorb n ds).1 + digitValue d := absorb_full (Prod.ext rfl hdropped)
  unfold Full
  omega

/-- Rounding up to the double `2 ^ 53` and multiplying leads to no less than it. -/
theorem two_pow_le_whole_convert {n : Nat} (hn : 2 ^ 53 ≤ n) (x : Nat) :
    2 ^ 53 ≤ binary64.whole (convert n x) := by
  have hexact : binary64.value (binary64.nearest (2 ^ 53) 1) = (2 ^ 53 : Nat) :=
    value_nearest_of_le le_rfl
  have hmono := binary64.nearest_nat_mono hn
  have hvalue : (2 ^ 53 : Nat) ≤ binary64.value (binary64.nearest n 1) := by
    rw [← hexact]
    exact binary64.value_strictMono.monotone hmono
  rw [Format.le_whole_iff, ← hexact]
  apply binary64.value_strictMono.monotone
  change _ ≤ convert n (.ofNat x)
  rw [convert_ofNat]
  split
  · refine (Format.isNearest_value (binary64.nearest_le_infinity _ _)).mono
      (binary64.isNearest_product (binary64.nearest n 1) (power x)) ?_
    rw [hexact]
    calc ((2 ^ 53 : Nat) : ℚ) ≤ binary64.value (binary64.nearest n 1) := hvalue
      _ ≤ binary64.value (binary64.nearest n 1) * binary64.value (power x) :=
          le_mul_of_one_le_right (binary64.value_nonneg _) (one_le_power x)
  · split
    · next h0 =>
      rw [h0, Format.value_zero] at hvalue
      norm_num at hvalue
    · exact binary64.nearest_le_infinity _ _

/-- An integer literal that loses digits has a double far beyond 32 bits. -/
theorem largest_lt_magnitude {negative : Bool} (hdigits : ∀ d ∈ l.whole, d.isDigit = true)
    (hf : l.fraction = none) (he : l.exponent = none) (hd : (absorb 0 l.whole).2 ≠ []) :
    largest negative < binary64.whole l.magnitude := by
  obtain ⟨d, dropped, hdropped⟩ := List.exists_cons_of_ne_nil hd
  have hfull : 2 ^ 64 ≤ 10 * (absorb 0 l.whole).1 + 9 := full_absorb hdigits hd
  have hmagnitude : l.magnitude = convert (absorb 0 l.whole).1 (dropped.length + 1 : Nat) := by
    simp [magnitude, writtenExponent, significand, shift, he, hf, hdropped, absorb]
  rw [hmagnitude]
  exact (largest_lt_two_pow negative).trans_le (two_pow_le_whole_convert (by omega) _)

end LayerSize.Json.Literal
