import LayerSize.Proofs.Json.Conversion

/-!
# Literals that are too large and go on

A literal that denotes no number is too large.  It may be the start of a longer literal, and
the longer one may be a number again, but only because of a negative exponent: more digits and a
positive exponent do not make it smaller, however it is rounded.

* `LiteralText.extends`: what a longer literal has in common with its start;
* `Literal.exponent_of_denotes`: when a literal that is too large becomes a number.
-/

namespace LayerSize.Json

variable {l l' : Literal} {ds ds' cs cs' t w w' : List Char}

/-! ## Literals that go on -/

namespace Literal

/-- The second literal is the first one with more digits of its last part.  Other parts may
follow, unless that is the exponent. -/
inductive Extends (l l' : Literal) : Prop where
  | whole {more : List Char} (hf : l.fraction = none) (he : l.exponent = none)
      (hw : l'.whole = l.whole ++ more)
  | fraction {ds more : List Char} (hw : l'.whole = l.whole) (hds : ds ≠ [])
      (hf : l.fraction = some ds) (hf' : l'.fraction = some (ds ++ more)) (he : l.exponent = none)
  | exponent {negative : Bool} {ds more : List Char} (hw : l'.whole = l.whole)
      (hf : l'.fraction = l.fraction) (he : l.exponent = some (negative, ds))
      (he' : l'.exponent = some (negative, ds ++ more))

end Literal

/-- Where one run of digits ends, the other one goes on. -/
theorem digits_append_eq (hds : ∀ d ∈ ds, d.isDigit = true) (hcs' : NoDigit cs')
    (h : ds ++ cs = ds' ++ cs') : ∃ more, ds' = ds ++ more ∧ cs = more ++ cs' := by
  rcases List.append_eq_append_iff.1 h with ⟨more, rfl, rfl⟩ | ⟨more, rfl, rfl⟩
  · exact ⟨more, rfl, rfl⟩
  · cases more with
    | nil => exact ⟨[], by simp, rfl⟩
    | cons d more =>
      have hdigit : d.isDigit = true := hds d (by simp)
      have hno : d.isDigit = false := hcs' d rfl
      rw [hdigit] at hno
      cases hno

/-- Both runs of digits end at the same place. -/
theorem digits_append_inj (hds : ∀ d ∈ ds, d.isDigit = true) (hds' : ∀ d ∈ ds', d.isDigit = true)
    (hcs : NoDigit cs) (hcs' : NoDigit cs') (h : ds ++ cs = ds' ++ cs') : ds = ds' ∧ cs = cs' := by
  have hrun := digitRun_append hds hcs
  rw [h, digitRun_append hds' hcs'] at hrun
  obtain ⟨rfl, rfl⟩ := Prod.mk.inj hrun
  exact ⟨rfl, rfl⟩

section

variable {e e' f f' : List Char} {fraction fraction' : Option (List Char)}
  {exponent exponent' : Option (Bool × List Char)}

theorem exponentText_append (h : ExponentText e exponent) (hne : e ≠ [])
    (h' : ExponentText (e ++ w') exponent') :
    ∃ negative ds, exponent = some (negative, ds) ∧ exponent' = some (negative, ds ++ w') := by
  have hsign : ¬ ('+').isDigit = true ∧ ¬ ('-').isDigit = true := by decide
  cases h with
  | absent => exact absurd rfl hne
  | @unsigned c ds hc hds =>
    obtain ⟨hne, hdigits⟩ := hds
    cases ds with
    | nil => exact absurd rfl hne
    | cons d ds =>
      have hd := hdigits d (List.mem_cons_self ..)
      cases h' with
      | unsigned => exact ⟨false, _, rfl, rfl⟩
      | plus => exact absurd hd hsign.1
      | minus => exact absurd hd hsign.2
  | plus hc hds =>
    cases h' with
    | unsigned _ hds' => exact absurd (hds'.2 _ (List.mem_cons_self ..)) hsign.1
    | plus => exact ⟨false, _, rfl, rfl⟩
  | minus hc hds =>
    cases h' with
    | unsigned _ hds' => exact absurd (hds'.2 _ (List.mem_cons_self ..)) hsign.2
    | minus => exact ⟨true, _, rfl, rfl⟩

/-- Where an exponent follows, the fraction is complete. -/
theorem fractionText_append_inj (hf : FractionText f fraction) (hf' : FractionText f' fraction')
    (hcs : NoDigit cs ∧ cs.head? ≠ some '.') (hcs' : NoDigit cs' ∧ cs'.head? ≠ some '.')
    (h : f ++ cs = f' ++ cs') : fraction = fraction' ∧ cs = cs' := by
  cases hf with
  | absent =>
    cases hf' with
    | absent => exact ⟨rfl, h⟩
    | digits => exact absurd (by rw [show cs = _ from h]; rfl) hcs.2
  | digits hds =>
    cases hf' with
    | absent => exact absurd (by rw [← show _ = cs' from h]; rfl) hcs'.2
    | digits hds' =>
      obtain ⟨rfl, rfl⟩ := digits_append_inj hds.2 hds'.2 hcs.1 hcs'.1 (List.cons.inj h).2
      exact ⟨rfl, rfl⟩

/-- Where nothing follows, the fraction may go on. -/
theorem fractionText_append (hds : Digits ds) (hf' : FractionText f' fraction')
    (hcs' : NoDigit cs' ∧ cs'.head? ≠ some '.') (h : '.' :: ds ++ cs = f' ++ cs') :
    ∃ more, fraction' = some (ds ++ more) := by
  cases hf' with
  | absent => exact absurd (by rw [← show _ = cs' from h]; rfl) hcs'.2
  | digits hds' =>
    obtain ⟨more, rfl, -⟩ := digits_append_eq hds.2 hcs'.1 (List.cons.inj h).2
    exact ⟨more, rfl⟩

end

theorem sign_append_inj {negative negative' : Bool} (hcs : cs.head? ≠ some '-')
    (hcs' : cs'.head? ≠ some '-')
    (h : (if negative then ['-'] else []) ++ cs = (if negative' then ['-'] else []) ++ cs') :
    cs = cs' := by
  cases negative with
  | false =>
    cases negative' with
    | false => exact h
    | true => exact absurd (by rw [show cs = '-' :: cs' from h]; rfl) hcs
  | true =>
    cases negative' with
    | false => exact absurd (by rw [← show '-' :: cs = cs' from h]; rfl) hcs'
    | true => exact (List.cons.inj h).2

/-- The parts of the longer literal are found where those of the shorter one are, from the
sign to the last of them. -/
theorem LiteralText.extends (h : LiteralText w l) (h' : LiteralText (w ++ w') l') :
    l.Extends l' := by
  generalize htext : w ++ w' = t at h'
  cases h with
  | @mk sign f e _ hs hw hf he =>
  cases h' with
  | @mk sign' f' e' _ hs' hw' hf' he' =>
  have hbody : l.whole ++ (f ++ (e ++ w')) = l'.whole ++ (f' ++ e') := by
    rw [hs, hs', List.append_assoc, List.append_assoc, List.append_assoc] at htext
    exact sign_append_inj (Literal.whole_starts hw _) (Literal.whole_starts hw' _) htext
  have hstart' : NoDigit e' ∧ e'.head? ≠ some '.' := by
    simpa using Literal.exponent_starts he' (show NoLiteral [] by simp [NoLiteral])
  have hfraction' : NoDigit (f' ++ e') := Literal.fraction_starts hf' hstart'.1
  by_cases hne : e = []
  · subst hne
    have hexponent : l.exponent = none := by
      generalize l.exponent = exponent at he
      cases he
      rfl
    rw [List.nil_append] at hbody
    generalize hfraction : l.fraction = fraction at hf
    cases hf with
    | absent =>
      obtain ⟨more, hmore, -⟩ := digits_append_eq hw.1.2 hfraction' hbody
      exact .whole hfraction hexponent hmore
    | @digits ds hds =>
      obtain ⟨hwhole, hrest⟩ := digits_append_inj hw.1.2 hw'.1.2 (by simp [NoDigit]) hfraction' hbody
      obtain ⟨more, hmore⟩ := fractionText_append hds hf' hstart' hrest
      exact .fraction hwhole.symm hds.1 hfraction hmore hexponent
  · have hstart := Literal.exponent_starts_of_ne_nil he hne w'
    obtain ⟨hwhole, hrest⟩ := digits_append_inj hw.1.2 hw'.1.2 (Literal.fraction_starts hf hstart.1)
      hfraction' hbody
    obtain ⟨hfraction, rfl⟩ := fractionText_append_inj hf hf' hstart hstart' hrest
    obtain ⟨negative, ds, hexponent, hexponent'⟩ := exponentText_append he hne he'
    exact .exponent hwhole.symm hfraction.symm hexponent hexponent'

/-! ## Larger exponents -/

namespace Literal

variable {m n n' : Nat}

theorem convert_ofNat_le_infinity (n x : Nat) : convert n (.ofNat x) ≤ binary64.infinity := by
  rw [convert_ofNat]
  split
  · exact (binary64.isNearest_product _ _).le_infinity
  · split
    · exact Nat.zero_le _
    · exact le_rfl

theorem convert_of_nearest_eq_zero (h : binary64.nearest n 1 = 0) (x : Nat) :
    convert n (.ofNat x) = 0 := by
  rw [convert_ofNat, h]
  split
  · refine Nat.le_zero.1 ?_
    refine (binary64.isNearest_product 0 (power x)).mono (Format.isNearest_value (Nat.zero_le _)) ?_
    simp
  · rfl

/-- Neither more digits nor a larger power make the double smaller. -/
theorem convert_mono {x x' : Nat} (hn : n ≤ n') (hx : x ≤ x') :
    convert n (.ofNat x) ≤ convert n' (.ofNat x') := by
  have hnearest : binary64.nearest n 1 ≤ binary64.nearest n' 1 := binary64.nearest_nat_mono hn
  have hvalue := binary64.value_strictMono.monotone hnearest
  have hpower : power x ≤ power x' :=
    binary64.nearest_nat_mono (Nat.pow_le_pow_right (by decide) hx)
  by_cases hx' : x' ≤ maxPower
  · rw [convert_ofNat, convert_ofNat, if_pos hx', if_pos (hx.trans hx')]
    refine (binary64.isNearest_product _ _).mono (binary64.isNearest_product _ _) ?_
    exact mul_le_mul hvalue (binary64.value_strictMono.monotone hpower)
      (binary64.value_nonneg _) (binary64.value_nonneg _)
  · by_cases hzero : binary64.nearest n' 1 = 0
    · rw [convert_of_nearest_eq_zero (by omega) x]
      exact Nat.zero_le _
    · rw [convert_ofNat n' x', if_neg hx', if_neg hzero]
      exact convert_ofNat_le_infinity n x

theorem quotient_le {k : Nat} (hk : k ≤ binary64.infinity) (x : Nat) :
    binary64.quotient k (power x) ≤ k := by
  refine (binary64.isNearest_quotient k (power_pos x)).mono (Format.isNearest_value hk) ?_
  exact div_le_self (binary64.value_nonneg k) (one_le_power x)

theorem divideByMax_le {k : Nat} (hk : k ≤ binary64.infinity) (steps : Nat) :
    divideByMax steps k ≤ k := by
  induction steps generalizing k with
  | zero => exact le_rfl
  | succ steps ih =>
    rw [divideByMax]
    split
    · exact Nat.zero_le _
    · have hle := quotient_le hk maxPower
      exact (ih (hle.trans hk)).trans hle

/-- A number of 64 bits is too large only with a positive exponent. -/
theorem exists_of_infinity_le_convert {x : Int} (hn : n < 2 ^ 64)
    (h : binary64.infinity ≤ convert n x) : ∃ y : Nat, x = .ofNat y ∧ 0 < y := by
  have hfinite := nearest_lt_infinity hn.le
  cases x with
  | ofNat y =>
    refine ⟨y, rfl, ?_⟩
    by_contra h0
    obtain rfl : y = 0 := by omega
    have hzero : convert n (.ofNat 0) = binary64.nearest n 1 := convert_zero n
    omega
  | negSucc y =>
    have hnearest := binary64.nearest_le_infinity n 1
    have hsteps := divideByMax_le hnearest (y / maxPower)
    have hle : convert n (.negSucc y) ≤ divideByMax (y / maxPower) (binary64.nearest n 1) :=
      quotient_le (hsteps.trans hnearest) _
    omega

theorem infinity_le_convert_of_le {x x' : Int} (hn : n < 2 ^ 64) (hx : x ≤ x')
    (h : binary64.infinity ≤ convert n x) : binary64.infinity ≤ convert n x' := by
  obtain ⟨y, rfl, -⟩ := exists_of_infinity_le_convert hn h
  obtain ⟨y', rfl⟩ := Int.eq_ofNat_of_zero_le ((Int.natCast_nonneg y).trans hx)
  exact h.trans (convert_mono le_rfl (Int.ofNat_le.1 hx))

theorem ne_zero_of_infinity_le_convert {x : Int} (h : binary64.infinity ≤ convert n x) : n ≠ 0 := by
  rintro rfl
  obtain ⟨y, rfl, -⟩ := exists_of_infinity_le_convert (by decide) h
  rw [convert_of_nearest_eq_zero (binary64.nearest_zero Nat.one_pos)] at h
  exact absurd h (Nat.not_le.2 binary64.infinity_pos)

theorem significand_ne_zero (h : binary64.infinity ≤ l.magnitude) : l.significand ≠ 0 := by
  have hpos := binary64.infinity_pos
  unfold magnitude at h
  split at h
  · exact ne_zero_of_infinity_le_convert h
  · split at h
    · omega
    · next hne => exact fun h0 => hne (.inr h0)

theorem absorb_fst_lt (h : n < 2 ^ 64) : (absorb n ds).1 < 2 ^ 64 := by
  induction ds generalizing n with
  | nil => exact h
  | cons d ds ih =>
    rw [absorb]
    split
    · next hfits => exact ih hfits
    · exact h

theorem significand_lt (l : Literal) : l.significand < 2 ^ 64 :=
  absorb_fst_lt (absorb_fst_lt (by decide))

/-- An exponent that is not negative makes no double smaller. -/
theorem infinity_le_magnitude_of_convert (hw : 0 ≤ l.writtenExponent)
    (h : binary64.infinity ≤ convert l.significand l.shift) :
    binary64.infinity ≤ l.magnitude := by
  unfold magnitude
  split
  · exact infinity_le_convert_of_le l.significand_lt (by omega) h
  · rw [if_neg]
    have hne := ne_zero_of_infinity_le_convert h
    omega

theorem infinity_le_convert_of_magnitude (he : l.exponent = none)
    (h : binary64.infinity ≤ l.magnitude) : binary64.infinity ≤ convert l.significand l.shift := by
  have hw : l.writtenExponent = 0 := by simp [writtenExponent, he]
  rwa [magnitude, hw, if_pos (by simp), add_zero] at h

/-! ## More digits -/

/-- Once a digit is dropped, so are those after it. -/
theorem absorb_append (h : (absorb n ds).2 ≠ []) (more : List Char) :
    absorb n (ds ++ more) = ((absorb n ds).1, (absorb n ds).2 ++ more) := by
  induction ds generalizing n with
  | nil => exact absurd rfl h
  | cons d ds ih =>
    rw [absorb] at h
    rw [List.cons_append, absorb, absorb]
    split at h
    · next hfits =>
      rw [if_pos hfits, if_pos hfits]
      exact ih h
    · next hbig => rw [if_neg hbig, if_neg hbig]; rfl

theorem absorb_of_le (h : 2 ^ 64 ≤ 10 * n) (cs : List Char) : absorb n cs = (n, cs) := by
  cases cs with
  | nil => rfl
  | cons c cs => rw [absorb, if_neg (by omega)]

theorem absorb_of_full (hm : Full m) (c : Char) (cs : List Char) :
    absorb m (c :: cs) =
      if 10 * m + digitValue c < 2 ^ 64 then (10 * m + digitValue c, cs) else (m, c :: cs) := by
  unfold Full at hm
  rw [absorb]
  split
  · exact absorb_of_le (by omega) cs
  · rfl

/-- What comes after the first digit does not count. -/
theorem absorb_append_of_full (hm : Full m) (hds : ds ≠ []) (more : List Char) :
    absorb m (ds ++ more) = ((absorb m ds).1, (absorb m ds).2 ++ more) := by
  cases ds with
  | nil => exact absurd rfl hds
  | cons d ds =>
    rw [List.cons_append, absorb_of_full hm, absorb_of_full hm]
    split <;> rfl

/-- There is one number to which a digit can be appended, and it is too large from the same
power on, less one, as the number with the digit. -/
theorem infinity_le_convert_digit {c : Nat} {x : Int} (hm : Full m) (hc : 10 * m + c < 2 ^ 64)
    (h : binary64.infinity ≤ convert m x) :
    binary64.infinity ≤ convert (10 * m + c) (x - 1) := by
  obtain rfl : m = 1844674407370955161 := by
    unfold Full at hm
    omega
  obtain ⟨y, rfl, hy⟩ := exists_of_infinity_le_convert (by omega) h
  have hlarge : 290 ≤ y := by
    by_contra hsmall
    have hmono : convert 1844674407370955161 (.ofNat y) ≤ convert 1844674407370955161 (.ofNat 289) :=
      convert_mono le_rfl (by omega)
    have hfinite : convert 1844674407370955161 (.ofNat 289) < binary64.infinity := by
      decide +kernel
    omega
  have hinfinity : binary64.infinity ≤ convert 18446744073709551610 (.ofNat 289) := by
    decide +kernel
  have hmono : convert 18446744073709551610 (.ofNat 289) ≤
      convert (10 * 1844674407370955161 + c) (.ofNat (y - 1)) := convert_mono (by omega) (by omega)
  have hpred : Int.ofNat y - 1 = .ofNat (y - 1) := (Int.ofNat_sub hy).symm
  rw [hpred]
  exact hinfinity.trans hmono

/-- The digits of a fraction do not make a number smaller that has dropped digits. -/
theorem infinity_le_convert_absorb {x : Int} (hm : Full m) (h : binary64.infinity ≤ convert m x)
    (cs : List Char) :
    binary64.infinity ≤ convert (absorb m cs).1 (x - (cs.length - (absorb m cs).2.length : Nat)) := by
  cases cs with
  | nil => simpa [absorb] using h
  | cons c cs =>
    rw [absorb_of_full hm]
    split
    · next hc => simpa using infinity_le_convert_digit hm hc h
    · simpa using h

/-! ## Literals that stay too large -/

theorem writtenExponent_nonneg (h : ∀ ds, l.exponent ≠ some (true, ds)) : 0 ≤ l.writtenExponent := by
  unfold writtenExponent
  split
  · exact le_rfl
  · next negative ds he =>
    cases negative with
    | true => exact absurd he (h ds)
    | false => exact Int.natCast_nonneg _

/-- With one digit dropped before the point, or more, a literal is too large only if there are so
many of them. -/
theorem absorb_whole_of_infinity_le (h : binary64.infinity ≤ convert l.significand l.shift) :
    (absorb 0 l.whole).2 ≠ [] := by
  obtain ⟨y, hy, hpos⟩ := exists_of_infinity_le_convert l.significand_lt h
  intro hnil
  rw [shift, hnil] at hy
  simp at hy
  omega

/-- Unless it is given a negative exponent, a literal that is too large stays too large. -/
theorem Extends.infinity_le_magnitude (hdigits : ∀ d ∈ l.whole, d.isDigit = true)
    (h : l.Extends l') (he' : ∀ ds, l'.exponent ≠ some (true, ds))
    (hl : binary64.infinity ≤ l.magnitude) : binary64.infinity ≤ l'.magnitude := by
  have hw' := writtenExponent_nonneg he'
  cases h with
  | @whole more hf he hw =>
    have hconvert := infinity_le_convert_of_magnitude he hl
    have hdropped := absorb_whole_of_infinity_le hconvert
    have hsignificand : l.significand = (absorb 0 l.whole).1 := by simp [significand, hf, absorb]
    have hshift : l.shift = (absorb 0 l.whole).2.length := by simp [shift, hf, absorb]
    rw [hsignificand, hshift] at hconvert
    refine infinity_le_magnitude_of_convert hw' ?_
    rw [significand, shift, hw, absorb_append hdropped]
    refine infinity_le_convert_absorb (full_absorb hdigits hdropped) ?_ _
    refine infinity_le_convert_of_le (absorb_fst_lt (by decide)) ?_ hconvert
    simp
  | @fraction ds more hw hds hf hf' he =>
    have hconvert := infinity_le_convert_of_magnitude he hl
    have hfull := full_absorb hdigits (absorb_whole_of_infinity_le hconvert)
    have hmore := absorb_append_of_full hfull hds more
    have hsignificand : l'.significand = l.significand := by
      simp [significand, hw, hf, hf', hmore]
    have hshift : l'.shift = l.shift := by
      simp [shift, hw, hf, hf', hmore, Nat.add_sub_add_right]
    refine infinity_le_magnitude_of_convert hw' ?_
    rwa [hsignificand, hshift]
  | @exponent negative ds more hw hf he he'' =>
    have hsignificand : l'.significand = l.significand := by simp [significand, hw, hf]
    have hshift : l'.shift = l.shift := by simp [shift, hw, hf]
    have hne := significand_ne_zero hl
    cases negative with
    | true => exact absurd he'' (he' _)
    | false =>
      have hle := le_ofDigitChars more (digitsValue ds)
      have hw : l.writtenExponent = digitsValue ds := by simp [writtenExponent, he, signed]
      have hw' : l'.writtenExponent = Nat.ofDigitChars 10 more (digitsValue ds) := by
        simp [writtenExponent, he'', signed, digitsValue, Nat.ofDigitChars_append]
      rw [magnitude, hw', hsignificand, hshift]
      split
      · rw [magnitude, hw, if_pos (by omega)] at hl
        exact infinity_le_convert_of_le l.significand_lt (by omega) hl
      · rw [if_neg (by omega)]

/-- A literal that is too large becomes a number by a negative exponent only. -/
theorem exponent_of_denotes (ht : LiteralText w l) (ht' : LiteralText (w ++ w') l')
    (hl : ¬ ∃ n, l.Denotes n) (hl' : ∃ n, l'.Denotes n) :
    ∃ ds, l'.exponent = some (true, ds) := by
  rw [exists_denotes_iff, Nat.not_lt] at hl
  rw [exists_denotes_iff] at hl'
  by_contra hnone
  have hne : ∀ ds, l'.exponent ≠ some (true, ds) := fun ds h => hnone ⟨ds, h⟩
  have hdigits : ∀ d ∈ l.whole, d.isDigit = true := by
    cases ht with
    | mk hs hw => exact hw.1.2
  exact absurd ((ht.extends ht').infinity_le_magnitude hdigits hne hl) (Nat.not_le.2 hl')

end Literal

end LayerSize.Json
