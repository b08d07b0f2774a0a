import LayerSize.Proofs.Decimal.Shortest
import LayerSize.Proofs.Json.NumberText
import LayerSize.Proofs.PixelSize.Conversions

/-!
# The text of fractional pixels

A number of single precision is written with all its digits before the point and no exponent, and
with no more digits than it takes to read it back.  Whole numbers up to `2 ^ 24` look like the
integers then, because none with more zeros at its end is read back as the same number.

* `PlainText`: decimals that are written without an exponent;
* `ShownAs`, `shownAs_text`: what a number is shown as;
* `text_eq_text_iff`: the numbers that have the same text;
* `SubpixelSize.text_shownAs`: the text of a size;
* `SubpixelSize.text_ofPixels`: the text of a size that was in whole pixels.
-/

namespace LayerSize

open Json (Literal LiteralText Digits WholeText)

/-! ## Plain decimals -/

/-- The text is a number literal with a minus, digits and a point at most.  A zero comes first only
if it stands alone before the point, and last only if there is no point. -/
structure PlainText (t : List Char) (l : Literal) : Prop where
  literal : LiteralText t l
  exponent : l.exponent = none
  fraction : ∀ f ∈ l.fraction, f.getLast? ≠ some '0'

namespace PlainText

variable {t w f : List Char} {l : Literal}

theorem whole (hw : WholeText w) : PlainText w ⟨false, w, none, none⟩ where
  literal := by
    have h := LiteralText.mk (l := ⟨false, w, none, none⟩) rfl hw .absent .absent
    rwa [List.append_nil, List.append_nil] at h
  exponent := rfl
  fraction := by simp

theorem pointed (hw : WholeText w) (hf : Digits f) (hlast : f.getLast? ≠ some '0') :
    PlainText (w ++ '.' :: f) ⟨false, w, some f, none⟩ where
  literal := by
    have h := LiteralText.mk (l := ⟨false, w, some f, none⟩) rfl hw (.digits hf) .absent
    rwa [List.append_nil] at h
  exponent := rfl
  fraction := by simpa using hlast

theorem neg (h : PlainText t l) (hs : l.negative = false) :
    PlainText ('-' :: t) { l with negative := true } where
  literal := h.literal.neg hs
  exponent := h.exponent
  fraction := h.fraction

/-- It is read as the decimal that its digits denote. -/
theorem ofText? (h : PlainText t l) : Numeral.ofText? t = some l.numeral :=
  Numeral.ofText?_complete (Json.numeralText_literal h.literal)

theorem comma_notMem (h : PlainText t l) : ',' ∉ t := by
  intro hc
  rcases Json.literalChar_of_mem h.literal ',' hc with hdigit | hsign
  · cases hdigit
  · simp at hsign

end PlainText

theorem getLast?_naturalText {n : ℕ} (h : n % 10 ≠ 0) : (naturalText n).getLast? ≠ some '0' := by
  intro hlast
  obtain ⟨ds, hds⟩ := List.getLast?_eq_some_iff.1 hlast
  have hvalue := Json.digitsValue_naturalText n
  have hzero : digitsValue ['0'] = 0 := rfl
  rw [hds, Json.digitsValue_append, hzero, List.length_singleton] at hvalue
  omega

/-- A decimal without zeros at the end of its coefficient is written plainly. -/
theorem exists_plainText_positional {d : Decimal} (h : d.coefficient % 10 ≠ 0 ∨ d = ⟨0, 0⟩) :
    ∃ l, PlainText d.positional l ∧ l.negative = false ∧ l.numeral.decimal.value = d.value := by
  rcases h with h | rfl
  · have hc : d.coefficient ≠ 0 := fun h0 => h (by rw [h0])
    cases he : d.exponent with
    | ofNat e =>
      rw [Json.positional_ofNat hc he]
      refine ⟨_, .whole (Json.wholeText_naturalText _), rfl, ?_⟩
      refine (Json.value_eq_of_shift e ?_ ?_)
      · simp [Literal.numeral, Json.digitsValue_naturalText]
      · simp [Literal.numeral, Literal.writtenExponent, he]
    | negSucc e =>
      obtain ⟨w, f, hp⟩ := Json.exists_pointed hc he
      have hlast : f.getLast? ≠ some '0' := by
        rw [hp.last]
        exact getLast?_naturalText h
      rw [hp.positional]
      refine ⟨_, .pointed hp.whole hp.fraction hlast, rfl, ?_⟩
      refine (Json.value_eq_of_shift 0 ?_ ?_)
      · rw [pow_zero, mul_one, ← hp.value]
        rfl
      · simp [Literal.numeral, Literal.writtenExponent, hp.length]
  · exact ⟨_, .whole Json.wholeText_zero, rfl, rfl⟩

namespace Binary

variable {x y : Binary binary32} {t t' : List Char}

/-! ## Numbers and their texts -/

/-- What a number of single precision is shown as.  The text of a finite one is a plain decimal,
it is read back as that number, of the same sign, and there is no decimal with fewer significant
digits that is. -/
inductive ShownAs (x : Binary binary32) : List Char → Prop where
  | notANumber (h : x.isNaN = true) : ShownAs x ['N', 'a', 'N']
  | infinite (h : x = infinity false) : ShownAs x ['i', 'n', 'f']
  | minusInfinite (h : x = infinity true) : ShownAs x ['-', 'i', 'n', 'f']
  | finite {t : List Char} {l : Literal} (h : x.isFinite = true) (plain : PlainText t l)
      (readBack : (Numeral.ofText? t).map (Numeral.nearest binary32) = some x)
      (fewest : ∀ n : Numeral, n.nearest binary32 = x →
        l.numeral.decimal.significant ≤ n.decimal.significant) : ShownAs x t

theorem text_of_isFinite (h : x.isFinite = true) : x.text =
    if x.negative then '-' :: (binary32.shortest .up x.magnitude).positional
    else (binary32.shortest .up x.magnitude).positional := by
  simp [text, isNaN_of_isFinite h, isInfinite_of_isFinite h]

/-- The text of a finite number is a literal of its sign and of its shortest decimal. -/
theorem exists_plainText (h : x.isFinite = true) : ∃ l, PlainText x.text l ∧
    l.negative = x.negative ∧
      l.numeral.decimal.value = (binary32.shortest .up x.magnitude).value := by
  obtain ⟨l, hl, hs, hv⟩ := exists_plainText_positional (binary32.coefficient_shortest .up x.magnitude)
  rw [text_of_isFinite h]
  cases hx : x.negative with
  | false => exact ⟨l, hl, hs, hv⟩
  | true => exact ⟨_, hl.neg hs, rfl, hv⟩

theorem shownAs_text_of_isFinite (h : x.isFinite = true) : x.ShownAs x.text := by
  have hlt : x.magnitude < binary32.infinity := of_decide_eq_true h
  obtain ⟨l, hl, hs, hv⟩ := exists_plainText h
  refine .finite h hl ?_ ?_
  · have hmag : l.numeral.decimal.nearest binary32 = x.magnitude := by
      rw [Decimal.nearest_congr hv, binary32.nearest_shortest .up hlt]
    obtain ⟨negative, k, hk⟩ := x
    obtain rfl : l.negative = negative := hs
    obtain rfl : l.numeral.decimal.nearest binary32 = k := hmag
    rw [hl.ofText?]
    rfl
  · intro n hn
    rw [Decimal.significant_congr hv]
    exact Format.significant_shortest_le .up hlt (congrArg Binary.magnitude hn)

theorem shownAs_text (x : Binary binary32) : x.ShownAs x.text := by
  rcases lt_trichotomy x.magnitude binary32.infinity with hlt | heq | hgt
  · exact shownAs_text_of_isFinite (decide_eq_true hlt)
  · rw [eq_infinity_of_magnitude heq]
    cases x.negative with
    | false => exact .infinite rfl
    | true => exact .minusInfinite rfl
  · have hnan : x.isNaN = true := decide_eq_true hgt
    have htext : x.text = ['N', 'a', 'N'] := by simp [text, hnan]
    rw [htext]
    exact .notANumber hnan

/-- Finite numbers are read back from their texts, and nothing is read from the other texts. -/
theorem ShownAs.read (h : x.ShownAs t) : (Numeral.ofText? t).map (Numeral.nearest binary32) =
    if x.isFinite then some x else none := by
  have hword : Numeral.ofText? ['N', 'a', 'N'] = none ∧ Numeral.ofText? ['i', 'n', 'f'] = none ∧
      Numeral.ofText? ['-', 'i', 'n', 'f'] = none := ⟨rfl, rfl, rfl⟩
  cases h with
  | notANumber h =>
    have hfinite : ¬ x.isFinite = true := by simp [isFinite_iff, h]
    simp [hword, hfinite]
  | infinite h | minusInfinite h =>
    have hfinite : ¬ x.isFinite = true := by simp [isFinite_iff, h, isInfinite, infinity]
    simp [hword, hfinite]
  | finite h plain readBack fewest => rw [readBack, if_pos h]

/-- Numbers with one text are the same, or they are no numbers. -/
theorem ShownAs.eq_or_isNaN (h : x.ShownAs t) (h' : y.ShownAs t') (ht : t = t') :
    x = y ∨ x.isNaN = true ∧ y.isNaN = true := by
  have hread := h.read
  rw [ht, h'.read] at hread
  cases hx : x.isFinite with
  | true =>
    left
    simp only [hx, if_true] at hread
    split at hread
    · exact (Option.some.inj hread).symm
    · cases hread
  | false =>
    have hy : y.isFinite = false := by
      by_contra hy
      rw [Bool.not_eq_false] at hy
      simp [hx, hy] at hread
    cases h with
    | finite h => simp [hx] at h
    | notANumber h =>
      cases h' with
      | finite h' => simp [hy] at h'
      | notANumber h' => exact .inr ⟨h, h'⟩
      | infinite | minusInfinite => simp at ht
    | infinite h =>
      cases h' with
      | finite h' => simp [hy] at h'
      | infinite h' => exact .inl (h.trans h'.symm)
      | notANumber | minusInfinite => simp at ht
    | minusInfinite h =>
      cases h' with
      | finite h' => simp [hy] at h'
      | minusInfinite h' => exact .inl (h.trans h'.symm)
      | notANumber | infinite => simp at ht

theorem text_eq_text_iff : x.text = y.text ↔ x = y ∨ x.isNaN = true ∧ y.isNaN = true := by
  constructor
  · exact (shownAs_text x).eq_or_isNaN (shownAs_text y)
  · rintro (rfl | ⟨hx, hy⟩)
    · rfl
    · simp [text, hx, hy]

theorem ShownAs.comma_notMem (h : x.ShownAs t) : ',' ∉ t := by
  cases h with
  | notANumber | infinite | minusInfinite => decide
  | finite h plain => exact plain.comma_notMem

end Binary

/-! ## Sizes -/

namespace SubpixelSize

/-- A comma stands between the components and nowhere else. -/
theorem text_eq_text_iff {s t : SubpixelSize} :
    s.text = t.text ↔ s.width.text = t.width.text ∧ s.height.text = t.height.text := by
  have hwidth := (Binary.shownAs_text s.width).comma_notMem
  have hheight : ',' ∉ s.height.text ++ [')'] := by
    simpa using (Binary.shownAs_text s.height).comma_notMem
  rw [text, text, List.cons_inj_right, List.append_cons_inj_of_notMem hwidth hheight,
    List.append_cancel_right_eq]
  simp only [true_and]

/-- The components are shown in their order, and two sizes look the same only if their components
are the same or no numbers. -/
theorem text_shownAs :
    (∀ s : SubpixelSize, ∃ w h, s.text = '(' :: (w ++ ',' :: (h ++ [')'])) ∧
        s.width.ShownAs w ∧ s.height.ShownAs h) ∧
      ∀ s t : SubpixelSize, s.text = t.text ↔
        (s.width = t.width ∨ s.width.isNaN = true ∧ t.width.isNaN = true) ∧
        (s.height = t.height ∨ s.height.isNaN = true ∧ t.height.isNaN = true) := by
  constructor
  · intro s
    exact ⟨_, _, rfl, Binary.shownAs_text s.width, Binary.shownAs_text s.height⟩
  · intro s t
    rw [text_eq_text_iff, Binary.text_eq_text_iff, Binary.text_eq_text_iff]

end SubpixelSize

/-! ## Whole components -/

namespace Format

variable {k m n v : ℕ}

/-- Up to `2 ^ 24` no whole number is rounded to another one.  The next, which is halfway between
two numbers of single precision, is rounded down. -/
theorem IsNearest.nat_eq_or (h : binary32.IsNearest m k) (hk : binary32.value k = n)
    (hn : n ≤ 2 ^ 24) : m = n ∨ m = 2 ^ 24 + 1 := by
  rcases le_or_gt m (2 ^ 24) with hle | hgt
  · left
    have hvalue := h.value_eq (represents_nat (by decide) hle)
    rw [hk] at hvalue
    exact_mod_cast hvalue.symm
  · right
    have hlow : ((2 ^ 24 : ℕ) : ℚ) ≤ binary32.value k :=
      h.le_value (represents_nat (by decide) le_rfl) (by exact_mod_cast hgt.le)
    rw [hk] at hlow
    obtain rfl : n = 2 ^ 24 := le_antisymm hn (by exact_mod_cast hlow)
    have hrep : binary32.Represents ((2 ^ 23 + 1) * 2 ^ 1 : ℕ) :=
      represents_mul_two_pow (by decide) (by decide +kernel)
    have hhigh := h.le_midpoint hrep (by rw [hk]; norm_num)
    rw [hk] at hhigh
    have hle : (m : ℚ) ≤ (2 ^ 24 + 1 : ℕ) := by
      push_cast at hhigh ⊢
      linarith
    have hle' : m ≤ 2 ^ 24 + 1 := by exact_mod_cast hle
    omega

/-- The shortest decimal of a whole number up to `2 ^ 24` is the number without the zeros at its
end. -/
theorem shortest_of_value_nat {t : ℕ} (hk : binary32.value k = (v * 10 ^ t : ℕ))
    (hn : v * 10 ^ t ≤ 2 ^ 24) (hv : v % 10 ≠ 0) :
    binary32.shortest .up k = ⟨v, t⟩ := by
  have hpow : (10 : ℚ) ^ binary32.scale ≠ 0 := by positivity
  have hpos : 0 < k := by
    rcases Nat.eq_zero_or_pos k with rfl | hpos
    · rw [value_zero] at hk
      have hzero : v * 10 ^ t = 0 := by exact_mod_cast hk.symm
      have hv0 : v = 0 := by simpa using hzero
      exact absurd (by rw [hv0]) hv
    · exact hpos
  have htens : binary32.tens k = v * 10 ^ (t + binary32.scale) := by
    rw [value_eq_tens, div_eq_iff hpow] at hk
    rw [pow_add, ← Nat.mul_assoc]
    exact_mod_cast hk
  have hfin : k < binary32.infinity := by
    rw [← binary32.value_strictMono.lt_iff_lt, hk, binary32.value_infinity]
    calc ((v * 10 ^ t : ℕ) : ℚ) ≤ (2 ^ 24 : ℕ) := by exact_mod_cast hn
      _ < 2 ^ 2 ^ (binary32.exponentBits - 1) := by
        have hexponent : 24 < 2 ^ (binary32.exponentBits - 1) := by decide
        rw [Nat.cast_pow, Nat.cast_ofNat]
        exact pow_lt_pow_right₀ one_lt_two hexponent
  rw [shortest_eq_of_value hpos .up htens]
  · simp
  · intro m
    by_contra hm
    rw [Bool.not_eq_false, window_contains_iff hpos hfin] at hm
    have hvalue : ((m * 10 ^ (t + binary32.scale + 1) : ℕ) : ℚ) / 10 ^ binary32.scale =
        (m * 10 ^ t * 10 : ℕ) := by
      rw [div_eq_iff hpow]
      push_cast
      ring
    rw [hvalue] at hm
    rcases hm.nat_eq_or hk hn with heq | heq
    · have hten : 0 < 10 ^ t := Nat.pow_pos (by decide)
      have hmul : 10 ^ t * (m * 10) = 10 ^ t * v := by linarith
      have hvm := Nat.eq_of_mul_eq_mul_left hten hmul
      omega
    · omega

end Format

namespace Binary

/-- Components up to `2 ^ 24` are written as the integers are. -/
theorem text_ofInt32 {c : Int32} (h : |c.toInt| ≤ 2 ^ 24) :
    (ofInt32 c : Binary binary32).text = integerText c.toInt := by
  have hsign : (ofInt32 c : Binary binary32).negative = decide (c.toInt < 0) := rfl
  have hvalue : binary32.value (ofInt32 c : Binary binary32).magnitude = c.toInt.natAbs := by
    rw [← abs_value, value_ofInt32_of_le h, ← Int.cast_abs, Int.abs_eq_natAbs, Int.cast_natCast]
  have hpositional : (binary32.shortest .up (ofInt32 c : Binary binary32).magnitude).positional =
      naturalText c.toInt.natAbs := by
    rcases Nat.eq_zero_or_pos c.toInt.natAbs with hzero | hpos
    · rw [hzero, Nat.cast_zero, ← binary32.value_zero] at hvalue
      rw [hzero, binary32.value_strictMono.injective hvalue]
      rfl
    · obtain ⟨v, t, hvt, hv⟩ := exists_mul_pow_of_ne_zero hpos.ne'
      have hle : v * 10 ^ t ≤ 2 ^ 24 := by
        rw [← hvt]
        rw [Int.abs_eq_natAbs] at h
        exact_mod_cast h
      have hv0 : v ≠ 0 := fun h0 => hv (by rw [h0])
      rw [hvt] at hvalue ⊢
      rw [Format.shortest_of_value_nat hvalue hle hv, Json.positional_ofNat hv0 rfl]
  rw [text_of_isFinite (isFinite_ofInt32 c), hsign, hpositional, integerText]
  simp only [decide_eq_true_eq]

end Binary

/-- Sizes with components up to `2 ^ 24` look the same in whole and in fractional pixels. -/
theorem SubpixelSize.text_ofPixels (s : PixelSize) (hw : |s.width.toInt| ≤ 2 ^ 24)
    (hh : |s.height.toInt| ≤ 2 ^ 24) : (ofPixels s).text = s.text := by
  simp only [text, PixelSize.text, ofPixels, Binary.text_ofInt32 hw, Binary.text_ofInt32 hh]

/-- The numbers after `2 ^ 24` are twice as far apart as the ones before, and the other component
ends in zeros. -/
theorem SubpixelSize.text_ofPixels_fullWidth :
    (|(16777216 : Int32).toInt| ≤ 2 ^ 24 ∧ |(-16777000 : Int32).toInt| ≤ 2 ^ 24) ∧
      (ofPixels ⟨16777216, -16777000⟩).text = "(16777216,-16777000)".toList := by
  have hle : |(16777216 : Int32).toInt| ≤ 2 ^ 24 ∧ |(-16777000 : Int32).toInt| ≤ 2 ^ 24 := by
    decide
  exact ⟨hle, text_ofPixels ⟨16777216, -16777000⟩ hle.1 hle.2⟩

/-- Larger integers are rounded, or end in zeros where their digits are not needed. -/
example : (SubpixelSize.ofPixels ⟨16777217, 1073741824⟩).text =
    "(16777216,1073741800)".toList := by decide +kernel

end LayerSize
