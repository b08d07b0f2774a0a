import LayerSize.Json.Writer
import LayerSize.Proofs.Json.Numerals

/-!
# The texts of numbers

The compact text of a number is a number literal, and the literal has the value of the number,
or of the shortest decimal of a double.

* `digitsValue_naturalText`, `wholeText_naturalText`: whole numbers;
* `isText_decimalText`: decimals, in all forms that they are written in;
* `isText_real`, `exists_literalText`: numbers.
-/

namespace LayerSize.Json

/-! ## Digits -/

theorem digitsValue_append (ds ds' : List Char) :
    digitsValue (ds ++ ds') = digitsValue ds * 10 ^ ds'.length + digitsValue ds' := by
  rw [digitsValue, Nat.ofDigitChars_append, Nat.ofDigitChars_eq_ofDigitChars_zero, Nat.mul_comm]
  rfl

theorem digitsValue_cons (d : Char) (ds : List Char) :
    digitsValue (d :: ds) = digitValue d * 10 ^ ds.length + digitsValue ds := by
  have hd : digitsValue [d] = digitValue d := by
    simp [digitsValue, digitValue, Nat.ofDigitChars_cons]
  rw [← List.singleton_append, digitsValue_append, hd]

theorem digitsValue_replicate (n : Nat) : digitsValue (List.replicate n '0') = 0 := by
  rw [digitsValue, Nat.ofDigitChars_replicate_zero, Nat.mul_zero]

theorem digitsValue_naturalText (n : Nat) : digitsValue (naturalText n) = n :=
  Nat.ofDigitChars_ten_toDigits

theorem isDigit_of_mem_zeros {n : Nat} {c : Char} (h : c ∈ List.replicate n '0') :
    c.isDigit = true := by
  rw [List.eq_of_mem_replicate h]
  rfl

theorem digits_naturalText (n : Nat) : Digits (naturalText n) :=
  ⟨Nat.toDigits_ne_nil,
    fun _ hd => Nat.isDigit_of_mem_toDigits (by decide) (by decide : 10 ≤ 10) hd⟩

theorem digitsValue_lt {ds : List Char} (h : ∀ d ∈ ds, d.isDigit = true) :
    digitsValue ds < 10 ^ ds.length := by
  induction ds with
  | nil => decide
  | cons d ds ih =>
    have hd : digitValue d < 10 := digitValue_lt (h d (List.mem_cons_self ..))
    have hds := ih fun c hc => h c (List.mem_cons_of_mem _ hc)
    calc digitsValue (d :: ds) < digitValue d * 10 ^ ds.length + 10 ^ ds.length := by
          rw [digitsValue_cons]
          omega
      _ = (digitValue d + 1) * 10 ^ ds.length := by ring
      _ ≤ 10 * 10 ^ ds.length := Nat.mul_le_mul_right _ (by omega)
      _ = 10 ^ (d :: ds).length := by rw [List.length_cons, pow_succ, mul_comm]

/-- Without its first digit, a zero, the text would be shorter and have the same value. -/
theorem wholeText_naturalText (n : Nat) : WholeText (naturalText n) := by
  refine ⟨digits_naturalText n, fun hhead => ?_⟩
  cases hn : naturalText n with
  | nil => simp [hn] at hhead
  | cons d ds =>
    obtain rfl : d = '0' := by simpa [hn] using hhead
    cases ds with
    | nil => rfl
    | cons d ds =>
      have hdigits := (digits_naturalText n).2
      rw [hn] at hdigits
      have hlt := digitsValue_lt fun c hc => hdigits c (List.mem_cons_of_mem _ hc)
      have hvalue : digitsValue (d :: ds) = n := by
        have hzero : digitValue '0' = 0 := rfl
        rw [← digitsValue_naturalText n, hn, digitsValue_cons '0', hzero, Nat.zero_mul, Nat.zero_add]
      rw [hvalue, ← Nat.length_toDigits_le_iff (by decide) (by simp)] at hlt
      change (naturalText n).length ≤ _ at hlt
      rw [hn] at hlt
      simp at hlt

theorem head?_naturalText {n : Nat} (hn : n ≠ 0) : (naturalText n).head? ≠ some '0' := by
  intro hhead
  have hzero := (wholeText_naturalText n).2 hhead
  have hvalue := digitsValue_naturalText n
  rw [hzero] at hvalue
  exact hn hvalue.symm

/-! ## Decimals -/

theorem LiteralText.neg {t : List Char} {l : Literal} (h : LiteralText t l)
    (hl : l.negative = false) : LiteralText ('-' :: t) { l with negative := true } := by
  cases h with
  | @mk sign f e _ hs hw hf he =>
    rw [hl] at hs
    rw [hs]
    exact .mk (l := { l with negative := true }) rfl hw hf he

/-- The text is a literal of the given sign that denotes the value of the decimal. -/
def IsText (t : List Char) (negative : Bool) (d : Decimal) : Prop :=
  ∃ l, LiteralText t l ∧ l.negative = negative ∧ l.numeral.decimal.value = d.value

theorem IsText.neg {t : List Char} {d : Decimal} (h : IsText t false d) :
    IsText ('-' :: t) true d := by
  obtain ⟨l, ht, hl, hd⟩ := h
  exact ⟨_, ht.neg hl, rfl, hd⟩

/-- The parts of a literal without sign, and its value. -/
theorem isText_of_parts {w f e : List Char} {fraction : Option (List Char)}
    {exponent : Option (Bool × List Char)} {d : Decimal} (hw : WholeText w)
    (hf : FractionText f fraction) (he : ExponentText e exponent)
    (hd : (Literal.numeral ⟨false, w, fraction, exponent⟩).decimal.value = d.value) :
    IsText (w ++ (f ++ e)) false d :=
  ⟨_, .mk (l := ⟨false, w, fraction, exponent⟩) rfl hw hf he, rfl, hd⟩

theorem isText_zero {d : Decimal} (h : d.coefficient = 0) : IsText ['0', '.', '0'] false d := by
  apply isText_of_parts (f := ['.', '0']) (e := []) wholeText_zero (.digits wholeText_zero.1) .absent
  simp [Decimal.value, Literal.numeral, h, digitsValue, Nat.ofDigitChars_cons]

theorem value_eq_of_shift {d d' : Decimal} (n : Nat) (hc : d'.coefficient = d.coefficient * 10 ^ n)
    (he : d'.exponent = d.exponent - n) : d'.value = d.value := by
  rw [Decimal.value, Decimal.value, hc, he, zpow_sub₀ (by norm_num), zpow_natCast]
  push_cast
  field_simp

/-- Zeros after the digits of a number multiply it by ten. -/
theorem naturalText_append_zeros {n : Nat} (hn : n ≠ 0) (e : Nat) :
    naturalText n ++ List.replicate e '0' = naturalText (n * 10 ^ e) := by
  induction e with
  | zero => simp
  | succ e ih =>
    have hpos : 0 < n * 10 ^ e := Nat.mul_pos (Nat.pos_of_ne_zero hn) (Nat.pow_pos (by decide))
    have hsum : n * 10 ^ (e + 1) = 10 * (n * 10 ^ e) + 0 := by
      rw [pow_succ]
      ring
    rw [List.replicate_succ', ← List.append_assoc, ih, hsum]
    have hten : 1 < 10 := by decide
    have hdigit : 0 < 10 := by decide
    exact Nat.toDigits_append_toDigits hten hpos hdigit

/-- A whole number is written as such. -/
theorem positional_ofNat {d : Decimal} (hc : d.coefficient ≠ 0) {e : Nat}
    (he : d.exponent = .ofNat e) : d.positional = naturalText (d.coefficient * 10 ^ e) := by
  rw [Decimal.positional, he, ← naturalText_append_zeros hc]

theorem isText_whole {d : Decimal} (hc : d.coefficient ≠ 0) {e : Nat} (he : d.exponent = .ofNat e) :
    IsText (d.positional ++ ['.', '0']) false d := by
  rw [positional_ofNat hc he]
  apply isText_of_parts (f := ['.', '0']) (e := []) (wholeText_naturalText _)
    (.digits wholeText_zero.1) .absent
  apply value_eq_of_shift (e + 1)
  · have hzero : digitsValue ['0'] = 0 := rfl
    simp only [Literal.numeral, Option.getD_some, digitsValue_append, digitsValue_naturalText,
      hzero, List.length_singleton]
    ring
  · simp [Literal.numeral, Literal.writtenExponent, he]

/-- The digits before the point, a zero if there are none, and those after it, as many of them as
the exponent says.  The last digit is that of the coefficient. -/
structure Pointed (d : Decimal) (w f : List Char) : Prop where
  positional : d.positional = w ++ '.' :: f
  whole : WholeText w
  fraction : Digits f
  value : digitsValue (w ++ f) = d.coefficient
  length : d.exponent = -f.length
  last : f.getLast? = (naturalText d.coefficient).getLast?

theorem pointed_below_one {d : Decimal} {e : Nat} (he : d.exponent = .negSucc e)
    (hlen : (naturalText d.coefficient).length ≤ e + 1) :
    Pointed d ['0'] (List.replicate (e + 1 - (naturalText d.coefficient).length) '0' ++
      naturalText d.coefficient) where
  positional := by
    simp [Decimal.positional, he, Nat.sub_eq_zero_of_le hlen]
  whole := wholeText_zero
  fraction := by
    refine ⟨by simp [(digits_naturalText _).1], fun c h => ?_⟩
    rcases List.mem_append.1 h with h | h
    · exact isDigit_of_mem_zeros h
    · exact (digits_naturalText _).2 c h
  value := by
    simp [digitsValue_cons, digitsValue_append, digitsValue_naturalText, digitsValue_replicate,
      digitValue]
  length := by
    rw [he, List.length_append, List.length_replicate, Nat.sub_add_cancel hlen]
    rfl
  last := List.getLast?_append_of_ne_nil _ (digits_naturalText _).1

/-- The digits may be divided by a point anywhere but before the first. -/
theorem pointed_divided {d : Decimal} (hc : d.coefficient ≠ 0) {e : Nat}
    (he : d.exponent = .negSucc e) (hlen : e + 1 < (naturalText d.coefficient).length) :
    Pointed d
      ((naturalText d.coefficient).take ((naturalText d.coefficient).length - (e + 1)))
      ((naturalText d.coefficient).drop ((naturalText d.coefficient).length - (e + 1))) := by
  obtain ⟨hne, hdigits⟩ := digits_naturalText d.coefficient
  have hpos : (naturalText d.coefficient).length - (e + 1) ≠ 0 := by omega
  have hdrop : ((naturalText d.coefficient).drop
      ((naturalText d.coefficient).length - (e + 1))).length = e + 1 := by
    rw [List.length_drop]
    omega
  refine ⟨?_, ⟨⟨by simp [hpos, hne], fun c hc => hdigits c (List.mem_of_mem_take hc)⟩, ?_⟩,
    ⟨List.ne_nil_of_length_pos (by omega), fun c hc => hdigits c (List.mem_of_mem_drop hc)⟩,
    ?_, ?_, ?_⟩
  · simp only [Decimal.positional, he]
    exact if_neg hpos
  · intro h
    rw [List.head?_take, if_neg hpos] at h
    exact absurd h (head?_naturalText hc)
  · rw [List.take_append_drop, digitsValue_naturalText]
  · rw [he, hdrop]
    rfl
  · rw [List.getLast?_drop, if_neg (by omega)]

theorem exists_pointed {d : Decimal} (hc : d.coefficient ≠ 0) {e : Nat}
    (he : d.exponent = .negSucc e) : ∃ w f, Pointed d w f := by
  rcases Nat.lt_or_ge (e + 1) (naturalText d.coefficient).length with hlt | hge
  · exact ⟨_, _, pointed_divided hc he hlt⟩
  · exact ⟨_, _, pointed_below_one he hge⟩

theorem isText_fraction {d : Decimal} (hc : d.coefficient ≠ 0) {e : Nat}
    (he : d.exponent = .negSucc e) : IsText d.positional false d := by
  obtain ⟨w, f, h⟩ := exists_pointed hc he
  have hparts := isText_of_parts (e := []) (d := d) h.whole (.digits h.fraction) .absent
  rw [List.append_nil] at hparts
  rw [h.positional]
  apply hparts
  apply value_eq_of_shift 0
  · rw [pow_zero, mul_one, ← h.value]
    rfl
  · simp [Literal.numeral, Literal.writtenExponent, h.length]

theorem signed_natAbs (n : Int) : signed (decide (n < 0)) n.natAbs = n := by
  unfold signed
  by_cases h : n < 0
  · rw [if_pos (decide_eq_true h)]
    omega
  · rw [if_neg (by simpa using h)]
    omega

theorem exponentText_signed (n : Int) :
    ExponentText ('e' :: (if n < 0 then '-' else '+') :: naturalText n.natAbs)
      (some (decide (n < 0), naturalText n.natAbs)) := by
  have hdigits := digits_naturalText n.natAbs
  by_cases h : n < 0
  · simpa [h] using ExponentText.minus (.inl rfl) hdigits
  · simpa [h] using ExponentText.plus (.inl rfl) hdigits

theorem isText_scientific {d : Decimal} (hc : d.coefficient ≠ 0) :
    IsText d.scientific false d := by
  have hexponent := exponentText_signed d.leading
  have hwritten : signed (decide (d.leading < 0)) (digitsValue (naturalText d.leading.natAbs)) =
      d.exponent + ((naturalText d.coefficient).length - 1 : Nat) := by
    rw [digitsValue_naturalText, signed_natAbs]
    rfl
  have hdigits := digits_naturalText d.coefficient
  have hvalue := digitsValue_naturalText d.coefficient
  have hhead := head?_naturalText hc
  unfold Decimal.scientific
  dsimp only
  generalize naturalText d.coefficient = ds at *
  split
  · next c c' cs =>
    have hw : WholeText [c] := by
      refine ⟨⟨by simp, fun a ha => hdigits.2 a ?_⟩, fun h => absurd h hhead⟩
      rw [List.mem_singleton.1 ha]
      exact List.mem_cons_self ..
    have hfraction : Digits (c' :: cs) :=
      ⟨by simp, fun a ha => hdigits.2 a (List.mem_cons_of_mem _ ha)⟩
    refine isText_of_parts hw (.digits hfraction) hexponent (value_eq_of_shift 0 ?_ ?_)
    · simpa [Literal.numeral] using hvalue
    · simp [Literal.numeral, Literal.writtenExponent, hwritten]
  · next hshort =>
    obtain ⟨c, rfl⟩ : ∃ c, ds = [c] := by
      rcases ds with _ | ⟨c, _ | ⟨c', cs⟩⟩
      · exact absurd rfl hdigits.1
      · exact ⟨c, rfl⟩
      · exact absurd rfl (hshort c c' cs)
    have hw : WholeText [c] := ⟨hdigits, fun h => absurd h hhead⟩
    refine isText_of_parts hw .absent hexponent (value_eq_of_shift 0 ?_ ?_)
    · simpa [Literal.numeral] using hvalue
    · simp [Literal.numeral, Literal.writtenExponent, hwritten]

/-- All decimals, in the form that is chosen for them. -/
theorem isText_decimalText (d : Decimal) : IsText (decimalText d) false d := by
  unfold decimalText
  split
  · next h => exact isText_zero h
  · next h =>
    split
    · cases he : d.exponent with
      | ofNat e =>
        have hnonneg : (0 : Int) ≤ .ofNat e := Int.natCast_nonneg e
        rw [if_pos hnonneg]
        exact isText_whole h he
      | negSucc e =>
        rw [if_neg (by simp)]
        exact isText_fraction h he
    · exact isText_scientific h

/-! ## Numbers -/

theorem literalText_integerText (n : Int) :
    LiteralText (integerText n) ⟨decide (n < 0), naturalText n.natAbs, none, none⟩ := by
  have h := LiteralText.mk (l := ⟨decide (n < 0), naturalText n.natAbs, none, none⟩) rfl
    (wholeText_naturalText n.natAbs) .absent .absent
  unfold integerText
  split
  · next hneg => simpa [hneg] using h
  · next hpos => simpa [hpos] using h

theorem isText_real (x : Binary binary64) (finite : x.isFinite) :
    IsText (Number.real x finite).text x.negative (binary64.shortest .even x.magnitude) := by
  have h := isText_decimalText (binary64.shortest .even x.magnitude)
  unfold Number.text
  dsimp only
  split
  · next hneg =>
    rw [hneg]
    exact h.neg
  · next hpos =>
    rw [Bool.eq_false_iff.2 hpos]
    exact h

/-- The text of any number is a literal. -/
theorem exists_literalText (n : Number) : ∃ l, LiteralText n.text l := by
  cases n with
  | integer n range => exact ⟨_, literalText_integerText n⟩
  | real x finite =>
    obtain ⟨l, hl, -⟩ := isText_real x finite
    exact ⟨l, hl⟩

end LayerSize.Json
