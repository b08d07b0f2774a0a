import LayerSize.Proofs.Decimal.Numerals
import LayerSize.Proofs.PixelSize.Components

/-!
# Number literals as numerals

What number literals are written with, and what they are when they stand in a string: a
numeral, which denotes their exact decimal.

* `literalChar_of_mem`: the characters of literals;
* `numeralText_literal`: a literal is a numeral;
* `stringComponent?_literal`: the component of a string that holds a literal.
-/

namespace LayerSize.Json

variable {t : List Char} {l : Literal}

/-! ## Characters -/

/-- The characters that literals are written with. -/
def LiteralChar (c : Char) : Prop := c.isDigit = true ∨ c ∈ ['-', '+', '.', 'e', 'E']

theorem literalChar_of_fraction {f : List Char} {fraction : Option (List Char)}
    (h : FractionText f fraction) : ∀ c ∈ f, LiteralChar c := by
  cases h with
  | absent => simp
  | digits hd =>
    intro c hc
    rcases List.mem_cons.1 hc with rfl | hc
    · exact .inr (by decide)
    · exact .inl (hd.2 c hc)

theorem literalChar_of_exponent {e : List Char} {exponent : Option (Bool × List Char)}
    (h : ExponentText e exponent) : ∀ c ∈ e, LiteralChar c := by
  have hletter : ∀ c, c = 'e' ∨ c = 'E' → LiteralChar c := by
    rintro c (rfl | rfl)
    · exact .inr (by decide)
    · exact .inr (by decide)
  cases h with
  | absent => simp
  | unsigned he hd =>
    intro c hc
    rcases List.mem_cons.1 hc with rfl | hc
    · exact hletter _ he
    · exact .inl (hd.2 c hc)
  | plus he hd | minus he hd =>
    intro c hc
    simp only [List.mem_cons] at hc
    rcases hc with rfl | rfl | hc
    · exact hletter _ he
    · exact .inr (by decide)
    · exact .inl (hd.2 c hc)

theorem literalChar_of_mem (h : LiteralText t l) : ∀ c ∈ t, LiteralChar c := by
  cases h with
  | mk hs hw hf he =>
    intro c hc
    simp only [List.mem_append] at hc
    rcases hc with hc | hc | hc | hc
    · right
      rw [hs] at hc
      split at hc
      · simp_all
      · simp at hc
    · exact .inl (hw.1.2 c hc)
    · exact literalChar_of_fraction hf c hc
    · exact literalChar_of_exponent he c hc

/-- The characters of literals may stand in a string as they are. -/
theorem plain_of_literalChar {c : Char} (h : LiteralChar c) :
    c ≠ '"' ∧ c ≠ '\\' ∧ 0x20 ≤ c.toNat := by
  rcases h with h | h
  · simp only [Char.isDigit, Bool.and_eq_true, decide_eq_true_eq, UInt32.le_iff_toNat_le] at h
    have hc : 48 ≤ c.toNat := h.1
    refine ⟨?_, ?_, by omega⟩
    · rintro rfl
      simp at hc
    · rintro rfl
      have hmax : '\\'.toNat ≤ 57 := h.2
      simp at hmax
  · simp only [List.mem_cons, List.not_mem_nil, or_false] at h
    rcases h with rfl | rfl | rfl | rfl | rfl <;> decide

theorem isWhiteSpace_of_literalChar {c : Char} (h : LiteralChar c) :
    Text.isWhiteSpace c = false := by
  rcases h with h | h
  · exact Text.not_isWhiteSpace_of_isDigit h
  · simp only [List.mem_cons, List.not_mem_nil, or_false] at h
    rcases h with rfl | rfl | rfl | rfl | rfl <;> rfl

theorem trim_eq_self {cs : List Char} (h : ∀ c ∈ cs, Text.isWhiteSpace c = false) :
    Text.trim cs = cs := by
  refine Text.trim_eq_iff.2 ⟨[], [], by simp, by simp, by simp, ?_, ?_⟩
  · exact fun c hc => h c (List.mem_of_mem_head? hc)
  · exact fun c hc => h c (List.mem_of_getLast? hc)

/-! ## Numerals -/

namespace Literal

/-- The exact decimal of a literal, with its sign. -/
def numeral (l : Literal) : Numeral where
  negative := l.negative
  decimal :=
    { coefficient := digitsValue (l.whole ++ l.fraction.getD [])
      exponent := l.writtenExponent - (l.fraction.getD []).length }

end Literal

/-- A literal is a numeral without a plus, and with digits on both sides of its point. -/
theorem numeralText_literal (h : LiteralText t l) : NumeralText t l.numeral := by
  cases h with
  | @mk sign f e _ hs hw hf he =>
    have hsign : SignText sign l.negative := by
      rw [hs]
      cases l.negative
      · exact .absent
      · exact .minus
    have hmantissa : MantissaText (l.whole ++ f) l.whole (l.fraction.getD []) := by
      generalize l.fraction = fraction at hf ⊢
      cases hf with
      | absent =>
        rw [List.append_nil]
        exact .whole hw.1
      | digits hd => exact .point hw.1 hd.2
    have hnumeral := NumeralText.mk hsign hmantissa he
    rwa [List.append_assoc] at hnumeral

/-! ## Components -/

/-- A string that holds a literal has the whole part of the double nearest to it. -/
theorem stringComponent?_literal (h : LiteralText t l) :
    PixelSize.stringComponent? t =
      int32? (signed l.negative (binary64.whole (l.numeral.decimal.nearest binary64))) := by
  have htrim : Text.trim t = t :=
    trim_eq_self fun c hc => isWhiteSpace_of_literalChar (literalChar_of_mem h c hc)
  rw [PixelSize.stringComponent?, htrim,
    Numeral.ofText?_eq_some_iff.2 (numeralText_literal h), Option.bind_some, truncToInt32?_eq]
  rfl

end LayerSize.Json
