import LayerSize.Binary.Arithmetic
import LayerSize.Decimal.Basic

/-!
# Numerals

The decimal numerals that a text may hold as a number: a sign, digits with a point
anywhere among them, and an exponent.  A numeral denotes a sign and an exact decimal; it is
read as the number of a format nearest to that decimal.

* `Numeral.ofText?`: the numeral that a whole text is;
* `Numeral.nearest`: the number it is read as.
-/

namespace LayerSize

/-- The value of a decimal digit. -/
def digitValue (c : Char) : Nat := c.toNat - '0'.toNat

/-- The value of a run of decimal digits. -/
def digitsValue (cs : List Char) : Nat := Nat.ofDigitChars 10 cs 0

theorem digitValue_lt {c : Char} (h : c.isDigit = true) : digitValue c < 10 := by
  simp only [Char.isDigit, Bool.and_eq_true, decide_eq_true_eq, UInt32.le_iff_toNat_le] at h
  have h2 : c.toNat ≤ 57 := h.2
  have h0 : '0'.toNat = 48 := rfl
  unfold digitValue
  omega

/-- A signed decimal; the sign is kept at zero too. -/
structure Numeral where
  negative : Bool
  decimal : Decimal
  deriving DecidableEq

namespace Numeral

/-- Splits a sign off a text; no sign is a plus. -/
def sign : List Char → Bool × List Char
  | '-' :: cs => (true, cs)
  | '+' :: cs => (false, cs)
  | cs => (false, cs)

/-- The digits at the start of a text and what follows them. -/
def digitRun (cs : List Char) : List Char × List Char :=
  (cs.takeWhile Char.isDigit, cs.dropWhile Char.isDigit)

/-- The exponent that a whole text is: nothing at all, or the letter, a sign and at least
one digit. -/
def exponent? : List Char → Option Int
  | [] => some 0
  | c :: cs =>
    if c = 'e' ∨ c = 'E' then
      let (negative, ds) := sign cs
      if ds ≠ [] ∧ ds.all Char.isDigit then some (signed negative (digitsValue ds)) else none
    else none

/-- The numeral that a whole text is.  At least one digit stands before or after the
point. -/
def ofText? (cs : List Char) : Option Numeral :=
  let (negative, cs) := sign cs
  let (whole, cs) := digitRun cs
  let (fraction, cs) := match cs with
    | '.' :: cs => digitRun cs
    | cs => ([], cs)
  if whole = [] ∧ fraction = [] then none
  else (exponent? cs).map fun e =>
    ⟨negative, digitsValue (whole ++ fraction), e - fraction.length⟩

/-- The number of a format nearest to a numeral, of the numeral's sign. -/
def nearest (F : Format) (n : Numeral) : Binary F where
  negative := n.negative
  magnitude := n.decimal.nearest F
  magnitude_lt := Decimal.nearest_lt_size F n.decimal

end Numeral

end LayerSize
