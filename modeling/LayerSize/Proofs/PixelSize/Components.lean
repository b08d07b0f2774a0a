import LayerSize.PixelSize.Value
import LayerSize.Proofs.Binary.Neighbours

/-!
# Components as whole parts

A component is the whole part of a number with its sign, where it has 32 bits.  Infinities need
no case of their own: they stand above all that has 32 bits.

* `truncToInt32?_eq`: the component of any double;
* `le_whole_iff`: whole parts as the values of the format see them;
* `int32?_signed_whole_nearest`: rounding a whole number to a double does not change whether it
  is a component, and which one;
* `Separated`, `int32?_signed_whole_eq_iff`: when two doubles have the same component.
-/

namespace LayerSize

/-! ## Integers of 32 bits -/

/-- The greatest absolute value of a 32-bit integer of the sign. -/
def largest (negative : Bool) : Nat := if negative then 2 ^ 31 else 2 ^ 31 - 1

theorem exists_int32?_iff {n : Int} :
    (∃ c, int32? n = some c) ↔ -2147483648 ≤ n ∧ n ≤ 2147483647 := by
  have hmin : Int32.minValue.toInt = -2147483648 := rfl
  have hmax : Int32.maxValue.toInt = 2147483647 := rfl
  constructor
  · rintro ⟨c, hc⟩
    have hlow := c.minValue_le_toInt
    have hhigh := c.toInt_le
    rw [int32?_eq_some_iff.1 hc]
    omega
  · rintro ⟨hlow, hhigh⟩
    exact ⟨_, dif_pos ⟨by omega, by omega⟩⟩

theorem int32?_signed_eq_none_iff {negative : Bool} {n : Nat} :
    int32? (signed negative n) = none ↔ largest negative < n := by
  have hnone : int32? (signed negative n) = none ↔
      ¬ (-2147483648 ≤ signed negative n ∧ signed negative n ≤ 2147483647) := by
    rw [← exists_int32?_iff, Option.eq_none_iff_forall_ne_some, not_exists]
  rw [hnone, largest, signed]
  cases negative with
  | false =>
    simp only [Bool.false_eq_true, if_false]
    omega
  | true =>
    simp only [if_true]
    omega

theorem int32?_signed_eq_iff {negative : Bool} {n n' : Nat} :
    int32? (signed negative n) = int32? (signed negative n') ↔
      n = n' ∨ largest negative < n ∧ largest negative < n' := by
  constructor
  · intro h
    cases hc : int32? (signed negative n) with
    | none =>
      rw [hc] at h
      exact .inr ⟨int32?_signed_eq_none_iff.1 hc, int32?_signed_eq_none_iff.1 h.symm⟩
    | some c =>
      left
      rw [hc] at h
      have heq := (int32?_eq_some_iff.1 hc).trans (int32?_eq_some_iff.1 h.symm).symm
      cases negative <;> simpa [signed] using heq
  · rintro (rfl | ⟨h, h'⟩)
    · rfl
    · rw [int32?_signed_eq_none_iff.2 h, int32?_signed_eq_none_iff.2 h']

/-! ## Whole parts -/

namespace Format

variable {F : Format}

/-- The whole part of the value of a magnitude. -/
def whole (F : Format) (k : Nat) : Nat := F.units k / 2 ^ F.scale

@[simp] theorem whole_zero : F.whole 0 = 0 := by simp [whole]

theorem le_whole_iff {m k : Nat} : m ≤ F.whole k ↔ (m : ℚ) ≤ F.value k := by
  have hpos : (0 : ℚ) < 2 ^ F.scale := by positivity
  rw [whole, Nat.le_div_iff_mul_le (Nat.two_pow_pos _), value, le_div_iff₀ hpos]
  exact_mod_cast Iff.rfl

theorem whole_mono {j k : Nat} (h : j ≤ k) : F.whole j ≤ F.whole k :=
  Nat.div_le_div_right (F.units_le_units h)

theorem whole_eq_of_value {m k : Nat} (h : F.value k = m) : F.whole k = m := by
  refine Nat.le_antisymm ?_ (le_whole_iff.2 h.ge)
  have hle := (le_whole_iff (F := F) (k := k)).1 le_rfl
  rw [h] at hle
  exact_mod_cast hle

/-- Rounding does not go below a whole number that the format has. -/
theorem IsNearest.le_whole {q : ℚ} {m k : Nat} (h : F.IsNearest q k) (hm : F.Represents m)
    (hq : m ≤ q) : m ≤ F.whole k :=
  le_whole_iff.2 (h.le_value hm hq)

end Format

/-! ## Doubles -/

theorem whole_infinity : binary64.whole binary64.infinity = 2 ^ 2 ^ (binary64.exponentBits - 1) := by
  apply Format.whole_eq_of_value
  rw [Format.value_infinity]
  push_cast
  rfl

theorem largest_lt_two_pow (negative : Bool) : largest negative < 2 ^ 53 := by
  cases negative <;> decide

theorem largest_lt_whole_infinity (negative : Bool) :
    largest negative < binary64.whole binary64.infinity := by
  rw [whole_infinity]
  exact (largest_lt_two_pow negative).trans_le (Nat.pow_le_pow_right (by decide) (by decide))

/-- What is not finite has no component: neither has its whole part. -/
theorem truncToInt32?_eq (x : Binary binary64) :
    x.truncToInt32? = int32? (signed x.negative (binary64.whole x.magnitude)) := by
  unfold Binary.truncToInt32?
  split
  · rfl
  · next h =>
    have hmag : binary64.infinity ≤ x.magnitude := by simpa [Binary.isFinite] using h
    have hlarge := lt_of_lt_of_le (largest_lt_whole_infinity x.negative)
      (Format.whole_mono (F := binary64) hmag)
    exact (int32?_signed_eq_none_iff.2 hlarge).symm

/-- Whole numbers up to `2 ^ 53` are doubles. -/
theorem value_nearest_of_le {n : Nat} (hn : n ≤ 2 ^ 53) :
    binary64.value (binary64.nearest n 1) = n := by
  have hmax : (2 : Nat) ^ 53 ≤ 2 ^ 2 ^ (binary64.exponentBits - 1) :=
    Nat.pow_le_pow_right (by decide) (by decide)
  have h := binary64.value_nearest_nat (m := n) (s := 0) hn (by simpa using hn.trans hmax)
  simpa using h

/-- A whole number that is not a double is far beyond 32 bits, and so is the nearest double. -/
theorem int32?_signed_whole_nearest (negative : Bool) (n : Nat) :
    int32? (signed negative (binary64.whole (binary64.nearest n 1))) =
      int32? (signed negative n) := by
  have hexact : ∀ m ≤ 2 ^ 53, binary64.whole (binary64.nearest m 1) = m := fun m hm =>
    Format.whole_eq_of_value (value_nearest_of_le hm)
  rcases Nat.le_total n (2 ^ 53) with h | h
  · rw [hexact n h]
  · have hlargest := largest_lt_two_pow negative
    have hwhole := Format.whole_mono (F := binary64) (binary64.nearest_nat_mono h)
    rw [hexact _ le_rfl] at hwhole
    exact int32?_signed_eq_iff.2 (.inr ⟨lt_of_lt_of_le hlargest hwhole, lt_of_lt_of_le hlargest h⟩)

/-! ## Doubles with the same component -/

/-- A whole number, zero and those beyond the next to 32 bits apart, lies above one of two
values and not above the other. -/
def Separated (negative : Bool) (j k : Nat) : Prop :=
  ∃ m : Nat, 0 < m ∧ m ≤ largest negative + 1 ∧
    (binary64.value j < m ∧ m ≤ binary64.value k ∨ binary64.value k < m ∧ m ≤ binary64.value j)

/-- Two doubles have the same component, or none, unless a whole number separates them. -/
theorem int32?_signed_whole_eq_iff {negative : Bool} {j k : Nat} :
    int32? (signed negative (binary64.whole j)) = int32? (signed negative (binary64.whole k)) ↔
      ¬ Separated negative j k := by
  have hlt : ∀ {m i : Nat}, binary64.value i < m ↔ binary64.whole i < m := by
    intro m i
    rw [← not_le, ← Format.le_whole_iff, not_le]
  simp only [Separated, hlt, ← Format.le_whole_iff, int32?_signed_eq_iff]
  constructor
  · rintro h ⟨m, hm, hmax, hsep⟩
    omega
  · intro h
    by_contra hne
    apply h
    refine ⟨min (binary64.whole j) (binary64.whole k) + 1, ?_, ?_, ?_⟩
    · omega
    · omega
    · omega

end LayerSize
