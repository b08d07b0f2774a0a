import Mathlib.Algebra.Order.Field.Power
import LayerSize.Decimal.Shortest
import LayerSize.Proofs.Binary.Rounding

/-!
# Shortest decimals read back

The value of a decimal is all that rounding looks at, and the shortest decimal that is found
for a magnitude rounds to that magnitude.

* `Decimal.value`, `Decimal.nearest_eq_iff`: rounding a decimal is rounding its value;
* `Format.nearest_shortest`: the search ends in the window of the decimals that read back.
-/

namespace LayerSize

/-! ## Rounding decimals -/

namespace Decimal

variable {F : Format}

def value (d : Decimal) : ℚ := d.coefficient * 10 ^ d.exponent

theorem value_eq_div (d : Decimal) :
    d.value = (d.coefficient * 10 ^ d.exponent.toNat : Nat) / (10 ^ (-d.exponent).toNat : Nat) := by
  obtain ⟨c, e⟩ := d
  unfold value
  cases e with
  | ofNat e => simp
  | negSucc e =>
    have hneg : (-Int.negSucc e).toNat = e + 1 := rfl
    have hpos : (Int.negSucc e).toNat = 0 := rfl
    rw [hneg, hpos, zpow_negSucc, pow_zero, mul_one, Nat.cast_pow, div_eq_mul_inv]
    norm_num

theorem isNearest_nearest (F : Format) (d : Decimal) : F.IsNearest d.value (d.nearest F) := by
  rw [nearest_eq, value_eq_div]
  exact F.isNearest_nearest _ (Nat.pow_pos (by decide))

theorem nearest_eq_iff {d : Decimal} {k : Nat} : d.nearest F = k ↔ F.IsNearest d.value k := by
  constructor
  · rintro rfl
    exact isNearest_nearest F d
  · intro h
    exact (isNearest_nearest F d).unique h

theorem nearest_congr {d d' : Decimal} (h : d.value = d'.value) : d.nearest F = d'.nearest F := by
  rw [nearest_eq_iff, h]
  exact isNearest_nearest F d'

end Decimal

/-! ## The search -/

namespace Window

variable {w : Window} {tie : Tie}

theorem contains_iff {n : Nat} :
    w.contains n = true ↔ (w.low < 2 * n ∧ 2 * n < w.high) ∨
      w.closed = true ∧ w.low ≤ 2 * n ∧ 2 * n ≤ w.high := by
  unfold contains
  split
  · next h =>
    simp only [h, Bool.and_eq_true, decide_eq_true_eq, true_and]
    omega
  · next h => simp [h]

theorem contains_nearestMultiple {j n : Nat} (h : w.nearestMultiple? tie j = some n) :
    w.contains (n * 10 ^ j) = true := by
  unfold nearestMultiple? at h
  dsimp only at h
  split at h
  · cases h
  · next hbelow _ =>
    cases h
    exact hbelow
  · next _ habove =>
    cases h
    exact habove
  · next hbelow habove =>
    split at h
    · cases h
      exact hbelow
    · split at h
      · cases h
        exact habove
      · cases tie with
        | up =>
          cases h
          exact habove
        | even =>
          simp only [Option.some.injEq] at h
          rw [← h]
          split
          · exact hbelow
          · exact habove

/-- Induction on the grids: each has a point in the window, or leaves it to the next. -/
theorem contains_firstGrid (tie : Tie) (h : w.contains w.value = true) (j : Nat) :
    w.contains ((w.firstGrid tie j).1 * 10 ^ (w.firstGrid tie j).2) = true := by
  induction j with
  | zero => simpa [firstGrid] using h
  | succ j ih =>
    unfold firstGrid
    split
    · next n hn => exact contains_nearestMultiple hn
    · exact ih

end Window

namespace Format

variable (F : Format)

/-! ## The window -/

theorem value_eq_tens (k : Nat) : F.value k = F.tens k / 10 ^ F.scale := by
  have h10 : (10 : ℚ) ^ F.scale = 2 ^ F.scale * 5 ^ F.scale := by
    rw [← mul_pow]
    norm_num
  rw [value, tens, h10]
  push_cast
  field_simp

theorem midpoint_eq_tens (k : Nat) :
    F.midpoint k = (F.tens k + F.tens (k + 1) : Nat) / (2 * 10 ^ F.scale) := by
  rw [midpoint, value_eq_tens, value_eq_tens]
  push_cast
  field_simp

theorem tens_lt_tens {j k : Nat} (h : j < k) : F.tens j < F.tens k :=
  Nat.mul_lt_mul_of_pos_right (F.units_lt_units h) (Nat.pow_pos (by decide))

theorem window_contains_value {k : Nat} (hk : 0 < k) :
    (F.window k).contains (F.window k).value = true := by
  have hlow : F.tens (k - 1) < F.tens k := F.tens_lt_tens (by omega)
  have hhigh : F.tens k < F.tens (k + 1) := F.tens_lt_tens (by omega)
  rw [Window.contains_iff]
  dsimp only [window]
  omega

/-- What lies in the window of a finite magnitude is nearest to it. -/
theorem isNearest_of_window {k n : Nat} (hk : 0 < k) (hfin : k < F.infinity)
    (h : (F.window k).contains n = true) : F.IsNearest (n / 10 ^ F.scale) k := by
  have hn : (n : ℚ) / 10 ^ F.scale = (2 * n : Nat) / (2 * 10 ^ F.scale) := by
    push_cast
    field_simp
  obtain ⟨i, rfl⟩ : ∃ i, k = i + 1 := ⟨k - 1, by omega⟩
  rw [Window.contains_iff] at h
  dsimp only [window] at h
  rw [Nat.add_sub_cancel, decide_eq_true_eq] at h
  refine ⟨hfin.le, ?_, fun _ => ?_⟩
  · intro j hj
    obtain rfl : j = i := by omega
    rw [midpoint_eq_tens, hn]
    rcases h with ⟨hlow, -⟩ | ⟨heven, hlow, -⟩
    · left
      gcongr
    · rcases hlow.lt_or_eq with hlt | heq
      · left
        gcongr
      · right
        rw [heq]
        exact ⟨rfl, heven⟩
  · rw [midpoint_eq_tens, hn]
    rcases h with ⟨-, hhigh⟩ | ⟨heven, -, hhigh⟩
    · left
      gcongr
    · rcases hhigh.lt_or_eq with hlt | heq
      · left
        gcongr
      · right
        rw [heq]
        exact ⟨rfl, heven⟩

/-- The shortest decimal of a finite magnitude is read back as that magnitude. -/
theorem nearest_shortest (tie : Tie) {k : Nat} (hfin : k < F.infinity) :
    (F.shortest tie k).nearest F = k := by
  unfold shortest
  split
  · next h =>
    rw [h]
    rfl
  · next h =>
    have hk : 0 < k := Nat.pos_of_ne_zero h
    have hmem := Window.contains_firstGrid tie (F.window_contains_value hk) (F.window k).coarsest
    rw [Decimal.nearest_eq_iff]
    have hnear := F.isNearest_of_window hk hfin hmem
    dsimp only
    rw [Decimal.value]
    dsimp only
    rw [zpow_sub₀ (by norm_num), zpow_natCast, zpow_natCast, ← mul_div_assoc]
    exact_mod_cast hnear

end Format

end LayerSize
