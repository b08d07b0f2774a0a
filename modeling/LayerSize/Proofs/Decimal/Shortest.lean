import Mathlib.Data.Nat.Digits.Lemmas
import Mathlib.Data.Nat.Factorization.Basic
import LayerSize.Proofs.Decimal.ReadBack

/-!
# No shorter decimal reads back

The decimals that are read back as one magnitude lie next to each other, so the coarsest grid with
one of them on it is found by looking next to the value on each grid.  A decimal on a finer grid
has no fewer digits: between it and the one that is found there would be a power of ten otherwise,
which lies on a coarser grid and is read back as well.

* `Decimal.significant`: the number of digits that a decimal needs;
* `firstGrid_coarse`: on the grids that the search passes over nothing is read back;
* `significant_shortest_le`: no decimal with fewer digits is read back;
* `shortest_eq_of_value`: the values that are their own shortest decimals.
-/

namespace LayerSize

/-! ## Significant digits -/

theorem exists_mul_pow_of_ne_zero {c : ℕ} (hc : c ≠ 0) : ∃ n j, c = n * 10 ^ j ∧ n % 10 ≠ 0 := by
  obtain ⟨j, n, hn, h⟩ := Nat.exists_eq_pow_mul_and_not_dvd hc 10 (by decide)
  exact ⟨n, j, by rw [h, mul_comm], fun hmod => hn (Nat.dvd_of_mod_eq_zero hmod)⟩

/-- Of two powers of ten the lower one is divided out. -/
theorem eq_mul_pow_of_le {m n : ℕ} {a b : ℤ} (h : (m : ℚ) * 10 ^ a = n * 10 ^ b) (hab : a ≤ b) :
    m = n * 10 ^ (b - a).toNat := by
  obtain ⟨t, rfl⟩ := Int.le.dest hab
  have ht : (a + t - a).toNat = t := by omega
  have hpos : (10 : ℚ) ^ a ≠ 0 := zpow_ne_zero a (by norm_num)
  rw [zpow_add₀ (by norm_num), zpow_natCast, mul_left_comm, mul_comm (m : ℚ)] at h
  rw [ht]
  exact_mod_cast mul_left_cancel₀ hpos h

namespace Decimal

variable {d d' : Decimal} {n j l : ℕ}

/-- The number of digits without the zeros at the end; zero has none. -/
def significant (d : Decimal) : ℕ := ((Nat.digits 10 d.coefficient).dropWhile (· == 0)).length

theorem significant_eq (h : d.coefficient = n * 10 ^ j) (hn : n % 10 ≠ 0) :
    d.significant = (Nat.digits 10 n).length := by
  have hpos : 0 < n := Nat.pos_of_ne_zero fun h0 => hn (by rw [h0])
  have hzeros : ∀ x ∈ List.replicate j 0, (x == 0) = true := fun x hx => by
    rw [List.eq_of_mem_replicate hx]
    rfl
  rw [significant, h, mul_comm, Nat.digits_base_pow_mul (by decide) hpos,
    List.dropWhile_append_of_pos hzeros, Nat.digits_def' (by decide) hpos,
    List.dropWhile_cons_of_neg (by simpa using hn)]

/-- A decimal has at most as many significant digits as some other way to write its value has
digits. -/
theorem significant_le_iff :
    d.significant ≤ l ↔ ∃ c : ℕ, c < 10 ^ l ∧ ∃ e : ℤ, d.value = c * 10 ^ e := by
  have hten : (10 : ℚ) ≠ 0 := by norm_num
  by_cases hc : d.coefficient = 0
  · have hzero : d.significant = 0 := by simp [significant, hc]
    rw [hzero]
    exact iff_of_true (Nat.zero_le l) ⟨0, Nat.pow_pos (by decide), 0, by simp [value, hc]⟩
  · obtain ⟨n, j, hnj, hn⟩ := exists_mul_pow_of_ne_zero hc
    have hvalue : d.value = n * 10 ^ (j + d.exponent) := by
      rw [value, hnj, zpow_add₀ hten, zpow_natCast]
      push_cast
      ring
    rw [significant_eq hnj hn, Nat.digits_length_le_iff (by decide)]
    constructor
    · intro hlt
      exact ⟨n, hlt, _, hvalue⟩
    · rintro ⟨c, hlt, e, he⟩
      rw [hvalue] at he
      rcases le_or_gt e (j + d.exponent) with hle | hgt
      · have hcn := eq_mul_pow_of_le he.symm hle
        exact lt_of_le_of_lt (hcn ▸ Nat.le_mul_of_pos_right n (Nat.pow_pos (by decide))) hlt
      · -- then the digits without zeros at the end would end in one
        have hnc := eq_mul_pow_of_le he hgt.le
        obtain ⟨t, ht⟩ : ∃ t, (e - (j + d.exponent)).toNat = t + 1 :=
          ⟨(e - (j + d.exponent)).toNat - 1, by omega⟩
        rw [ht, pow_succ, ← Nat.mul_assoc] at hnc
        omega

theorem significant_congr (h : d.value = d'.value) : d.significant = d'.significant := by
  refine le_antisymm (significant_le_iff.2 ?_) (significant_le_iff.2 ?_)
  · rw [h]
    exact significant_le_iff.1 le_rfl
  · rw [← h]
    exact significant_le_iff.1 le_rfl

end Decimal

/-! ## The search -/

namespace Window

variable {w : Window} {tie : Tie} {i j l m n v : ℕ}

/-- A window has no gaps. -/
theorem contains_of_le (hl : w.contains l = true) (hn : w.contains n = true) (hlm : l ≤ m)
    (hmn : m ≤ n) : w.contains m = true := by
  rw [contains_iff] at *
  cases hclosed : w.closed with
  | false =>
    simp only [hclosed, Bool.false_eq_true, false_and, or_false] at hl hn ⊢
    omega
  | true =>
    simp only [hclosed, true_and] at hl hn ⊢
    omega

section

variable (hvalue : w.contains w.value = true)

include hvalue

/-- The multiples next to the value are looked at, and the others lie beyond them. -/
theorem not_contains_of_nearestMultiple (h : w.nearestMultiple? tie j = none) (m : ℕ) :
    w.contains (m * 10 ^ j) = false := by
  obtain ⟨hbelow, habove⟩ : w.contains (w.value / 10 ^ j * 10 ^ j) = false ∧
      w.contains ((w.value / 10 ^ j + 1) * 10 ^ j) = false := by
    unfold nearestMultiple? at h
    dsimp only at h
    split at h
    · next hbelow habove => exact ⟨hbelow, habove⟩
    · cases h
    · cases h
    · cases tie with
      | up => split_ifs at h
      | even => split_ifs at h
  have hdiv : w.value / 10 ^ j * 10 ^ j ≤ w.value := Nat.div_mul_le_self _ _
  have hlt : w.value < (w.value / 10 ^ j + 1) * 10 ^ j :=
    (Nat.div_lt_iff_lt_mul (Nat.pow_pos (by decide))).1 (Nat.lt_succ_self _)
  by_contra hm
  rw [Bool.not_eq_false] at hm
  rcases Nat.lt_or_ge (w.value / 10 ^ j) m with hgt | hle
  · have hmul : (w.value / 10 ^ j + 1) * 10 ^ j ≤ m * 10 ^ j := Nat.mul_le_mul_right _ hgt
    rw [contains_of_le hvalue hm hlt.le hmul] at habove
    cases habove
  · have hmul : m * 10 ^ j ≤ w.value / 10 ^ j * 10 ^ j := Nat.mul_le_mul_right _ hle
    rw [contains_of_le hm hvalue hmul hdiv] at hbelow
    cases hbelow

/-- A value that is on the grid itself is found there. -/
theorem nearestMultiple_of_value (h : w.value = v * 10 ^ j) :
    w.nearestMultiple? tie j = some v := by
  have hgrid : 0 < 10 ^ j := Nat.pow_pos (by decide)
  have hbelow : w.value / 10 ^ j = v := by rw [h, Nat.mul_div_cancel _ hgrid]
  have hmiddle : 2 * w.value < (v + (v + 1)) * 10 ^ j := by
    rw [h, ← Nat.mul_assoc]
    exact Nat.mul_lt_mul_of_pos_right (by omega) hgrid
  unfold nearestMultiple?
  simp only [hbelow, ← h, hvalue]
  split
  · next hfalse _ => cases hfalse
  · rfl
  · next hfalse _ => cases hfalse
  · exact if_pos hmiddle

/-- Induction on the grids: those that are passed over have no point in the window. -/
theorem firstGrid_coarse (top : ℕ) (hi : (w.firstGrid tie top).2 < i) (hle : i ≤ top) (m : ℕ) :
    w.contains (m * 10 ^ i) = false := by
  induction top with
  | zero => omega
  | succ top ih =>
    unfold firstGrid at hi
    split at hi
    · omega
    · next hnone =>
      rcases hle.lt_or_eq with hlt | rfl
      · exact ih hi (by omega)
      · exact not_contains_of_nearestMultiple hvalue hnone m

theorem firstGrid_of_value (top : ℕ) (hi : (w.firstGrid tie top).2 = i)
    (h : w.value = v * 10 ^ i) : (w.firstGrid tie top).1 = v := by
  induction top with
  | zero =>
    obtain rfl : 0 = i := hi
    simpa [firstGrid] using h
  | succ top ih =>
    unfold firstGrid at hi ⊢
    split at hi
    · next n hn =>
      obtain rfl : top + 1 = i := hi
      rw [nearestMultiple_of_value hvalue h] at hn
      cases hn
      rfl
    · exact ih hi

end

end Window

namespace Format

variable {F : Format} {k c l n v i : ℕ} {q r : ℚ}

/-! ## The window of a magnitude -/

/-- What lies between two numbers that are read back is read back as well. -/
theorem IsNearest.between (h : F.IsNearest q k) (h' : F.IsNearest r k) {num den : ℕ}
    (hden : 0 < den) (hq : q ≤ (num : ℚ) / den) (hr : (num : ℚ) / den ≤ r) :
    F.IsNearest ((num : ℚ) / den) k := by
  have hnear := F.isNearest_nearest num hden
  have hk : F.nearest num den = k := le_antisymm (hnear.mono h' hr) (h.mono hnear hq)
  rwa [hk] at hnear

section

variable (hk : 0 < k)

include hk

theorem window_contains_iff (hfin : k < F.infinity) :
    (F.window k).contains n = true ↔ F.IsNearest ((n : ℚ) / 10 ^ F.scale) k := by
  refine ⟨F.isNearest_of_window hk hfin, fun h => ?_⟩
  have hn : (n : ℚ) / 10 ^ F.scale = (2 * n : ℕ) / (2 * 10 ^ F.scale) := by
    push_cast
    field_simp
  have hpos : (0 : ℚ) < 2 * 10 ^ F.scale := by positivity
  obtain ⟨i, rfl⟩ : ∃ i, k = i + 1 := ⟨k - 1, by omega⟩
  have hlower := h.lower i rfl
  have hupper := h.upper hfin
  rw [midpoint_eq_tens, hn, div_lt_div_iff_of_pos_right hpos, div_left_inj' hpos.ne'] at hlower hupper
  norm_cast at hlower hupper
  rw [Window.contains_iff]
  dsimp only [window]
  rw [Nat.add_sub_cancel, decide_eq_true_eq]
  omega

theorem units_succ_le : F.units (k + 1) ≤ 2 * F.units k := by
  rw [F.units_succ, two_mul]
  refine Nat.add_le_add_left ?_ _
  rcases Nat.lt_or_ge k F.binade with hlt | hge
  · rw [F.units_of_lt hlt, Nat.div_eq_of_lt hlt]
    exact hk
  · rw [F.units_of_le hge]
    exact Nat.le_mul_of_pos_left _ (Nat.add_pos_left F.binade_pos _)

/-- The grids that the search does not look at are too coarse for the window. -/
theorem not_contains_of_coarsest_lt (hi : (F.window k).coarsest < i) (m : ℕ) :
    (F.window k).contains (m * 10 ^ i) = false := by
  have hvalue : F.tens k < 10 ^ (F.window k).coarsest := (F.window k).value_lt_pow_coarsest
  have hhigh : F.tens (k + 1) ≤ 2 * F.tens k := by
    rw [tens, tens, ← Nat.mul_assoc]
    exact Nat.mul_le_mul_right _ (units_succ_le hk)
  have hgrid : 10 ^ (F.window k).coarsest * 10 ≤ 10 ^ i := by
    rw [← pow_succ]
    exact Nat.pow_le_pow_right (by decide) hi
  have hpos : 0 < F.tens k := Nat.mul_pos (F.units_pos hk) (Nat.pow_pos (by decide))
  by_contra hm
  rw [Bool.not_eq_false, Window.contains_iff] at hm
  dsimp only [window] at hm
  cases m with
  | zero => omega
  | succ m =>
    have hle : 10 ^ i ≤ (m + 1) * 10 ^ i := Nat.le_mul_of_pos_left _ m.succ_pos
    omega

end

/-! ## The decimal that is found -/

/-- The point that is found for a magnitude, and the exponent of its grid. -/
def gridPoint (F : Format) (tie : Tie) (k : ℕ) : ℕ × ℕ :=
  (F.window k).firstGrid tie (F.window k).coarsest

section

variable (hk : 0 < k) (tie : Tie)

include hk

theorem shortest_of_pos : F.shortest tie k =
    ⟨(F.gridPoint tie k).1, ((F.gridPoint tie k).2 : ℤ) - F.scale⟩ := by
  rw [shortest, if_neg hk.ne']
  rfl

theorem contains_gridPoint : (F.window k).contains
    ((F.gridPoint tie k).1 * 10 ^ (F.gridPoint tie k).2) = true :=
  Window.contains_firstGrid tie (F.window_contains_value hk) _

/-- All grids with a point in the window are no coarser. -/
theorem gridPoint_coarse (hi : (F.gridPoint tie k).2 < i) (m : ℕ) :
    (F.window k).contains (m * 10 ^ i) = false := by
  rcases Nat.lt_or_ge (F.window k).coarsest i with hlt | hge
  · exact not_contains_of_coarsest_lt hk hlt m
  · exact Window.firstGrid_coarse (F.window_contains_value hk) _ hi hge m

/-- The last digit is not zero: the point would be one of the next grid. -/
theorem gridPoint_mod : (F.gridPoint tie k).1 % 10 ≠ 0 := by
  intro hmod
  obtain ⟨m, hm⟩ := Nat.dvd_of_mod_eq_zero hmod
  have hmem := contains_gridPoint (F := F) hk tie
  have hnot := gridPoint_coarse (F := F) hk tie (Nat.lt_succ_self _) m
  rw [hm, mul_comm 10, Nat.mul_assoc, ← pow_succ'] at hmem
  rw [hmem] at hnot
  cases hnot

/-- A decimal that is read back has as many digits as the one that is found, or more.  On a finer
grid with fewer digits it would lie below a power of ten, and the one that is found above. -/
theorem gridPoint_lt (hfin : k < F.infinity) {e : ℤ} (hc : c < 10 ^ l)
    (h : F.IsNearest (c * 10 ^ e) k) : (F.gridPoint tie k).1 < 10 ^ l := by
  have hten : (10 : ℚ) ≠ 0 := by norm_num
  have hscale : ((10 ^ F.scale : ℕ) : ℚ) = 10 ^ F.scale := by push_cast; rfl
  have hfound := (window_contains_iff hk hfin).1 (contains_gridPoint (F := F) hk tie)
  have hcoarse := fun i hi m => gridPoint_coarse (F := F) (i := i) hk tie hi m
  generalize F.gridPoint tie k = p at *
  by_contra hge
  rcases le_or_gt (e + F.scale) p.2 with hfine | hgt
  · have hl : 0 < l := by
      by_contra hl0
      obtain rfl : l = 0 := by omega
      obtain rfl : c = 0 := by simpa using hc
      have hzero := isNearest_value (F := F) (Nat.zero_le _)
      rw [F.value_zero] at hzero
      rw [Nat.cast_zero, zero_mul] at h
      exact hk.ne' (h.unique hzero)
    have hbelow : (c : ℚ) * 10 ^ e ≤ (10 ^ (l + p.2) : ℕ) / (10 ^ F.scale : ℕ) :=
      calc (c : ℚ) * 10 ^ e ≤ 10 ^ l * 10 ^ ((p.2 : ℤ) - F.scale) := by
            have hexponent : (10 : ℚ) ^ e ≤ 10 ^ ((p.2 : ℤ) - F.scale) :=
              zpow_le_zpow_right₀ (by norm_num) (by omega)
            have hdigits : (c : ℚ) ≤ 10 ^ l := by exact_mod_cast hc.le
            gcongr
        _ = (10 ^ (l + p.2) : ℕ) / (10 ^ F.scale : ℕ) := by
            rw [zpow_sub₀ hten, zpow_natCast, zpow_natCast, pow_add]
            push_cast
            ring
    have habove : ((10 ^ (l + p.2) : ℕ) : ℚ) / (10 ^ F.scale : ℕ) ≤
        (p.1 * 10 ^ p.2 : ℕ) / 10 ^ F.scale := by
      rw [pow_add, hscale]
      gcongr
      exact not_lt.1 hge
    have hpower := h.between hfound (Nat.pow_pos (by decide)) hbelow habove
    rw [hscale] at hpower
    have hnot := hcoarse (l + p.2) (by omega) 1
    rw [Nat.one_mul, (window_contains_iff hk hfin).2 hpower] at hnot
    cases hnot
  · obtain ⟨t, ht⟩ : ∃ t : ℕ, e + F.scale = t := ⟨(e + F.scale).toNat, by omega⟩
    have hvalue : (c : ℚ) * 10 ^ e = (c * 10 ^ t : ℕ) / 10 ^ F.scale := by
      obtain rfl : e = t - F.scale := by omega
      rw [zpow_sub₀ hten, zpow_natCast, zpow_natCast]
      push_cast
      ring
    rw [hvalue] at h
    have hnot := hcoarse t (by omega) c
    rw [(window_contains_iff hk hfin).2 h] at hnot
    cases hnot

end

/-- There are no zeros at the end of the coefficient. -/
theorem coefficient_shortest (F : Format) (tie : Tie) (k : ℕ) :
    (F.shortest tie k).coefficient % 10 ≠ 0 ∨ F.shortest tie k = ⟨0, 0⟩ := by
  rcases Nat.eq_zero_or_pos k with rfl | hk
  · exact .inr (if_pos rfl)
  · rw [shortest_of_pos hk]
    exact .inl (gridPoint_mod hk tie)

/-- No decimal with fewer significant digits is read back. -/
theorem significant_shortest_le (tie : Tie) (hfin : k < F.infinity) {d : Decimal}
    (h : d.nearest F = k) : (F.shortest tie k).significant ≤ d.significant := by
  rcases Nat.eq_zero_or_pos k with rfl | hk
  · exact Nat.zero_le _
  · obtain ⟨c, hc, e, hvalue⟩ := Decimal.significant_le_iff.1 (le_refl d.significant)
    rw [Decimal.nearest_eq_iff, hvalue] at h
    have hmod := gridPoint_mod (F := F) hk tie
    rw [shortest_of_pos hk, Decimal.significant_eq (j := 0) (Nat.mul_one _).symm hmod,
      Nat.digits_length_le_iff (by decide)]
    exact gridPoint_lt hk tie hfin hc h

/-- A value whose digits, without the zeros at the end, cannot be made fewer is its own shortest
decimal. -/
theorem shortest_eq_of_value (hk : 0 < k) (tie : Tie) (h : F.tens k = v * 10 ^ i)
    (hcoarse : ∀ m, (F.window k).contains (m * 10 ^ (i + 1)) = false) :
    F.shortest tie k = ⟨v, (i : ℤ) - F.scale⟩ := by
  have hgrid : (F.gridPoint tie k).2 = i := by
    rcases lt_trichotomy (F.gridPoint tie k).2 i with hlt | heq | hgt
    · have hnot := gridPoint_coarse hk tie hlt v
      have hmem := F.window_contains_value hk
      have hvalue : (F.window k).value = v * 10 ^ i := h
      rw [hvalue, hnot] at hmem
      cases hmem
    · exact heq
    · obtain ⟨t, ht⟩ := Nat.exists_eq_add_of_le (show i + 1 ≤ (F.gridPoint tie k).2 from hgt)
      have hmem := contains_gridPoint (F := F) hk tie
      rw [ht, Nat.add_comm, pow_add, ← Nat.mul_assoc, hcoarse] at hmem
      cases hmem
  have hpoint : (F.gridPoint tie k).1 = v :=
    Window.firstGrid_of_value (F.window_contains_value hk) _ hgrid h
  rw [shortest_of_pos hk, hgrid, hpoint]

end Format

end LayerSize
