import Mathlib.Data.Rat.Cast.Order
import Mathlib.Tactic.FieldSimp
import Mathlib.Tactic.Linarith
import Mathlib.Tactic.Positivity
import Mathlib.Tactic.Ring
import LayerSize.Binary.Nearest

/-!
# What rounding to the nearest number means

The values of a format as rational numbers, and the magnitude nearest to a rational number
characterised by the midpoints around it.

* `Format.IsNearest`: a magnitude is nearest to what lies between the midpoints to its two
  neighbours, the midpoints themselves going to even magnitudes;
* `isNearest_nearest`, `nearest_eq_iff`: `Format.nearest` finds that magnitude;
* `nearest_mono`, `nearest_value`: rounding keeps the order, and the values of the format;
* `value_nearest_nat`: whole numbers with few significant bits are values of the format;
* `isNearest_product`, `isNearest_quotient`: products and quotients are rounded once.
-/

namespace LayerSize

namespace Format

variable (F : Format)

/-! ## Values and midpoints -/

/-- The value of a magnitude; for infinity it is the value after the largest finite one. -/
def value (k : Nat) : ℚ := F.units k / 2 ^ F.scale

/-- The value halfway between a magnitude and the next one. -/
def midpoint (k : Nat) : ℚ := (F.value k + F.value (k + 1)) / 2

theorem value_nonneg (k : Nat) : 0 ≤ F.value k := by
  unfold value
  positivity

@[simp] theorem value_zero : F.value 0 = 0 := by simp [value]

theorem value_strictMono : StrictMono F.value := by
  intro j k h
  have hu : (F.units j : ℚ) < F.units k := by exact_mod_cast F.units_lt_units h
  unfold value
  gcongr

theorem value_lt_midpoint (k : Nat) : F.value k < F.midpoint k := by
  have := F.value_strictMono (Nat.lt_succ_self k)
  unfold midpoint
  linarith

theorem midpoint_lt_value (k : Nat) : F.midpoint k < F.value (k + 1) := by
  have := F.value_strictMono (Nat.lt_succ_self k)
  unfold midpoint
  linarith

theorem midpoint_lt_of_lt {j k : Nat} (h : j < k) : F.midpoint j < F.value k :=
  lt_of_lt_of_le (F.midpoint_lt_value j) (F.value_strictMono.monotone h)

theorem midpoint_mono {j k : Nat} (h : j ≤ k) : F.midpoint j ≤ F.midpoint k := by
  have h1 := F.value_strictMono.monotone h
  have h2 := F.value_strictMono.monotone (Nat.succ_le_succ h)
  unfold midpoint
  linarith

/-! ## Being nearest -/

/-- The magnitude `k` is the nearest to the value `q`, the even one of two equally near.
Infinity takes the place of all magnitudes above the finite ones. -/
structure IsNearest (q : ℚ) (k : Nat) : Prop where
  le_infinity : k ≤ F.infinity
  lower : ∀ j, j + 1 = k → F.midpoint j < q ∨ F.midpoint j = q ∧ k % 2 = 0
  upper : k < F.infinity → q < F.midpoint k ∨ q = F.midpoint k ∧ k % 2 = 0

variable {F}

theorem IsNearest.mono {q q' : ℚ} {k k' : Nat} (h : F.IsNearest q k) (h' : F.IsNearest q' k')
    (hq : q ≤ q') : k ≤ k' := by
  by_contra hlt
  obtain ⟨j, rfl⟩ : ∃ j, k = j + 1 := ⟨k - 1, by omega⟩
  have hmid : F.midpoint k' ≤ F.midpoint j := F.midpoint_mono (by omega)
  have hinf := h.le_infinity
  rcases h.lower j rfl with hl | ⟨hl, he⟩
  · rcases h'.upper (by omega) with hu | ⟨hu, -⟩ <;> linarith
  · rcases h'.upper (by omega) with hu | ⟨hu, he'⟩
    · linarith
    · -- both midpoints are the value, so the magnitudes are neighbours and not both even
      have heq : F.midpoint k' = F.midpoint j := by linarith
      rcases Nat.lt_or_ge k' j with hkj | hkj
      · have h1 := F.midpoint_lt_of_lt hkj
        have h2 := F.value_lt_midpoint j
        linarith
      · omega

theorem IsNearest.unique {q : ℚ} {k k' : Nat} (h : F.IsNearest q k) (h' : F.IsNearest q k') :
    k = k' :=
  Nat.le_antisymm (h.mono h' le_rfl) (h'.mono h le_rfl)

/-- The values of the format are nearest to themselves. -/
theorem isNearest_value {k : Nat} (hk : k ≤ F.infinity) : F.IsNearest (F.value k) k where
  le_infinity := hk
  lower j hj := .inl (F.midpoint_lt_of_lt (by omega))
  upper _ := .inl (F.value_lt_midpoint k)

/-! ## The magnitude that is found -/

variable (F)

theorem two_mul_binade : 2 * F.binade = 2 ^ F.precision := by
  have := F.one_lt_precision
  rw [binade, ← Nat.pow_succ', Nat.succ_eq_add_one, Nat.sub_add_cancel (by omega)]

/-- Counted in the spacing that is chosen for it, a value has full width, or it lies below
the first binade. -/
theorem div_spacing (num den : Nat) :
    num / (den * 2 ^ F.spacing num den) < 2 * F.binade ∧
      (F.spacing num den = 0 ∨ F.binade ≤ num / (den * 2 ^ F.spacing num den)) := by
  have hp := F.one_lt_precision
  rw [← Nat.div_div_eq_div_mul, two_mul_binade]
  set n := num / den with hn
  have hs : F.spacing num den = n.log2 + 1 - F.precision := rfl
  rw [hs]
  constructor
  · rw [Nat.div_lt_iff_lt_mul (Nat.two_pow_pos _), ← Nat.pow_add]
    exact lt_of_lt_of_le Nat.lt_log2_self (Nat.pow_le_pow_right (by decide) (by omega))
  · by_cases h : n.log2 + 1 ≤ F.precision
    · exact .inl (by omega)
    · right
      have hne : n ≠ 0 := by
        intro h0
        simp [h0] at h
        omega
      rw [Nat.le_div_iff_mul_le (Nat.two_pow_pos _), binade, ← Nat.pow_add]
      exact (Nat.le_log2 hne).1 (by omega)

theorem two_dvd_binade : 2 ∣ F.binade := by
  have := F.one_lt_precision
  exact dvd_pow_self 2 (by omega)

variable {F} in
/-- Where infinity does not matter, the nearest magnitude need only be cut off there. -/
theorem isNearest_min {q : ℚ} {k : Nat}
    (lower : ∀ j, j + 1 = k → F.midpoint j < q ∨ F.midpoint j = q ∧ k % 2 = 0)
    (upper : q < F.midpoint k ∨ q = F.midpoint k ∧ k % 2 = 0) :
    F.IsNearest q (min k F.infinity) := by
  rcases Nat.le_total k F.infinity with hk | hk
  · rw [Nat.min_eq_left hk]
    exact ⟨hk, lower, fun _ => upper⟩
  · rw [Nat.min_eq_right hk]
    refine ⟨le_rfl, ?_, fun h => absurd h (lt_irrefl _)⟩
    intro j hj
    rcases Nat.lt_or_ge F.infinity k with hlt | hge
    · obtain ⟨i, rfl⟩ : ∃ i, k = i + 1 := ⟨k - 1, by omega⟩
      have h1 := F.midpoint_lt_of_lt (show j < i by omega)
      have h2 := F.value_lt_midpoint i
      left
      rcases lower i rfl with h | ⟨h, -⟩ <;> linarith
    · exact Nat.le_antisymm hk hge ▸ lower j (by omega)

theorem spacings_parity (s m : Nat) : (s * F.binade + m) % 2 = m % 2 := by
  obtain ⟨b, hb⟩ := F.two_dvd_binade
  rw [hb, Nat.mul_left_comm, Nat.mul_add_mod]

theorem value_spacings {s m : Nat} (hm : m ≤ 2 * F.binade) (hs : s = 0 ∨ F.binade ≤ m) :
    F.value (s * F.binade + m) = m * (2 ^ s / 2 ^ F.scale) := by
  rw [value, F.units_binade_add hm hs]
  push_cast
  ring

section

variable {s m : Nat} (hm : m < 2 * F.binade) (hs : s = 0 ∨ F.binade ≤ m)

include hm hs

theorem value_next_spacings :
    F.value (s * F.binade + m + 1) = (m + 1) * (2 ^ s / 2 ^ F.scale) := by
  rw [Nat.add_assoc, F.value_spacings (by omega) (by omega)]
  push_cast
  rfl

theorem midpoint_spacings :
    F.midpoint (s * F.binade + m) = (m + 1 / 2) * (2 ^ s / 2 ^ F.scale) := by
  rw [midpoint, F.value_spacings hm.le hs, F.value_next_spacings hm hs]
  ring

/-- Less than half a spacing is rounded down, and half a spacing if that is the even side. -/
theorem isNearest_below {t : ℚ} (h0 : 0 ≤ t) (h : t < 1 / 2 ∨ t = 1 / 2 ∧ m % 2 = 0) :
    F.IsNearest ((m + t) * (2 ^ s / 2 ^ F.scale)) (min (s * F.binade + m) F.infinity) := by
  apply isNearest_min
  · intro j hj
    left
    apply lt_of_lt_of_le (F.midpoint_lt_of_lt (show j < s * F.binade + m by omega))
    rw [F.value_spacings hm.le hs]
    gcongr
    linarith
  · rw [F.midpoint_spacings hm hs, F.spacings_parity]
    rcases h with h | ⟨rfl, he⟩
    · left
      gcongr
    · exact .inr ⟨rfl, he⟩

/-- More than half a spacing is rounded up, and half a spacing if that is the even side. -/
theorem isNearest_above {t : ℚ} (h1 : t < 1) (h : 1 / 2 < t ∨ t = 1 / 2 ∧ m % 2 = 1) :
    F.IsNearest ((m + t) * (2 ^ s / 2 ^ F.scale)) (min (s * F.binade + m + 1) F.infinity) := by
  have hparity := F.spacings_parity s m
  apply isNearest_min
  · intro j hj
    obtain rfl : j = s * F.binade + m := by omega
    rw [F.midpoint_spacings hm hs]
    rcases h with h | ⟨rfl, ho⟩
    · left
      gcongr
    · exact .inr ⟨rfl, by omega⟩
  · left
    apply lt_trans ?_ (F.value_lt_midpoint _)
    rw [F.value_next_spacings hm hs]
    gcongr

end

/-- `Format.nearest` finds the nearest magnitude: the quotient in the chosen spacing gives the
magnitude at or below the value, and the remainder on which side of the midpoint it lies. -/
theorem isNearest_nearest (num : Nat) {den : Nat} (hden : 0 < den) :
    F.IsNearest (num / den) (F.nearest num den) := by
  obtain ⟨hm, hs⟩ := F.div_spacing (num * 2 ^ F.scale) den
  unfold nearest roundHalfEven
  dsimp only
  set n := num * 2 ^ F.scale with hn
  set s := F.spacing n den
  set step := den * 2 ^ s with hstep
  have hstep0 : 0 < step := Nat.mul_pos hden (Nat.two_pow_pos s)
  have hr := Nat.mod_lt n hstep0
  have hdm := Nat.div_add_mod n step
  set m := n / step
  set r := n % step
  have hpos : (0 : ℚ) < step := by exact_mod_cast hstep0
  have hq : (num : ℚ) / den = (m + r / step) * (2 ^ s / 2 ^ F.scale) := by
    have hsum : (num : ℚ) * 2 ^ F.scale = step * m + r := by exact_mod_cast hdm.symm
    have hfraction : (m : ℚ) + r / step = num * 2 ^ F.scale / step := by
      rw [hsum]
      field_simp
    rw [hfraction, hstep]
    push_cast
    field_simp
  rw [hq]
  split
  · next hdown =>
    apply F.isNearest_below hm hs (by positivity)
    rw [div_lt_iff₀ hpos, div_eq_iff hpos.ne']
    rcases hdown with h | ⟨h, he⟩
    · have h' : (2 * r : ℚ) < step := by exact_mod_cast h
      exact .inl (by linarith)
    · have h' : (2 * r : ℚ) = step := by exact_mod_cast h
      exact .inr ⟨by linarith, he⟩
  · next hup =>
    rw [← Nat.add_assoc]
    apply F.isNearest_above hm hs
    · rw [div_lt_one hpos]
      exact_mod_cast hr
    · rw [lt_div_iff₀ hpos, div_eq_iff hpos.ne']
      rcases Nat.lt_or_ge step (2 * r) with h | h
      · have h' : (step : ℚ) < 2 * r := by exact_mod_cast h
        exact .inl (by linarith)
      · have h' : (2 * r : ℚ) = step := by exact_mod_cast (show 2 * r = step by omega)
        exact .inr ⟨by linarith, by omega⟩

/-- The nearest magnitude is the only one that is nearest. -/
theorem nearest_eq_iff {num den k : Nat} (hden : 0 < den) :
    F.nearest num den = k ↔ F.IsNearest (num / den) k := by
  constructor
  · rintro rfl
    exact F.isNearest_nearest num hden
  · intro h
    exact (F.isNearest_nearest num hden).unique h

theorem nearest_mono {num den num' den' : Nat} (hden : 0 < den) (hden' : 0 < den')
    (h : (num : ℚ) / den ≤ num' / den') : F.nearest num den ≤ F.nearest num' den' :=
  (F.isNearest_nearest num hden).mono (F.isNearest_nearest num' hden') h

theorem nearest_value {num den k : Nat} (hden : 0 < den) (hk : k ≤ F.infinity)
    (h : (num : ℚ) / den = F.value k) : F.nearest num den = k := by
  rw [F.nearest_eq_iff hden, h]
  exact isNearest_value hk

/-! ## Whole numbers -/

theorem nearest_nat_mono {m n : Nat} (h : m ≤ n) : F.nearest m 1 ≤ F.nearest n 1 := by
  apply F.nearest_mono Nat.one_pos Nat.one_pos
  gcongr

/-- A whole number of units with no more significant bits than the format has is the value of
a magnitude. -/
theorem exists_units_eq {m : Nat} (hm : m ≤ 2 * F.binade) (s : Nat) :
    ∃ k, F.units k = m * 2 ^ s := by
  induction s generalizing m with
  | zero => exact ⟨0 * F.binade + m, F.units_binade_add hm (.inl rfl)⟩
  | succ s ih =>
    rcases Nat.lt_or_ge m F.binade with h | h
    · obtain ⟨k, hk⟩ := ih (m := 2 * m) (by omega)
      exact ⟨k, by rw [hk, Nat.pow_succ]; ring⟩
    · exact ⟨(s + 1) * F.binade + m, F.units_binade_add hm (.inr h)⟩

/-- Infinity stands for the power of two at which the finite values end. -/
theorem value_infinity : F.value F.infinity = 2 ^ 2 ^ (F.exponentBits - 1) := by
  have hp := F.one_lt_precision
  have he := F.one_lt_exponentBits
  obtain ⟨e, heq⟩ : ∃ e, F.exponentBits = e + 1 := ⟨F.exponentBits - 1, by omega⟩
  have h2 : 2 ≤ 2 ^ e := Nat.le_self_pow (by omega) 2
  have hinf : F.infinity = (2 ^ (e + 1) - 2) * F.binade + F.binade := by
    rw [infinity, heq, ← Nat.succ_mul, Nat.succ_eq_add_one]
    congr 1
    omega
  have hu : F.units F.infinity = 2 ^ 2 ^ e * 2 ^ F.scale := by
    rw [hinf, F.units_binade_add (by omega) (.inr le_rfl), binade, scale, heq, ← Nat.pow_add,
      ← Nat.pow_add, Nat.add_sub_cancel]
    congr 1
    omega
  rw [value, hu, heq, Nat.add_sub_cancel]
  push_cast
  field_simp

/-- A whole number with few significant bits is rounded to itself. -/
theorem value_nearest_nat {m s : Nat} (hm : m ≤ 2 ^ F.precision)
    (hmax : m * 2 ^ s ≤ 2 ^ 2 ^ (F.exponentBits - 1)) :
    F.value (F.nearest (m * 2 ^ s) 1) = (m * 2 ^ s : Nat) := by
  obtain ⟨k, hk⟩ := F.exists_units_eq (hm.trans_eq F.two_mul_binade.symm) (s + F.scale)
  have hv : F.value k = (m * 2 ^ s : Nat) := by
    rw [value, hk, Nat.pow_add]
    push_cast
    field_simp
  have hle : k ≤ F.infinity := by
    rw [← F.value_strictMono.le_iff_le, hv, F.value_infinity]
    exact_mod_cast hmax
  rw [F.nearest_value Nat.one_pos hle (by rw [hv]; simp), hv]

/-! ## Products and quotients -/

theorem isNearest_product (j k : Nat) :
    F.IsNearest (F.value j * F.value k) (F.product j k) := by
  have h := F.isNearest_nearest (F.units j * F.units k) (Nat.two_pow_pos (2 * F.scale))
  have hv : F.value j * F.value k = (F.units j * F.units k : Nat) / (2 ^ (2 * F.scale) : Nat) := by
    unfold value
    push_cast
    field_simp
    ring
  rw [hv]
  exact h

theorem units_pos {k : Nat} (hk : 0 < k) : 0 < F.units k := by
  simpa using F.units_lt_units hk

theorem isNearest_quotient (j : Nat) {k : Nat} (hk : 0 < k) :
    F.IsNearest (F.value j / F.value k) (F.quotient j k) := by
  have h := F.isNearest_nearest (F.units j) (F.units_pos hk)
  have hv : F.value j / F.value k = (F.units j : ℚ) / F.units k := by
    have : (0 : ℚ) < F.units k := by exact_mod_cast F.units_pos hk
    unfold value
    field_simp
  rw [hv]
  exact h

end Format

end LayerSize
