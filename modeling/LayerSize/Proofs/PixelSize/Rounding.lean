import Mathlib.Algebra.Order.Round
import LayerSize.Proofs.PixelSize.SignedValues
import LayerSize.SubpixelSize

/-!
# Rounding to whole pixels

A component in whole pixels is the integer nearest to an exact number, a half going away from
zero, and within 32 bits.  Infinities need no case of their own: the values that stand for them
are far beyond 32 bits.

* `halfAway`: the integer nearest to an exact number;
* `toInt_roundToInt32`: the component that a number is rounded to;
* `value_ofInt32_of_le`: components that are numbers of single precision.
-/

namespace LayerSize

variable {F : Format} {q r : ℚ} {k : ℕ} {c : Int32}

/-! ## The nearest integer -/

/-- The nearest integer, a half going away from zero. -/
def halfAway (q : ℚ) : ℤ := if q < 0 then -round (-q) else round q

theorem halfAway_of_nonneg (h : 0 ≤ q) : halfAway q = round q := if_neg (not_lt.2 h)

@[simp] theorem halfAway_neg (q : ℚ) : halfAway (-q) = -halfAway q := by
  unfold halfAway
  rcases lt_trichotomy q 0 with h | rfl | h
  · rw [if_neg (by linarith), if_pos h, neg_neg]
  · simp
  · rw [if_pos (by linarith), if_neg h.not_gt, neg_neg]

@[simp] theorem halfAway_intCast (n : ℤ) : halfAway n = n := by
  unfold halfAway
  split
  · rw [← Int.cast_neg, round_intCast, neg_neg]
  · exact round_intCast n

theorem round_mono (h : q ≤ r) : round q ≤ round r := by
  rw [round_eq, round_eq]
  exact Int.floor_mono (by linarith)

theorem halfAway_mono (h : q ≤ r) : halfAway q ≤ halfAway r := by
  have hzero : round (0 : ℚ) = 0 := round_zero
  rcases lt_or_ge q 0 with hq | hq
  · rcases lt_or_ge r 0 with hr | hr
    · rw [halfAway, if_pos hq, halfAway, if_pos hr]
      exact neg_le_neg (round_mono (by linarith))
    · have hlow : 0 ≤ round (-q) := hzero ▸ round_mono (by linarith)
      have hhigh : 0 ≤ round r := hzero ▸ round_mono hr
      rw [halfAway, if_pos hq, halfAway_of_nonneg hr]
      omega
  · rw [halfAway_of_nonneg hq, halfAway_of_nonneg (hq.trans h)]
    exact round_mono h

/-! ## 32 bits -/

/-- The nearer end where a number has more than 32 bits. -/
def clamp32 (n : ℤ) : ℤ := max (-2 ^ 31) (min n (2 ^ 31 - 1))

theorem toInt_ofIntClamp (n : ℤ) : (Int32.ofIntClamp n).toInt = clamp32 n := by
  have hmin : Int32.minValue.toInt = -2 ^ 31 := rfl
  have hmax : Int32.maxValue.toInt = 2 ^ 31 - 1 := rfl
  unfold Int32.ofIntClamp clamp32
  split
  · split
    · rw [Int32.toInt_ofIntLE]
      omega
    · omega
  · omega

theorem clamp32_of_abs_lt {n : ℤ} (h : |n| < 2 ^ 31) : clamp32 n = n := by
  rw [abs_lt] at h
  unfold clamp32
  omega

theorem clamp32_mono {m n : ℤ} (h : m ≤ n) : clamp32 m ≤ clamp32 n := by
  unfold clamp32
  omega

theorem clamp32_toInt (c : Int32) : clamp32 c.toInt = c.toInt := by
  have hlow := c.le_toInt
  have hhigh := c.toInt_lt
  unfold clamp32
  omega

namespace Binary

/-! ## From single precision -/

theorem round_value (k : ℕ) : (roundHalfUp (F.units k) (2 ^ F.scale) : ℤ) = round (F.value k) := by
  have hpos : (0 : ℚ) < 2 ^ F.scale := by positivity
  rw [round_eq, eq_comm, roundHalfUp, Format.value]
  have hsum : (F.units k : ℚ) / 2 ^ F.scale + 1 / 2 =
      ((2 * F.units k + 2 ^ F.scale : ℕ) : ℚ) / ((2 * 2 ^ F.scale : ℕ) : ℚ) := by
    push_cast
    field_simp
  rw [hsum, Rat.floor_natCast_div_natCast]
  push_cast
  rfl

theorem halfAway_value (x : Binary F) :
    halfAway x.value = signed x.negative (roundHalfUp x.units (2 ^ F.scale)) := by
  have hround : halfAway (F.value x.magnitude) = roundHalfUp x.units (2 ^ F.scale) := by
    rw [halfAway_of_nonneg (F.value_nonneg _)]
    exact (round_value x.magnitude).symm
  unfold value signed
  cases x.negative with
  | false => simpa using hround
  | true => simpa using hround

theorem toInt_roundToInt32 {x : Binary F} (hx : x.isNaN = false) :
    x.roundToInt32.toInt = clamp32 (halfAway x.value) := by
  rw [roundToInt32, hx, halfAway_value, ← toInt_ofIntClamp]
  rfl

/-! ## To single precision -/

theorem ofInt32_nearestTo (c : Int32) : (ofInt32 c : Binary F).NearestTo c.toInt := by
  have hnear : F.IsNearest (c.toInt.natAbs : ℚ) (F.nearest c.toInt.natAbs 1) := by
    simpa using F.isNearest_nearest c.toInt.natAbs Nat.one_pos
  have hneg : (c.toInt < 0) ↔ (c.toInt : ℚ) < 0 := Int.cast_lt_zero.symm
  refine ⟨fun h => ?_, fun h => ?_, ?_⟩
  · exact (hneg.1 (of_decide_eq_true h)).le
  · exact not_lt.1 fun hlt => of_decide_eq_false h (hneg.2 hlt)
  · rwa [← Int.cast_abs, Int.abs_eq_natAbs, Int.cast_natCast]

theorem value_ofInt32_mono {a b : Int32} (h : a.toInt ≤ b.toInt) :
    (ofInt32 a : Binary F).value ≤ (ofInt32 b : Binary F).value :=
  (ofInt32_nearestTo a).value_mono (ofInt32_nearestTo b) (by exact_mod_cast h)

theorem isFinite_ofInt32 (c : Int32) : (ofInt32 c : Binary binary32).isFinite = true := by
  have hle : c.toInt.natAbs ≤ 2 ^ 31 := by
    have hlow := c.le_toInt
    have hhigh := c.toInt_lt
    omega
  have hfinite : binary32.nearest (2 ^ 31) 1 < binary32.infinity := by decide +kernel
  exact decide_eq_true ((binary32.nearest_nat_mono hle).trans_lt hfinite)

theorem represents_abs_toInt (h : |c.toInt| ≤ 2 ^ 24) :
    binary32.Represents |(c.toInt : ℚ)| := by
  rw [← Int.cast_abs, Int.abs_eq_natAbs, Int.cast_natCast]
  exact Format.represents_nat (by decide) (by rw [Int.abs_eq_natAbs] at h; exact_mod_cast h)

/-- Integers with no more significant bits than single precision are kept. -/
theorem value_ofInt32_of_le (h : |c.toInt| ≤ 2 ^ 24) :
    (ofInt32 c : Binary binary32).value = c.toInt :=
  (ofInt32_nearestTo c).value_eq (represents_abs_toInt h)

end Binary

end LayerSize
