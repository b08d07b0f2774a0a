import LayerSize.Binary.Arithmetic
import LayerSize.Decimal.Basic

/-!
# The shortest decimal that reads back

Of the decimals that round to a given floating-point number, the one with the fewest
digits, and of those the one nearest to the number.  A tie between two of them is settled
by a parameter.

The search compares whole numbers only.  With `scale` as the exponent of the smallest
positive value `2 ^ (-scale)`, every number of the format is a whole number of units of
`10 ^ (-scale)`, and every midpoint of two neighbours a whole number of halves of them.
-/

namespace LayerSize

attribute [local instance (2000)] instPowNat

/-- Which of two equally near decimals is taken: the greater one, or the one whose last
digit is even. -/
inductive Tie where
  | up
  | even
  deriving DecidableEq

/-! ## The decimals that read back -/

/-- The whole numbers `n` with `low ≤ 2 * n ≤ high`, or without equality when the window is
not closed, and one of them, its value. -/
structure Window where
  low : Nat
  value : Nat
  high : Nat
  closed : Bool

def Window.contains (w : Window) (n : Nat) : Bool :=
  if w.closed then w.low ≤ 2 * n && 2 * n ≤ w.high else w.low < 2 * n && 2 * n < w.high

namespace Format

variable (F : Format)

/-- The value of a magnitude in units of `10 ^ (-scale)`. -/
def tens (k : Nat) : Nat := F.units k * 5 ^ F.scale

/-- What rounds to the magnitude `k`, for `0 < k`, in units of `10 ^ (-scale)`: all that lies
between the midpoints to the two neighbours, themselves included when `k` is even. -/
def window (k : Nat) : Window where
  low := F.tens (k - 1) + F.tens k
  value := F.tens k
  high := F.tens k + F.tens (k + 1)
  closed := k % 2 = 0

end Format

/-! ## The search -/

namespace Window

/-- The multiple of `10 ^ j` in the window that is nearest to the value, divided by
`10 ^ j`.  If there is any, one of the two next to the value is one. -/
def nearestMultiple? (w : Window) (tie : Tie) (j : Nat) : Option Nat :=
  let grid := 10 ^ j
  let below := w.value / grid
  let above := below + 1
  match w.contains (below * grid), w.contains (above * grid) with
  | false, false => none
  | true, false => some below
  | false, true => some above
  | true, true =>
    let middle := (below + above) * grid
    if 2 * w.value < middle then some below
    else if middle < 2 * w.value then some above
    else match tie with
      | .up => some above
      | .even => some (if below % 2 = 0 then below else above)

/-- The first of the grids `10 ^ j`, `10 ^ (j - 1)`, … that has a point in the window: that
point in units of the grid, and the exponent of the grid.  The finest grid has the value
itself. -/
def firstGrid (w : Window) (tie : Tie) : Nat → Nat × Nat
  | 0 => (w.value, 0)
  | j + 1 => match w.nearestMultiple? tie (j + 1) with
    | some n => (n, j + 1)
    | none => firstGrid w tie j

/-- An exponent so large that the value lies below the first positive point of its grid:
thirteen binary digits never need more than four decimal ones. -/
def coarsest (w : Window) : Nat := 4 * (w.value.log2 / 13 + 1)

theorem value_lt_pow_coarsest (w : Window) : w.value < 10 ^ w.coarsest :=
  calc w.value < 2 ^ (w.value.log2 + 1) := Nat.lt_log2_self
    _ ≤ 2 ^ (13 * (w.value.log2 / 13 + 1)) := Nat.pow_le_pow_right (by decide) (by omega)
    _ = (2 ^ 13) ^ (w.value.log2 / 13 + 1) := by rw [Nat.pow_mul]
    _ ≤ (10 ^ 4) ^ (w.value.log2 / 13 + 1) := Nat.pow_le_pow_left (by decide) _
    _ = 10 ^ w.coarsest := by rw [← Nat.pow_mul]; rfl

end Window

namespace Format

variable (F : Format)

/-- The shortest decimal that rounds to a finite magnitude. -/
def shortest (tie : Tie) (k : Nat) : Decimal :=
  if k = 0 then ⟨0, 0⟩
  else
    let w := F.window k
    let (n, j) := w.firstGrid tie w.coarsest
    ⟨n, (j : Int) - F.scale⟩

end Format

end LayerSize
