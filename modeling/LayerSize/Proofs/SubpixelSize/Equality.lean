import LayerSize.Proofs.SubpixelSize.Products

/-!
# Equality of fractional pixels

Sizes in fractional pixels are equal if their components have the same values.  That is less than
being the same: a zero equals the one of the other sign, and what is not a number equals nothing.
Rounding and scaling do not tell equal sizes apart all the same.

* `SameValue`, `equal_iff`: equality, said over exact values;
* `SameValue.eq_or_isZero`: the numbers that are equal;
* `SameValue.mul`: the products of equal numbers;
* `SubpixelSize.equal_congruence`: equality of sizes.
-/

namespace LayerSize

namespace Binary

variable {F : Format} {x y z : Binary F}

/-! ## Equal numbers -/

/-- Both are numbers, and their values are the same. -/
structure SameValue (x y : Binary F) : Prop where
  left : x.isNaN = false
  right : y.isNaN = false
  value_eq : x.value = y.value

theorem rank_eq_rank_iff : x.rank = y.rank ↔ x.value = y.value := by
  rw [le_antisymm_iff, le_antisymm_iff, rank_le_rank_iff, rank_le_rank_iff]

theorem equal_iff : x.equal y = true ↔ SameValue x y := by
  simp only [equal, Bool.and_eq_true, Bool.not_eq_true', beq_iff_eq, rank_eq_rank_iff]
  exact ⟨fun h => ⟨h.1.1, h.1.2, h.2⟩, fun h => ⟨⟨h.left, h.right⟩, h.value_eq⟩⟩

theorem SameValue.symm (h : SameValue x y) : SameValue y x :=
  ⟨h.right, h.left, h.value_eq.symm⟩

theorem SameValue.trans (h : SameValue x y) (h' : SameValue y z) : SameValue x z :=
  ⟨h.left, h'.right, h.value_eq.trans h'.value_eq⟩

theorem sameValue_self_iff : SameValue x x ↔ x.isNaN = false :=
  ⟨SameValue.left, fun h => ⟨h, h, rfl⟩⟩

/-- Only zeros may differ in their sign. -/
theorem SameValue.eq_or_isZero (h : SameValue x y) :
    x = y ∨ x.isZero = true ∧ y.isZero = true := by
  have hmag : x.magnitude = y.magnitude := by
    refine F.value_strictMono.injective ?_
    rw [← abs_value, ← abs_value, h.value_eq]
  by_cases hsign : x.negative = y.negative
  · exact .inl (eq_of_value_eq hsign h.value_eq)
  · right
    have hvalue := h.value_eq
    have hzero : F.value x.magnitude = F.value 0 := by
      rw [F.value_zero]
      unfold value at hvalue
      rw [← hmag] at hvalue
      cases hx : x.negative <;> cases hy : y.negative <;> simp [hx, hy] at hsign hvalue <;> linarith
    have hx0 : x.magnitude = 0 := F.value_strictMono.injective hzero
    exact ⟨decide_eq_true hx0, decide_eq_true (hmag ▸ hx0)⟩

/-! ## What is done with them -/

theorem SameValue.roundToInt32_eq (h : SameValue x y) : x.roundToInt32 = y.roundToInt32 := by
  rw [← Int32.toInt_inj, toInt_roundToInt32 h.left, toInt_roundToInt32 h.right, h.value_eq]

/-- The two are equal, or neither of them is a number. -/
def SameOrNaN (x y : Binary F) : Prop := SameValue x y ∨ x.isNaN = true ∧ y.isNaN = true

theorem SameOrNaN.refl (x : Binary F) : SameOrNaN x x := by
  cases h : x.isNaN with
  | false => exact .inl (sameValue_self_iff.2 h)
  | true => exact .inr ⟨h, h⟩

theorem SameOrNaN.isNaN_eq (h : SameOrNaN x y) : x.isNaN = y.isNaN := by
  rcases h with h | ⟨hx, hy⟩
  · rw [h.left, h.right]
  · rw [hx, hy]

theorem SameOrNaN.roundToInt32_eq (h : SameOrNaN x y) : x.roundToInt32 = y.roundToInt32 := by
  rcases h with h | ⟨hx, hy⟩
  · exact h.roundToInt32_eq
  · rw [roundToInt32_of_isNaN hx, roundToInt32_of_isNaN hy]

theorem SameOrNaN.equal (h : SameOrNaN x y) (hx : x.isNaN = false) : x.equal y = true := by
  rcases h with h | ⟨hnan, -⟩
  · exact equal_iff.2 h
  · simp [hx] at hnan

/-- The products with zeros are zeros for a finite factor, and are not numbers for all others. -/
theorem sameOrNaN_mul_of_isZero (hx : x.isZero = true) (hy : y.isZero = true) (f : Binary F) :
    SameOrNaN (x.mul f) (y.mul f) := by
  cases hfinite : f.isFinite with
  | true =>
    have hzero : ∀ {z : Binary F}, z.isZero = true → (z.mul f).NearestTo 0 := by
      intro z hz
      have hmag : z.magnitude = 0 := of_decide_eq_true hz
      have hvalue : z.value = 0 := by simp [value, hmag]
      have hnear := nearestTo_mul (isFinite_of_isZero hz) hfinite
      rwa [hvalue, zero_mul] at hnear
    have hnear := hzero hx
    have hnear' := hzero hy
    exact .inl ⟨hnear.isNaN, hnear'.isNaN, hnear.value_unique hnear'⟩
  | false =>
    have hnone : ∀ {z : Binary F}, z.isZero = true → NoProduct z f := by
      intro z hz
      by_cases hnan : f.isNaN = true
      · exact .inr (.inl hnan)
      · have hinf : f.isInfinite = true := by
          by_contra h
          rw [Bool.not_eq_true] at h hnan
          simp [isFinite_iff.2 ⟨hnan, h⟩] at hfinite
        exact .inr (.inr (.inl ⟨hz, hinf⟩))
    rw [mul_of_noProduct (hnone hx), mul_of_noProduct (hnone hy)]
    exact .refl nan

theorem SameValue.mul (h : SameValue x y) (f : Binary F) : SameOrNaN (x.mul f) (y.mul f) := by
  rcases h.eq_or_isZero with rfl | ⟨hx, hy⟩
  · exact .refl _
  · exact sameOrNaN_mul_of_isZero hx hy f

end Binary

/-! ## Sizes -/

namespace SubpixelSize

variable {s t u : SubpixelSize} {f : Binary binary32}

/-- One of the components is not a number. -/
def HasNaN (s : SubpixelSize) : Prop := s.width.isNaN = true ∨ s.height.isNaN = true

theorem equal_iff : s.equal t = true ↔
    s.width.SameValue t.width ∧ s.height.SameValue t.height := by
  rw [equal, Bool.and_eq_true, Binary.equal_iff, Binary.equal_iff]

theorem equal_comm (s t : SubpixelSize) : s.equal t = t.equal s := by
  rw [Bool.eq_iff_iff, equal_iff, equal_iff]
  exact ⟨fun h => ⟨h.1.symm, h.2.symm⟩, fun h => ⟨h.1.symm, h.2.symm⟩⟩

theorem equal_trans (h : s.equal t = true) (h' : t.equal u = true) : s.equal u = true := by
  rw [equal_iff] at h h' ⊢
  exact ⟨h.1.trans h'.1, h.2.trans h'.2⟩

theorem equal_self_eq_false_iff : s.equal s = false ↔ s.HasNaN := by
  rw [← Bool.not_eq_true, equal_iff, Binary.sameValue_self_iff, Binary.sameValue_self_iff, HasNaN]
  cases s.width.isNaN <;> cases s.height.isNaN <;> simp

theorem ofSubpixels_eq_of_equal (h : s.equal t = true) :
    PixelSize.ofSubpixels s = .ofSubpixels t := by
  rw [equal_iff] at h
  rw [PixelSize.ofSubpixels, PixelSize.ofSubpixels, h.1.roundToInt32_eq, h.2.roundToInt32_eq]

/-- The scaled sizes of two, component by component. -/
theorem sameOrNaN_scale (h : s.equal t = true) (f : Binary binary32) :
    (s.scale f).width.SameOrNaN (t.scale f).width ∧
      (s.scale f).height.SameOrNaN (t.scale f).height := by
  rw [equal_iff] at h
  exact ⟨h.1.mul f, h.2.mul f⟩

theorem ofSubpixels_scale_eq_of_equal (h : s.equal t = true) (f : Binary binary32) :
    PixelSize.ofSubpixels (s.scale f) = .ofSubpixels (t.scale f) := by
  obtain ⟨hw, hh⟩ := sameOrNaN_scale h f
  rw [PixelSize.ofSubpixels, PixelSize.ofSubpixels, hw.roundToInt32_eq, hh.roundToInt32_eq]

theorem equal_scale (h : s.equal t = true) (hnan : ¬ (s.scale f).HasNaN) :
    (s.scale f).equal (t.scale f) = true := by
  obtain ⟨hw, hh⟩ := sameOrNaN_scale h f
  simp only [HasNaN, not_or, Bool.not_eq_true] at hnan
  rw [equal, hw.equal hnan.1, hh.equal hnan.2]
  rfl

/-- Sizes are equal if their components have the same values.  This is symmetric and transitive,
and a size equals itself unless a component is not a number.  Equal sizes are rounded alike, also
after they are scaled, and scaled to equal sizes unless a component of them is not a number; it is
none in both then. -/
theorem equal_congruence :
    (∀ s t : SubpixelSize, s.equal t = true ↔
        s.width.SameValue t.width ∧ s.height.SameValue t.height) ∧
      (∀ s t : SubpixelSize, s.equal t = t.equal s) ∧
      (∀ s t u : SubpixelSize, s.equal t = true → t.equal u = true → s.equal u = true) ∧
      (∀ s : SubpixelSize, s.equal s = false ↔ s.HasNaN) ∧
      ∀ s t : SubpixelSize, s.equal t = true →
        PixelSize.ofSubpixels s = .ofSubpixels t ∧
          ∀ f : Binary binary32, PixelSize.ofSubpixels (s.scale f) = .ofSubpixels (t.scale f) ∧
            (s.scale f).width.isNaN = (t.scale f).width.isNaN ∧
            (s.scale f).height.isNaN = (t.scale f).height.isNaN ∧
            (¬ (s.scale f).HasNaN → (s.scale f).equal (t.scale f) = true) := by
  refine ⟨fun _ _ => equal_iff, equal_comm, fun _ _ _ => equal_trans,
    fun _ => equal_self_eq_false_iff, ?_⟩
  intro s t h
  refine ⟨ofSubpixels_eq_of_equal h, fun f => ?_⟩
  obtain ⟨hw, hh⟩ := sameOrNaN_scale h f
  exact ⟨ofSubpixels_scale_eq_of_equal h f, hw.isNaN_eq, hh.isNaN_eq, equal_scale h⟩

/-- Zeros of both signs and an infinity, scaled by a negative number and by infinity. -/
theorem equal_congruence_zeros :
    ((⟨0, .infinity false⟩ : SubpixelSize).equal ⟨-0, .infinity false⟩ = true ∧
        (⟨-0, .infinity false⟩ : SubpixelSize).equal ⟨0, .infinity false⟩ = true ∧
        ¬ (scale ⟨0, .infinity false⟩ (.ofInt32 (-3))).HasNaN) ∧
      (⟨0, .infinity false⟩ : SubpixelSize).equal ⟨0, .infinity false⟩ = true ∧
      (scale ⟨0, .infinity false⟩ (.ofInt32 (-3))).equal
        (scale ⟨-0, .infinity false⟩ (.ofInt32 (-3))) = true ∧
      PixelSize.ofSubpixels (scale ⟨0, .infinity false⟩ (.infinity true)) =
        .ofSubpixels (scale ⟨-0, .infinity false⟩ (.infinity true)) := by
  have hequal : (⟨0, .infinity false⟩ : SubpixelSize).equal ⟨-0, .infinity false⟩ = true := by
    decide
  have hequal' : (⟨-0, .infinity false⟩ : SubpixelSize).equal ⟨0, .infinity false⟩ = true := by
    decide
  have hnumbers : ¬ (scale ⟨0, .infinity false⟩ (.ofInt32 (-3))).HasNaN := by
    unfold HasNaN
    decide +kernel
  have h := (equal_congruence.2.2.2.2 _ _ hequal).2
  exact ⟨⟨hequal, hequal', hnumbers⟩, equal_congruence.2.2.1 _ _ _ hequal hequal',
    (h (.ofInt32 (-3))).2.2.2 hnumbers, (h (.infinity true)).1⟩

end SubpixelSize

end LayerSize
