import LayerSize.Proofs.PixelSize.Conversions
import LayerSize.Session

/-!
# Sessions that settle

Steps that convert a size between whole and fractional pixels, or scale it by one, change it at
most once.  As soon as one of them has made a size in whole pixels, the steps that follow go back
and forth between this size and its conversion to fractional pixels.  A conversion to whole pixels
that finds whole pixels keeps them without rounding, and they may still change afterwards.

* `Makes`: the steps that make a size in whole pixels;
* `Settled`: the two sizes that are left;
* `settled_step`, `settled_run`: one step, and all of them, stay with these two;
* `settled_all_iff`: a size that is kept settles when single precision has it;
* `run_settles`: sessions settle.
-/

namespace LayerSize

variable {i : PixelSize} {size : Size} {s : Step} {steps : List Step}

namespace Session

/-! ## Steps -/

/-- The steps that convert a size, or scale it by one. -/
inductive Converts : Step → Prop where
  | toSubpixels : Converts .toSubpixels
  | toPixels : Converts .toPixels
  | scale : Converts (.scale .one)

/-- The size in whole pixels that a step makes, of fractional pixels that it rounds or of whole
ones that it scales. -/
inductive Makes : Size → Step → PixelSize → Prop where
  | rounded (f : SubpixelSize) : Makes (.subpixels f) .toPixels (.ofSubpixels f)
  | scaled (i : PixelSize) (factor : Binary binary32) :
      Makes (.pixels i) (.scale factor) (i.scale factor)

theorem Makes.step_size (h : Makes size s i) : (step size s).size = .pixels i := by
  cases h with
  | rounded | scaled => rfl

/-- Every size that is made has been rounded, and is found again. -/
theorem Makes.ofSubpixels_ofPixels (h : Makes size s i) : .ofSubpixels (.ofPixels i) = i := by
  cases h with
  | rounded f => exact PixelSize.ofSubpixels_ofPixels_ofSubpixels f
  | scaled i factor => exact PixelSize.ofSubpixels_ofPixels_ofSubpixels _

/-! ## Settled sizes -/

/-- The size is the given one, in whole pixels, or its conversion to fractional pixels. -/
def Settled (i : PixelSize) (size : Size) : Prop :=
  size = .pixels i ∨ size = .subpixels (.ofPixels i)

theorem settled_step (hi : .ofSubpixels (.ofPixels i) = i) (h : Settled i size)
    (hs : Converts s) : Settled i (step size s).size := by
  rcases h with rfl | rfl
  · cases hs with
    | toSubpixels => exact .inr rfl
    | toPixels => exact .inl rfl
    | scale => exact .inl (by simp [step, Size.scale, hi])
  · cases hs with
    | toSubpixels => exact .inr rfl
    | toPixels => exact .inl (by simp [step, Size.toPixels, hi])
    | scale => exact .inr (by simp [step, Size.scale])

/-- Induction on the steps. -/
theorem settled_run (hi : .ofSubpixels (.ofPixels i) = i) (h : Settled i size)
    (hs : ∀ s ∈ steps, Converts s) : ∀ o ∈ run size steps, Settled i o.size := by
  induction steps generalizing size with
  | nil => simp [run]
  | cons s steps ih =>
    have hstep := settled_step hi h (hs s (by simp))
    intro o ho
    rcases List.mem_cons.1 ho with rfl | ho
    · exact hstep
    · exact ih hstep (fun s hmem => hs s (by simp [hmem])) o ho

/-- A size in whole pixels that no step has made stays settled only if it is found again after a
conversion: scaling it by one would change any other size. -/
theorem settled_all_iff (i : PixelSize) :
    (∀ steps, (∀ s ∈ steps, Converts s) → ∀ o ∈ run (.pixels i) steps, Settled i o.size) ↔
      PixelSize.ofSubpixels (.ofPixels i) = i := by
  constructor
  · intro h
    have hscaled : Settled i (.pixels (i.scale .one)) :=
      h [.scale .one] (by simp [Converts.scale]) (step (.pixels i) (.scale .one)) (by simp [run])
    rw [PixelSize.scale_one] at hscaled
    rcases hscaled with hsize | hsize
    · exact Size.pixels.inj hsize
    · cases hsize
  · intro hi steps hs
    exact settled_run hi (.inl rfl) hs

/-! ## Sessions -/

/-- The size after all the steps. -/
def sizeAfter (size : Size) (steps : List Step) : Size :=
  steps.foldl (fun size s => (step size s).size) size

theorem length_run (size : Size) (steps : List Step) : (run size steps).length = steps.length := by
  induction steps generalizing size with
  | nil => rfl
  | cons s steps ih => simp [run, ih]

theorem run_append (size : Size) (before after : List Step) :
    run size (before ++ after) = run size before ++ run (sizeAfter size before) after := by
  induction before generalizing size with
  | nil => rfl
  | cons s before ih => simp [run, sizeAfter, ih]

/-- What one conversion has lost, the next ones do not lose again.  So sessions settle: once a
step has made a size in whole pixels, all sizes after conversions and scalings by one are this
size, where they are in whole pixels, and its conversion, where they are in fractional pixels.
Whole pixels that are kept settle alike exactly when a conversion does not change them. -/
theorem run_settles :
    (∀ f : SubpixelSize, PixelSize.ofSubpixels (.ofPixels (.ofSubpixels f)) = .ofSubpixels f) ∧
      (∀ i : PixelSize, SubpixelSize.ofPixels (.ofSubpixels (.ofPixels i)) = .ofPixels i) ∧
      (∀ i : PixelSize, (step (.pixels i) .toPixels).size = .pixels i ∧
        ((∀ after, (∀ t ∈ after, Converts t) → ∀ o ∈ run (.pixels i) after, Settled i o.size) ↔
          PixelSize.ofSubpixels (.ofPixels i) = i)) ∧
      ∀ (size : Size) (before : List Step) (s : Step) (after : List Step) (i : PixelSize),
        Makes (sizeAfter size before) s i → (∀ t ∈ after, Converts t) →
          ∀ o ∈ (run size (before ++ s :: after)).drop before.length, Settled i o.size := by
  refine ⟨PixelSize.ofSubpixels_ofPixels_ofSubpixels, PixelSize.ofPixels_ofSubpixels_ofPixels,
    fun i => ⟨rfl, settled_all_iff i⟩, ?_⟩
  intro size before s after i hmakes hafter o ho
  have hsize : Settled i (step (sizeAfter size before) s).size := .inl hmakes.step_size
  rw [run_append, List.drop_left' (length_run size before), run] at ho
  rcases List.mem_cons.1 ho with rfl | ho
  · exact hsize
  · exact settled_run hmakes.ofSubpixels_ofPixels hsize hafter o ho

/-- A width that single precision does not have is rounded once, by the first step. -/
theorem run_settles_width :
    (∀ t ∈ [.scale .one, .toSubpixels, .toPixels], Converts t) ∧
      Makes (sizeAfter (.pixels ⟨16777217, -7⟩) [.toSubpixels]) .toPixels ⟨16777216, -7⟩ ∧
      ∀ o ∈ (run (.pixels ⟨16777217, -7⟩)
          ([.toSubpixels] ++ .toPixels :: [.scale .one, .toSubpixels, .toPixels])).drop 1,
        Settled ⟨16777216, -7⟩ o.size := by
  have hafter : ∀ t ∈ [.scale .one, .toSubpixels, .toPixels], Converts t := by
    simp [Converts.scale, Converts.toSubpixels, Converts.toPixels]
  have hmakes : Makes (sizeAfter (.pixels ⟨16777217, -7⟩) [.toSubpixels]) .toPixels
      ⟨16777216, -7⟩ := by
    have hrounded : PixelSize.ofSubpixels (.ofPixels ⟨16777217, -7⟩) = ⟨16777216, -7⟩ := by
      decide +kernel
    rw [← hrounded]
    exact .rounded _
  exact ⟨hafter, hmakes, run_settles.2.2.2 _ _ _ _ _ hmakes hafter⟩

/-- The conversion to whole pixels keeps a width that single precision does not have, and the
scaling by one changes it afterwards. -/
theorem run_toPixels_unsettled :
    let size : PixelSize := ⟨16777217, 0⟩
    (∀ t ∈ [.toPixels, .scale .one], Converts t) ∧
      (run (.pixels size) [.toPixels, .scale .one]).map Outcome.size =
        [.pixels size, .pixels ⟨16777216, 0⟩] ∧
      ¬ ∀ o ∈ run (.pixels size) [.toPixels, .scale .one], Settled size o.size := by
  intro size
  have hsteps : ∀ t ∈ [.toPixels, .scale .one], Converts t := by
    simp [Converts.toPixels, Converts.scale]
  have hsizes : (run (.pixels size) [.toPixels, .scale .one]).map Outcome.size =
      [.pixels size, .pixels ⟨16777216, 0⟩] := by
    decide +kernel
  refine ⟨hsteps, hsizes, fun hsettled => ?_⟩
  have hmem : .pixels ⟨16777216, 0⟩ ∈
      (run (.pixels size) [.toPixels, .scale .one]).map Outcome.size := by
    rw [hsizes]
    simp
  obtain ⟨o, ho, hsize⟩ := List.mem_map.1 hmem
  have hlast := hsettled o ho
  rw [hsize] at hlast
  rcases hlast with hlast | hlast
  · exact absurd hlast (by decide)
  · cases hlast

end Session

end LayerSize
