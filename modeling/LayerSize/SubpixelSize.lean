import LayerSize.Binary.Arithmetic
import LayerSize.Decimal.Shortest
import LayerSize.PixelSize.Basic

/-!
# Sizes in fractional pixels

Sizes with single precision components, scaling, and the way between them and sizes in
whole pixels.
-/

namespace LayerSize

/-! ## Components -/

/-- A single precision number as text: the fewest digits that read back, the greater of two
equally near, without an exponent; something that is not a number has no sign. -/
def Binary.text (x : Binary binary32) : List Char :=
  if x.isNaN then ['N', 'a', 'N']
  else
    let absolute := if x.isInfinite then ['i', 'n', 'f']
      else (binary32.shortest .up x.magnitude).positional
    if x.negative then '-' :: absolute else absolute

/-! ## Sizes -/

/-- A size in fractional pixels. -/
structure SubpixelSize where
  width : Binary binary32
  height : Binary binary32
  deriving DecidableEq

namespace SubpixelSize

/-- The size as `(width,height)`. -/
def text (s : SubpixelSize) : List Char :=
  '(' :: (s.width.text ++ ',' :: (s.height.text ++ [')']))

/-- Whether two sizes have components of the same values. -/
def equal (s t : SubpixelSize) : Bool := s.width.equal t.width && s.height.equal t.height

/-- Both components multiplied by a factor. -/
def scale (s : SubpixelSize) (factor : Binary binary32) : SubpixelSize :=
  ⟨s.width.mul factor, s.height.mul factor⟩

/-- The nearest size with single precision components. -/
def ofPixels (s : PixelSize) : SubpixelSize := ⟨.ofInt32 s.width, .ofInt32 s.height⟩

end SubpixelSize

namespace PixelSize

/-- Each component rounded to the nearest integer, a half away from zero. -/
def ofSubpixels (s : SubpixelSize) : PixelSize :=
  ⟨s.width.roundToInt32, s.height.roundToInt32⟩

/-- Both components multiplied by a factor in single precision and rounded. -/
def scale (s : PixelSize) (factor : Binary binary32) : PixelSize :=
  ofSubpixels ((SubpixelSize.ofPixels s).scale factor)

end PixelSize

end LayerSize
