import LayerSize.Decimal.Basic

/-!
# Sizes in whole pixels

The width and the height of a layer or tile.  The components may be negative.
-/

namespace LayerSize

/-- A size in whole pixels. -/
structure PixelSize where
  width : Int32
  height : Int32
  deriving DecidableEq, Hashable, Inhabited

namespace PixelSize

/-- The size as `(width,height)`. -/
def text (s : PixelSize) : List Char :=
  '(' :: (integerText s.width.toInt ++ ',' :: (integerText s.height.toInt ++ [')']))

end PixelSize

end LayerSize
