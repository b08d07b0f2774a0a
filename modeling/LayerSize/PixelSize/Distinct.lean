import Std.Data.HashSet.Basic
import LayerSize.PixelSize.Basic

/-!
# Distinct sizes

Sizes are put into a hash set one after the other, and those that were not in it are kept.
-/

namespace LayerSize.PixelSize

/-- The sizes that are not in the set, each at its first place. -/
def distinctFrom (seen : Std.HashSet PixelSize) : List PixelSize → List PixelSize
  | [] => []
  | s :: sizes =>
    if seen.contains s then distinctFrom seen sizes
    else s :: distinctFrom (seen.insert s) sizes

/-- The sizes of a list, each at its first place. -/
def distinct (sizes : List PixelSize) : List PixelSize := distinctFrom ∅ sizes

end LayerSize.PixelSize
