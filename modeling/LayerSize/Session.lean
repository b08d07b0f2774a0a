import LayerSize.PixelSize.Text

/-!
# Sessions

A session holds one size, in whole or in fractional pixels, and changes it step by step.
-/

namespace LayerSize

/-- A size of either kind. -/
inductive Size where
  | pixels (s : PixelSize)
  | subpixels (s : SubpixelSize)
  deriving DecidableEq

namespace Size

def toPixels : Size → PixelSize
  | pixels s => s
  | subpixels s => .ofSubpixels s

def toSubpixels : Size → SubpixelSize
  | pixels s => .ofPixels s
  | subpixels s => s

/-- Scaling keeps the kind of the size. -/
def scale : Size → Binary binary32 → Size
  | pixels s, factor => pixels (s.scale factor)
  | subpixels s, factor => subpixels (s.scale factor)

/-- Only sizes in whole pixels report how they are scaled. -/
def scalingEvents : Size → Binary binary32 → List Event
  | pixels s, factor => (s.scaleLogged factor).log
  | subpixels _, _ => []

end Size

/-- A step of a session. -/
inductive Step where
  | set (size : Size)
  | toSubpixels
  | toPixels
  | scale (factor : Binary binary32)
  | read (text : List Char)
  deriving DecidableEq

/-- What a step leads to: the size after it, the failure that kept it as it was, and the
events. -/
structure Outcome where
  size : Size
  failure : Option PixelSize.TextError
  log : List Event
  deriving DecidableEq

namespace Session

/-- One step.  A text that holds no size leaves the size as it is. -/
def step (size : Size) : Step → Outcome
  | .set size' => ⟨size', none, []⟩
  | .toSubpixels => ⟨.subpixels size.toSubpixels, none, []⟩
  | .toPixels => ⟨.pixels size.toPixels, none, []⟩
  | .scale factor => ⟨size.scale factor, none, size.scalingEvents factor⟩
  | .read text =>
    let reading := PixelSize.readText text
    match reading.result with
    | .ok size' => ⟨.pixels size', none, reading.log⟩
    | .error e => ⟨size, some e, reading.log⟩

/-- The outcomes of the steps, one after the other. -/
def run (size : Size) : List Step → List Outcome
  | [] => []
  | s :: steps =>
    let outcome := step size s
    outcome :: run outcome.size steps

end Session

end LayerSize
