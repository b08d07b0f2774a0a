import LayerSize.SubpixelSize

/-!
# Events

What is reported besides results: every size that was read, and every scaling in whole pixels
by a factor that is no finite number.
-/

namespace LayerSize

/-- Something worth reporting. -/
inductive Event where
  | read (size : PixelSize)
  | notFinite (size : PixelSize) (factor : Binary binary32)
  deriving DecidableEq

/-- How serious an event is. -/
inductive Level where
  | trace
  | warning
  deriving DecidableEq

def Level.name : Level → String
  | .trace => "TRACE"
  | .warning => "WARN"

namespace Event

def level : Event → Level
  | read _ => .trace
  | notFinite _ _ => .warning

def message : Event → String
  | read size => "deserialized size " ++ String.ofList size.text
  | notFinite size factor =>
    "scaling size " ++ String.ofList size.text ++ " by non finite factor " ++
      String.ofList factor.text

/-- The level and the message. -/
def record (e : Event) : String := e.level.name ++ " " ++ e.message

/-- The events of reading one size: a size that was read is reported, a failure is not. -/
def ofReading {ε : Type} : Except ε PixelSize → List Event
  | .ok size => [read size]
  | .error _ => []

/-- The events of scaling a size in whole pixels. -/
def ofScaling (size : PixelSize) (factor : Binary binary32) : List Event :=
  if factor.isFinite then [] else [notFinite size factor]

end Event

/-! ## Results with events -/

/-- A result and the events reported on the way to it, the first one first. -/
structure Logged (α : Type) where
  result : α
  log : List Event
  deriving DecidableEq

/-- A size that was read, or the failure to read it, with its events. -/
def Logged.reading {ε : Type} (r : Except ε PixelSize) : Logged (Except ε PixelSize) :=
  ⟨r, Event.ofReading r⟩

/-- Scaling in whole pixels with its events. -/
def PixelSize.scaleLogged (s : PixelSize) (factor : Binary binary32) : Logged PixelSize :=
  ⟨s.scale factor, Event.ofScaling s factor⟩

end LayerSize
