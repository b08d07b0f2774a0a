import LayerSize.Event
import LayerSize.Json.Reader
import LayerSize.PixelSize.Value

/-!
# The size that a JSON text holds

A text is first read as a JSON value, to its end, and the value then as a size.

* `PixelSize.ofText`: the size that a text holds, or why it holds none;
* `PixelSize.readValue`, `PixelSize.readText`: reading with the events it reports.
-/

namespace LayerSize

open Json (Cause Fault)

/-! ## Malformed texts -/

/-- Why a text is not read as JSON, and the place where that is found out. -/
structure Malformed where
  cause : Cause
  position : Position
  deriving DecidableEq

/-- The kinds of failures: a text that ends too early, any other text that is not JSON, and
JSON that is not what is asked for. -/
inductive Category where
  | truncated
  | malformed
  | data
  deriving DecidableEq

/-- The kind of a failure to read JSON. -/
def Category.ofCause (cause : Cause) : Category :=
  if cause.isEnd then .truncated else .malformed

/-- The message of a cause that is found at a position. -/
def messageAt (message : String) (position : Position) : String :=
  message ++ " at line " ++ Nat.repr position.line ++ " column " ++ Nat.repr position.column

def Malformed.message (m : Malformed) : String := messageAt m.cause.message m.position

/-- What a fault in a text is to the reader of the whole text. -/
def Malformed.ofFault (text : List Char) (fault : Fault Cause) : Malformed :=
  ⟨fault.cause, fault.position text⟩

namespace PixelSize

/-! ## Reading a text as a size -/

/-- Why a text holds no size. -/
inductive TextError where
  | malformed (m : Malformed)
  | refused (r : Refusal)
  deriving DecidableEq

def TextError.message : TextError → String
  | .malformed m => "Failed to deserialize size: " ++ m.message
  | .refused r => r.message

/-- The size that a text holds: the text is read as a JSON value, and the value as a size. -/
def ofText (text : List Char) : Except TextError PixelSize := do
  let v ← (Json.document text).mapError fun fault => .malformed (.ofFault text fault)
  (ofValue v).mapError .refused

/-! ## Reading with events -/

/-- The size that a value holds, reported when it is read. -/
def readValue (v : Json.Value) : Logged (Except Refusal PixelSize) := .reading (ofValue v)

/-- The size that a text holds, reported when it is read. -/
def readText (text : List Char) : Logged (Except TextError PixelSize) := .reading (ofText text)

end PixelSize

end LayerSize
