import LayerSize.Text.Position

/-!
# Faults in a JSON text

Why a text cannot be read, and where.  While a text is read, a place is the number of bytes
that are still to come; it becomes a line and a column once the whole text is at hand.

Most faults are reported either at the place that the reader has reached, `Fault.here`, or
one byte further, `Fault.next`, the byte that does not fit being taken along.
-/

namespace LayerSize.Json

/-! ## Causes -/

/-- The reasons for which a text is not read as JSON. -/
inductive Cause where
  | endOfValue
  | endOfArray
  | endOfObject
  | endOfString
  | expectedWord
  | expectedValue
  | expectedCommaOrBracket
  | expectedCommaOrBrace
  | expectedColon
  | keyNotString
  | trailingComma
  | trailingCharacters
  | nestedTooDeeply
  | invalidNumber
  | numberOutOfRange
  | invalidEscape
  | loneSurrogate
  | unfinishedSurrogate
  | controlCharacter
  deriving DecidableEq

def Cause.message : Cause → String
  | .endOfValue => "EOF while parsing a value"
  | .endOfArray => "EOF while parsing a list"
  | .endOfObject => "EOF while parsing an object"
  | .endOfString => "EOF while parsing a string"
  | .expectedWord => "expected ident"
  | .expectedValue => "expected value"
  | .expectedCommaOrBracket => "expected `,` or `]`"
  | .expectedCommaOrBrace => "expected `,` or `\x7d`"
  | .expectedColon => "expected `:`"
  | .keyNotString => "key must be a string"
  | .trailingComma => "trailing comma"
  | .trailingCharacters => "trailing characters"
  | .nestedTooDeeply => "recursion limit exceeded"
  | .invalidNumber => "invalid number"
  | .numberOutOfRange => "number out of range"
  | .invalidEscape => "invalid escape"
  | .loneSurrogate => "lone leading surrogate in hex escape"
  | .unfinishedSurrogate => "unexpected end of hex escape"
  | .controlCharacter => "control character (\\u0000-\\u001F) found while parsing a string"

/-- Whether the text merely ends too early. -/
def Cause.isEnd : Cause → Bool
  | .endOfValue | .endOfArray | .endOfObject | .endOfString => true
  | _ => false

/-! ## Faults -/

/-- A cause, and how many bytes of the text come after the place it is reported at. -/
structure Fault (κ : Type) where
  cause : κ
  left : Nat
  deriving DecidableEq

namespace Fault

variable {κ : Type}

/-- A fault at the start of the rest of the text. -/
def here (cause : κ) (rest : List Char) : Fault κ := ⟨cause, Text.byteCount rest⟩

/-- A fault one byte into the rest of the text, or at the end of the text. -/
def next (cause : κ) (rest : List Char) : Fault κ := ⟨cause, Text.byteCount rest - 1⟩

def map {κ' : Type} (f : κ → κ') (x : Fault κ) : Fault κ' := ⟨f x.cause, x.left⟩

@[simp] theorem here_cause (cause : κ) (rest : List Char) : (here cause rest).cause = cause := rfl

@[simp] theorem next_cause (cause : κ) (rest : List Char) : (next cause rest).cause = cause := rfl

/-- Where in the whole text a fault is reported. -/
def position (text : List Char) (x : Fault κ) : Position :=
  Position.after ((Text.bytes text).take (Text.byteCount text - x.left))

end Fault

/-- What a reader makes of a text: what was read, or a fault. -/
abbrev Reads := Except (Fault Cause)

/-- Reading in two parts succeeds when both parts do. -/
theorem bind_eq_ok_iff {ε α β : Type} {x : Except ε α} {f : α → Except ε β} {b : β} :
    (x >>= f) = .ok b ↔ ∃ a, x = .ok a ∧ f a = .ok b := by
  cases x <;> simp [bind, Except.bind]

end LayerSize.Json
