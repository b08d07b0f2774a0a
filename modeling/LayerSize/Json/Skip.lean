import LayerSize.Json.Brackets
import LayerSize.Json.Literal

/-!
# Passing over a JSON value

A value that nobody asks for is passed over without being built.  It has to be well formed,
but less is checked than for a value that is read: arrays and objects may be nested to any
depth, numbers may be out of range, and surrogates may stand alone.

The brackets that are open are kept in a list, the innermost first.
-/

namespace LayerSize.Json

/-! ## Scalars -/

/-- How many characters an escape has after the backslash. -/
def skipEscape : List Char → Reads Nat
  | [] => .error (.here .endOfString [])
  | 'u' :: cs => (hexCode cs).map fun _ => 5
  | c :: cs =>
    if (letterEscape? c).isSome then .ok 1 else .error (.next .invalidEscape (c :: cs))

/-- The text after the next quote that ends a string.  The first argument counts the
characters to pass over, because they belong to an escape. -/
def skipQuoted : Nat → List Char → Reads (List Char)
  | _, [] => .error (.here .endOfString [])
  | n + 1, _ :: cs => skipQuoted n cs
  | 0, '"' :: cs => .ok cs
  | 0, '\\' :: cs => do
    let n ← skipEscape cs
    skipQuoted n cs
  | 0, c :: cs =>
    if isControl c then .error (.here .controlCharacter (c :: cs)) else skipQuoted 0 cs

/-- The text after a value that is neither an array nor an object. -/
def skipScalar : List Char → Reads (List Char)
  | [] => .error (.next .endOfValue [])
  | '"' :: cs => skipQuoted 0 cs
  | 'n' :: cs => word ['u', 'l', 'l'] cs
  | 't' :: cs => word ['r', 'u', 'e'] cs
  | 'f' :: cs => word ['a', 'l', 's', 'e'] cs
  | c :: cs =>
    if c = '-' ∨ c.isDigit then do
      let (_, rest) ← Literal.scan .invalidNumber (c :: cs)
      return rest
    else .error (.next .expectedValue (c :: cs))

/-! ## Values -/

/-- How far the passing over has come, with the brackets that are open: a value must
follow, brackets have just been opened, or a value has just ended. -/
inductive Stage where
  | start (outer : List Brackets)
  | opened (inner : Brackets) (outer : List Brackets)
  | ended (outer : List Brackets)
  deriving DecidableEq

/-- The start of a value: the whole of it, or its opening bracket. -/
def enter (outer : List Brackets) (cs : List Char) : Reads (Stage × List Char) :=
  match skipBlanks cs with
  | '[' :: cs => .ok (.opened .array outer, cs)
  | '{' :: cs => .ok (.opened .object outer, cs)
  | cs => (skipScalar cs).map fun rest => (.ended outer, rest)

/-- The start of an entry of the innermost brackets: of an item, or of a member up to its
colon. -/
def enterEntry (inner : Brackets) (outer : List Brackets) (cs : List Char) :
    Reads (Stage × List Char) :=
  match inner with
  | .array => enter (.array :: outer) cs
  | .object => do
    let cs ← match skipBlanks cs with
      | [] => throw (.next .endOfObject [])
      | c :: cs => nameQuote (c :: cs)
    let cs ← skipQuoted 0 cs
    let cs ← colon cs
    return (.start (.object :: outer), cs)

/-- Where the closing bracket may stand; `other` goes on with anything else. -/
def closeOr (inner : Brackets) (outer : List Brackets) (cs : List Char)
    (other : List Char → Reads (Stage × List Char)) : Reads (Stage × List Char) :=
  match skipBlanks cs with
  | [] => .error (.next inner.unfinished [])
  | c :: cs => if c = inner.close then .ok (.ended outer, cs) else other (c :: cs)

/-- After an entry, where the brackets do not end: a comma and another entry. -/
def enterNext (inner : Brackets) (outer : List Brackets) : List Char → Reads (Stage × List Char)
  | ',' :: cs => enterEntry inner outer cs
  | cs => .error (.next inner.expected cs)

/-- Goes on until the value has ended and no brackets are open, in at most `n` steps. -/
def skipFrom : Nat → Stage → List Char → Reads (List Char)
  | _, .ended [], cs => .ok cs
  | 0, _, _ => .error (.here .endOfValue [])
  | n + 1, .start outer, cs => do
    let (stage, cs) ← enter outer cs
    skipFrom n stage cs
  | n + 1, .opened inner outer, cs => do
    let (stage, cs) ← closeOr inner outer cs (enterEntry inner outer)
    skipFrom n stage cs
  | n + 1, .ended (inner :: outer), cs => do
    let (stage, cs) ← closeOr inner outer cs (enterNext inner outer)
    skipFrom n stage cs

/-- The text after the value at its start.  Every step takes a character at least, and a
step at the end of the text finds the fault. -/
def skipValue (cs : List Char) : Reads (List Char) := skipFrom (cs.length + 1) (.start []) cs

end LayerSize.Json
