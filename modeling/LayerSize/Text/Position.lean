/-!
# Positions in a text

A text is read by characters, and places in it are counted in the bytes of its UTF-8 form:
a place is the number of bytes before it, and is shown as a line and a column.
-/

namespace LayerSize

namespace Text

-- The zero that sums start from is the core one here, whatever algebra is in scope.
attribute [local instance (2000)] Zero.ofOfNat0

/-- The UTF-8 bytes of a text. -/
def bytes (cs : List Char) : List UInt8 := cs.flatMap String.utf8EncodeChar

/-- The number of UTF-8 bytes of a text. -/
def byteCount (cs : List Char) : Nat := (cs.map Char.utf8Size).sum

@[simp] theorem byteCount_nil : byteCount [] = 0 := rfl

@[simp] theorem byteCount_cons (c : Char) (cs : List Char) :
    byteCount (c :: cs) = c.utf8Size + byteCount cs := rfl

@[simp] theorem byteCount_append (cs ds : List Char) :
    byteCount (cs ++ ds) = byteCount cs + byteCount ds := by
  simp [byteCount]

@[simp] theorem length_bytes (cs : List Char) : (bytes cs).length = byteCount cs := by
  simp [bytes, byteCount, List.length_flatMap]

end Text

/-- A line, counted from one, and a column, counted in bytes from the line's start. -/
structure Position where
  line : Nat
  column : Nat
  deriving DecidableEq

/-- The position just after the given bytes. -/
def Position.after (before : List UInt8) : Position where
  line := 1 + before.count 10
  column := (before.reverse.takeWhile (· != 10)).length

end LayerSize
