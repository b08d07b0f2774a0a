import LayerSize.Json.Brackets
import LayerSize.Json.Literal

/-!
# Reading a JSON value

The value at the start of a text, and the value that a whole text is.  Arrays and objects may
be nested to a fixed depth.  In an object the last member of a name counts.

* `value`: a value and the rest of the text;
* `document`: the value that a whole text is.
-/

namespace LayerSize.Json

/-! ## Scalars -/

/-- A value that is neither an array nor an object, at the start of a text without leading
blanks. -/
def scalar : List Char → Reads (Value × List Char)
  | [] => .error (.next .endOfValue [])
  | '"' :: cs => do
    let (s, rest) ← string cs
    return (.string s, rest)
  | 'n' :: cs => do
    let rest ← word ['u', 'l', 'l'] cs
    return (.null, rest)
  | 't' :: cs => do
    let rest ← word ['r', 'u', 'e'] cs
    return (.boolean true, rest)
  | 'f' :: cs => do
    let rest ← word ['a', 'l', 's', 'e'] cs
    return (.boolean false, rest)
  | c :: cs =>
    if c = '-' ∨ c.isDigit then do
      let (literal, rest) ← Literal.scan .endOfValue (c :: cs)
      let n ← literal.number rest
      return (.number n, rest)
    else .error (.next .expectedValue (c :: cs))

/-! ## Arrays and objects -/

section

variable (value : List Char → Reads (Value × List Char))

/-- An item of an array, put before the items read so far. -/
def item (items : List Value) (cs : List Char) : Reads (List Value × List Char) := do
  let (v, rest) ← value cs
  return (v :: items, rest)

/-- A member of an object, put among the members read so far. -/
def member (members : List (String × Value)) (cs : List Char) :
    Reads (List (String × Value) × List Char) := do
  let (name, cs) ← name cs
  let cs ← colon cs
  let (v, rest) ← value cs
  return (Members.insert name v members, rest)

/-- An array, from after its opening bracket. -/
def array (cs : List Char) : Reads (Value × List Char) :=
  let items := Brackets.array.fold id (item value) [] cs
  items.2.map fun rest => (.array items.1.reverse, rest)

/-- An object, from after its opening bracket. -/
def object (cs : List Char) : Reads (Value × List Char) :=
  let members := Brackets.object.fold id (member value) [] cs
  members.2.map fun rest => (.object members.1, rest)

end

/-! ## Values -/

/-- The value at the start of a text, after blanks.  The first argument is how many more
arrays and objects may be open. -/
def value (room : Nat) (cs : List Char) : Reads (Value × List Char) :=
  match room, skipBlanks cs with
  | 0, '[' :: cs => .error (.next .nestedTooDeeply ('[' :: cs))
  | 0, '{' :: cs => .error (.next .nestedTooDeeply ('{' :: cs))
  | room + 1, '[' :: cs => array (value room) cs
  | room + 1, '{' :: cs => object (value room) cs
  | _, cs => scalar cs

/-- How many arrays and objects may be open at once. -/
def maxDepth : Nat := 127

/-- The value that a whole text is. -/
def document (cs : List Char) : Reads Value := do
  let (v, rest) ← value maxDepth cs
  finish rest
  return v

end LayerSize.Json
