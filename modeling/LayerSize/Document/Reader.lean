import LayerSize.Document.Problem
import LayerSize.Json.Skip

/-!
# Reading sizes from documents

A document is one size, a list of sizes, or a record: an object with the member `size`, or the
list of its size alone.  It is read and checked in one go, so a size that is refused ends the
reading, and the events show the sizes read before.

A refusal inside a list or a record is placed after the size and whatever closes or continues
the document there; the refusal of a document that is one size has no place.  A document of another
kind is refused after its value, or before the bracket that its value starts with.

* `readSize`, `readList`, `readRecord`: the three kinds of documents;
* `readValue`: a size whose JSON has been read before.
-/

namespace LayerSize.Document

open Json (Brackets Cause Fault Reads)

/-! ## One size -/

/-- The size that a document is, when the document is a value already. -/
def readValue (v : Json.Value) : Logged (Except Error PixelSize) :=
  .reading ((PixelSize.ofValue v).mapError fun r => ⟨.refused r, none⟩)

/-- The size that a document is.  The end of the text is looked at only when the value is a
size. -/
def readSize (document : List Char) : Logged (Except Error PixelSize) :=
  match Json.value Json.maxDepth document with
  | .error fault => ⟨.error (.ofMalformed document fault), []⟩
  | .ok (v, rest) => match PixelSize.ofValue v with
    | .error r => ⟨.error ⟨.refused r, none⟩, []⟩
    | .ok size =>
      ⟨match Json.finish rest with
        | .error fault => .error (.ofMalformed document fault)
        | .ok () => .ok size, [.read size]⟩

/-! ## Parts of documents -/

/-- The value that a text starts with, and what is left when it is known what it is: arrays and
objects are known from their brackets. -/
def found : List Char → Reads (Found × List Char)
  | '[' :: cs => .ok (.array, '[' :: cs)
  | '{' :: cs => .ok (.object, '{' :: cs)
  | cs => (Json.scalar cs).map fun read => (.ofValue read.1, read.2)

/-- What is wrong with a text that starts with none of the brackets of a form: its value is
malformed, or of another kind. -/
def unexpected (expected : Form) (cs : List Char) : Fault Problem :=
  match found cs with
  | .error fault => fault.map .malformed
  | .ok (found, rest) => .here (.unexpected found expected) rest

/-- How deep values may be nested inside the brackets of a document. -/
def innerDepth : Nat := Json.maxDepth - 1

/-- What a reader of JSON makes of a part of a document. -/
def malformed {α : Type} (reading : Reads α) : Except (Fault Problem) α :=
  reading.mapError (Fault.map .malformed)

/-- A size inside a document; `settle` gives the place at which its refusal is reported. -/
def innerSize (settle : List Char → List Char) (cs : List Char) :
    Except (Fault Problem) (PixelSize × List Char) := do
  let (v, rest) ← malformed (Json.value innerDepth cs)
  match PixelSize.ofValue v with
  | .error r => .error (.here (.refused r) (settle rest))
  | .ok size => .ok (size, rest)

/-- The result of a whole document, from what was read between its brackets and how the
reading ended. -/
def close {α : Type} (document : List Char) (result : α)
    (ending : Except (Fault Problem) (List Char)) : Except Error α := do
  let rest ← ending.mapError (.ofFault document)
  (Json.finish rest).mapError (.ofMalformed document)
  return result

/-! ## A list of sizes -/

/-- After a size that is refused in a list: past its closing bracket or one comma. -/
def settleInList (cs : List Char) : List Char :=
  match Json.skipBlanks cs with
  | ']' :: cs => cs
  | ',' :: cs => Json.skipBlanks cs
  | cs => cs

/-- An item of a list, put before the sizes read so far. -/
def listItem (sizes : List PixelSize) (cs : List Char) :
    Except (Fault Problem) (List PixelSize × List Char) := do
  let (size, rest) ← innerSize settleInList cs
  return (size :: sizes, rest)

/-- The sizes that a document lists. -/
def readList (document : List Char) : Logged (Except Error (List PixelSize)) :=
  match Json.skipBlanks document with
  | '[' :: cs =>
    let read := Brackets.array.fold .malformed listItem [] cs
    let sizes := read.1.reverse
    ⟨close document sizes read.2, sizes.map .read⟩
  | cs => ⟨.error (.ofFault document (unexpected .list cs)), []⟩

/-! ## A record with a size -/

/-- After a record that is left early: past its closing brace. -/
def settleInRecord (cs : List Char) : List Char :=
  match Json.skipBlanks cs with
  | '}' :: cs => cs
  | cs => cs

/-- A member of a record: the size, which must not come twice, or another member, whose value
is passed over. -/
def recordMember (found : Option PixelSize) (cs : List Char) :
    Except (Fault Problem) (Option PixelSize × List Char) := do
  let (name, cs) ← malformed (Json.name cs)
  if name = "size" then
    if found.isSome then .error (.here .duplicateSize (settleInRecord cs))
    else
      let cs ← malformed (Json.colon cs)
      let (size, rest) ← innerSize settleInRecord cs
      return (some size, rest)
  else
    let cs ← malformed (Json.colon cs)
    let rest ← malformed (Json.skipValue cs)
    return (found, rest)

/-- The size among the members of a record, from how the reading of the members ended. -/
def recordSize (document : List Char) (found : Option PixelSize)
    (ending : Except (Fault Problem) (List Char)) : Except Error PixelSize :=
  match found, ending with
  | some size, ending => close document size ending
  | none, .error fault => .error (.ofFault document fault)
  | none, .ok rest => .error (.ofFault document (.here .missingSize rest))

/-- After the only item of a list: its closing bracket. -/
def closeList (cs : List Char) : Reads (List Char) :=
  match Json.skipBlanks cs with
  | [] => .error (.next .endOfArray [])
  | ']' :: rest => .ok rest
  | ',' :: cs => match Json.skipBlanks cs with
    | ']' :: rest => .error (.next .trailingComma (']' :: rest))
    | rest => .error (.next .trailingCharacters rest)
  | rest => .error (.next .trailingCharacters rest)

/-- The size of a record that is written as a list, from after the opening bracket. -/
def readListed (document cs : List Char) : Logged (Except Error PixelSize) :=
  match Brackets.array.first cs with
  | .error fault => ⟨.error (.ofMalformed document fault), []⟩
  | .ok (.closed rest) => ⟨.error (.ofFault document (.here .noItems rest)), []⟩
  | .ok (.entry cs) => match innerSize settleInList cs with
    | .error fault => ⟨.error (.ofFault document fault), []⟩
    | .ok (size, rest) => ⟨close document size (malformed (closeList rest)), [.read size]⟩

/-- The size that a document has as its member `size`, or as the only item of a list. -/
def readRecord (document : List Char) : Logged (Except Error PixelSize) :=
  match Json.skipBlanks document with
  | '{' :: cs =>
    let read := Brackets.object.fold .malformed recordMember none cs
    ⟨recordSize document read.1 read.2, read.1.toList.map .read⟩
  | '[' :: cs => readListed document cs
  | cs => ⟨.error (.ofFault document (unexpected .record cs)), []⟩

end LayerSize.Document
