import LayerSize.Binary.Arithmetic
import LayerSize.Decimal.Numeral
import LayerSize.Json.Writer
import LayerSize.PixelSize.Basic
import LayerSize.Text.WhiteSpace

/-!
# The size that a JSON value holds

A size is an object with the members `width` and `height`, each a number or a string that
holds one.  A fraction is cut off.  Other members are ignored.

* `PixelSize.component?`: the component that a value holds;
* `PixelSize.ofValue`: the size that a value holds, or why it holds none.
-/

namespace LayerSize

/-! ## Refusals -/

/-- The two members of a size. -/
inductive Field where
  | width
  | height
  deriving DecidableEq

def Field.name : Field → String
  | .width => "width"
  | .height => "height"

/-- Why a JSON value holds no size: it is no object, a member is missing, or a member holds
no component; the text is that of the member's value. -/
inductive Refusal where
  | notAnObject (found : Json.Kind)
  | missing (field : Field)
  | notAnInteger (field : Field) (text : String)
  deriving DecidableEq

def Refusal.message : Refusal → String
  | .notAnObject found => "Expected a JSON object for size, found " ++ found.name
  | .missing field => "Missing size field '" ++ field.name ++ "'"
  | .notAnInteger field text => "Size field '" ++ field.name ++ "' is not an integer: " ++ text

namespace PixelSize

/-! ## Components -/

/-- The component that a JSON number holds. -/
def numberComponent? : Json.Number → Option Int32
  | .integer n _ => int32? n
  | .real x _ => x.truncToInt32?

/-- The component that a string holds: white space around it does not count, and its numeral
is read in double precision. -/
def stringComponent? (cs : List Char) : Option Int32 :=
  (Numeral.ofText? (Text.trim cs)).bind fun n => (n.nearest binary64).truncToInt32?

/-- The component that a value holds. -/
def component? : Json.Value → Option Int32
  | .number n => numberComponent? n
  | .string s => stringComponent? s.toList
  | _ => none

/-! ## Sizes -/

/-- The component that a member of an object holds. -/
def member (members : List (String × Json.Value)) (field : Field) : Except Refusal Int32 :=
  match Json.Members.get? field.name members with
  | none => .error (.missing field)
  | some v => match component? v with
    | some c => .ok c
    | none => .error (.notAnInteger field (String.ofList v.text))

/-- The size that a value holds.  The width is looked at before the height. -/
def ofValue : Json.Value → Except Refusal PixelSize
  | .object members => do
    let width ← member members .width
    let height ← member members .height
    return ⟨width, height⟩
  | v => .error (.notAnObject v.kind)

end PixelSize

end LayerSize
