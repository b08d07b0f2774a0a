import LayerSize.Decimal.Shortest
import LayerSize.Json.Value

/-!
# The compact text of a JSON value

No space anywhere; members in the order of their names; strings with the shortest escapes.
A double has the fewest digits that read back, a tie between them going to the even digit,
and always a point or an exponent.
-/

namespace LayerSize.Json

/-! ## Strings -/

/-- The hexadecimal digits of a number below 256. -/
def hexPair (n : Nat) : List Char := [Nat.digitChar (n / 16), Nat.digitChar (n % 16)]

/-- A character of a string: quotes, backslashes and control characters are escaped, all
else stands for itself. -/
def escaped (c : Char) : List Char :=
  match c with
  | '"' => ['\\', '"']
  | '\\' => ['\\', '\\']
  | '\x08' => ['\\', 'b']
  | '\x0c' => ['\\', 'f']
  | '\n' => ['\\', 'n']
  | '\r' => ['\\', 'r']
  | '\t' => ['\\', 't']
  | c => if c.toNat < 0x20 then '\\' :: 'u' :: '0' :: '0' :: hexPair c.toNat else [c]

def quote (s : String) : List Char := '"' :: (s.toList.flatMap escaped ++ ['"'])

/-! ## Numbers -/

/-- Decimals whose first digit has an exponent in this range are written without an
exponent. -/
def positionalRange (e : Int) : Bool := -5 ≤ e && e ≤ 15

/-- A decimal as a double: without an exponent it has at least one digit after the
point. -/
def decimalText (d : Decimal) : List Char :=
  if d.coefficient = 0 then ['0', '.', '0']
  else if positionalRange d.leading then
    if 0 ≤ d.exponent then d.positional ++ ['.', '0'] else d.positional
  else d.scientific

def Number.text : Number → List Char
  | integer n _ => integerText n
  | real x _ =>
    let text := decimalText (binary64.shortest .even x.magnitude)
    if x.negative then '-' :: text else text

/-! ## Values -/

mutual

/-- The compact text of a value. -/
def Value.text : Value → List Char
  | .null => ['n', 'u', 'l', 'l']
  | .boolean true => ['t', 'r', 'u', 'e']
  | .boolean false => ['f', 'a', 'l', 's', 'e']
  | .number n => n.text
  | .string s => quote s
  | .array items => '[' :: ([','].intercalate (itemTexts items) ++ [']'])
  | .object members => '{' :: ([','].intercalate (memberTexts members) ++ ['}'])

/-- The texts of the items of an array. -/
def itemTexts : List Value → List (List Char)
  | [] => []
  | v :: vs => v.text :: itemTexts vs

/-- The texts of the members of an object. -/
def memberTexts : List (String × Value) → List (List Char)
  | [] => []
  | (name, v) :: ms => (quote name ++ ':' :: v.text) :: memberTexts ms

end

end LayerSize.Json
