import LayerSize.Binary.Nearest
import LayerSize.Decimal.Numeral
import LayerSize.Json.Fault
import LayerSize.Json.Value

/-!
# Number literals of a JSON text

A literal is first split into its parts and then converted.  A literal without fraction and
exponent that fits in 64 bits is an integer.  Any other is a double, computed from at most
64 bits of its digits by one multiplication or by divisions, each of which rounds: the result
may differ from the double nearest to the literal.

* `Literal.scan`: the literal at the start of a text;
* `Literal.number`: the number it stands for.
-/

namespace LayerSize.Json

attribute [local instance (2000)] instPowNat

/-! ## Reading -/

/-- The parts of a number literal.  Every part that is there has a digit; the exponent
comes with whether it is negative. -/
structure Literal where
  negative : Bool
  whole : List Char
  fraction : Option (List Char)
  exponent : Option (Bool × List Char)
  deriving DecidableEq

namespace Literal

/-- At least one digit; `noDigit` tells what is wrong with any other text. -/
def digitRun (noDigit : List Char → Fault Cause) (cs : List Char) :
    Reads (List Char × List Char) :=
  match Numeral.digitRun cs with
  | ([], _) => .error (noDigit cs)
  | (ds, rest) => .ok (ds, rest)

/-- The fault where a digit is missing: `atEnd` at the end of the text, and otherwise a
number that is not one. -/
def missingDigit (atEnd : Cause) (cs : List Char) : Fault Cause :=
  .next (if cs = [] then atEnd else .invalidNumber) cs

/-- The digits before the point; after a zero that comes first there are no others. -/
def scanWhole (atEnd : Cause) : List Char → Reads (List Char × List Char)
  | '0' :: cs =>
    match cs with
    | c :: _ => if c.isDigit then .error (.next .invalidNumber cs) else .ok (['0'], cs)
    | [] => .ok (['0'], [])
  | cs => digitRun (missingDigit atEnd) cs

/-- A point and the digits after it, if there is a point. -/
def scanFraction (atEnd : Cause) : List Char → Reads (Option (List Char) × List Char)
  | '.' :: cs => do
    let (ds, rest) ← digitRun (missingDigit atEnd) cs
    return (some ds, rest)
  | cs => .ok (none, cs)

/-- The letter of an exponent, its sign and its digits, if there is the letter. -/
def scanExponent (atEnd : Cause) : List Char → Reads (Option (Bool × List Char) × List Char)
  | c :: cs =>
    if c = 'e' ∨ c = 'E' then do
      let (negative, cs) := Numeral.sign cs
      let (ds, rest) ← digitRun (missingDigit atEnd) cs
      return (some (negative, ds), rest)
    else .ok (none, c :: cs)
  | [] => .ok (none, [])

/-- The literal at the start of a text. -/
def scan (atEnd : Cause) (cs : List Char) : Reads (Literal × List Char) := do
  let (negative, cs) := match cs with
    | '-' :: cs => (true, cs)
    | cs => (false, cs)
  let (whole, cs) ← scanWhole atEnd cs
  let (fraction, cs) ← scanFraction atEnd cs
  let (exponent, cs) ← scanExponent atEnd cs
  return (⟨negative, whole, fraction, exponent⟩, cs)

/-! ## Conversion -/

/-- Appends digits to a number as long as it stays below `2 ^ 64`; gives the number and
the digits from the first that does not fit. -/
def absorb (n : Nat) : List Char → Nat × List Char
  | [] => (n, [])
  | c :: cs =>
    let n' := 10 * n + digitValue c
    if n' < 2 ^ (64 : Nat) then absorb n' cs else (n, c :: cs)

/-- The largest power of ten that is used as a factor or a divisor is `10 ^ maxPower`. -/
def maxPower : Nat := 308

/-- The double nearest to a power of ten. -/
def power (n : Nat) : Nat := binary64.nearest (10 ^ n) 1

/-- Divides by the largest power so many times. -/
def divideByMax : Nat → Nat → Nat
  | 0, k => k
  | n + 1, k => if k = 0 then 0 else divideByMax n (binary64.quotient k (power maxPower))

/-- The magnitude of the double for `n * 10 ^ x`: infinity when it is out of range. -/
def convert (n : Nat) (x : Int) : Nat :=
  let k := binary64.nearest n 1
  match x with
  | .ofNat x =>
    if x ≤ maxPower then binary64.product k (power x)
    else if k = 0 then 0 else binary64.infinity
  | .negSucc x =>
    let steps := x / maxPower
    binary64.quotient (divideByMax steps k) (power (x + 1 - steps * maxPower))

/-- The exponents of literals are read up to this one. -/
def maxExponent : Nat := 2 ^ (31 : Nat) - 1

/-- How many digits of an exponent come after the one with which it exceeds the largest, if
one does. -/
def digitsBeyond? (e : Nat) : List Char → Option Nat
  | [] => none
  | c :: cs =>
    let e' := 10 * e + digitValue c
    if maxExponent < e' then some cs.length else digitsBeyond? e' cs

/-- The double of the given sign and magnitude, or else the fault of a number that is too
large. -/
def real (negative : Bool) (magnitude : Nat) (rest : List Char) : Reads Number :=
  if h : magnitude < binary64.infinity then
    .ok (.real ⟨negative, magnitude, Nat.lt_trans h binary64.infinity_lt_size⟩
      (decide_eq_true h))
  else .error (.here .numberOutOfRange rest)

/-- An integer literal: a double when it is a negative zero or does not fit in 64 bits. -/
def whole64 (negative : Bool) (n : Nat) (rest : List Char) : Reads Number :=
  match Number.ofInt? (signed negative n) with
  | some m => if negative ∧ n = 0 then real negative 0 rest else .ok m
  | none => real negative (binary64.nearest n 1) rest

/-- The number that a literal stands for; `rest` is the text after the literal. -/
def number (l : Literal) (rest : List Char) : Reads Number :=
  let whole := absorb 0 l.whole
  if l.fraction = none ∧ l.exponent = none ∧ whole.2 = [] then
    whole64 l.negative whole.1 rest
  else
    let fraction := l.fraction.getD []
    let all := absorb whole.1 fraction
    let x := (whole.2.length : Int) - (fraction.length - all.2.length : Nat)
    match l.exponent with
    | none => real l.negative (convert all.1 x) rest
    | some (negative, ds) =>
      match digitsBeyond? 0 ds with
      | none => real l.negative (convert all.1 (x + signed negative (digitsValue ds))) rest
      | some beyond =>
        if negative ∨ all.1 = 0 then real l.negative 0 rest
        else .error ⟨.numberOutOfRange, Text.byteCount rest + beyond⟩

end Literal

end LayerSize.Json
