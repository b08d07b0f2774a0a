import Mathlib.Algebra.Ring.Int.Defs
import Mathlib.Algebra.Ring.Nat
import LayerSize.Json.Reader

/-!
# The grammar of JSON texts

Which texts are JSON, and which value each of them denotes, said without reading anything:
a text is put together from the texts of its parts.

* `QuotedText`: what may stand between two quotes, and the characters it denotes;
* `LiteralText`, `Literal.Denotes`: number literals, their parts, and the number meant;
* `Entries`: entries with commas between them and blanks around each;
* `ValueText room`: the texts of values with at most `room` brackets open at any place;
* `DocumentText`: a value with blanks around it, the form of a whole text.

The limits are part of the grammar: at most 127 brackets may be open at once, control
characters do not stand in strings as they are, surrogates are escaped in pairs, and the
double of a literal is finite.
-/

namespace LayerSize.Json

/-! ## Blanks -/

/-- Insignificant white space. -/
def Blanks (bs : List Char) : Prop := ∀ b ∈ bs, b ∈ [' ', '\n', '\t', '\r']

/-! ## Strings -/

/-- The hexadecimal digit of a value, in either case. -/
def HexDigit (c : Char) (n : Nat) : Prop :=
  "0123456789abcdef".toList[n]? = some c ∨ "0123456789ABCDEF".toList[n]? = some c

instance (c : Char) (n : Nat) : Decidable (HexDigit c n) :=
  inferInstanceAs (Decidable (_ ∨ _))

/-- Four hexadecimal digits and the number they write. -/
inductive HexCode : List Char → Nat → Prop where
  | mk {a b c d : Char} {i j k l : Nat} (ha : HexDigit a i) (hb : HexDigit b j)
      (hc : HexDigit c k) (hd : HexDigit d l) :
      HexCode [a, b, c, d] (i * 16 ^ 3 + j * 16 ^ 2 + k * 16 + l)

/-- The letters that may follow a backslash, with the characters that are meant. -/
def letterEscapes : List (Char × Char) :=
  [('"', '"'), ('\\', '\\'), ('/', '/'), ('b', '\x08'), ('f', '\x0c'), ('n', '\n'),
    ('r', '\r'), ('t', '\t')]

/-- What follows a backslash, and the character that is meant: a letter, the code of a
character, or the codes of two surrogates, the leading one first.  No character has the code
of a surrogate, so a surrogate never stands alone. -/
inductive EscapeText : List Char → Char → Prop where
  | letter {c d : Char} (h : (c, d) ∈ letterEscapes) : EscapeText [c] d
  | code {h : List Char} {d : Char} (code : HexCode h d.toNat) : EscapeText ('u' :: h) d
  | pair {h h' : List Char} {n n' : Nat} {d : Char} (leading : HexCode h n)
      (trailing : HexCode h' n') (hn : 0xd800 ≤ n ∧ n < 0xdc00) (hn' : 0xdc00 ≤ n' ∧ n' < 0xe000)
      (hd : d.toNat = 0x10000 + (n - 0xd800) * 0x400 + (n' - 0xdc00)) :
      EscapeText ('u' :: (h ++ '\\' :: 'u' :: h')) d

/-- What stands between two quotes, and the characters it denotes. -/
inductive QuotedText : List Char → List Char → Prop where
  | nil : QuotedText [] []
  | plain {c : Char} {t s : List Char} (hq : c ≠ '"') (hb : c ≠ '\\') (hc : 0x20 ≤ c.toNat)
      (h : QuotedText t s) : QuotedText (c :: t) (c :: s)
  | escaped {e t s : List Char} {c : Char} (he : EscapeText e c) (h : QuotedText t s) :
      QuotedText ('\\' :: (e ++ t)) (c :: s)

/-! ## Number literals -/

/-- Decimal digits, at least one. -/
def Digits (ds : List Char) : Prop := ds ≠ [] ∧ ∀ d ∈ ds, d.isDigit = true

/-- The digits before the point: a zero comes first only if it stands alone. -/
def WholeText (ds : List Char) : Prop := Digits ds ∧ (ds.head? = some '0' → ds = ['0'])

inductive FractionText : List Char → Option (List Char) → Prop where
  | absent : FractionText [] none
  | digits {ds : List Char} (h : Digits ds) : FractionText ('.' :: ds) (some ds)

/-- The exponent comes with whether it is negative. -/
inductive ExponentText : List Char → Option (Bool × List Char) → Prop where
  | absent : ExponentText [] none
  | unsigned {e : Char} {ds : List Char} (he : e = 'e' ∨ e = 'E') (h : Digits ds) :
      ExponentText (e :: ds) (some (false, ds))
  | plus {e : Char} {ds : List Char} (he : e = 'e' ∨ e = 'E') (h : Digits ds) :
      ExponentText (e :: '+' :: ds) (some (false, ds))
  | minus {e : Char} {ds : List Char} (he : e = 'e' ∨ e = 'E') (h : Digits ds) :
      ExponentText (e :: '-' :: ds) (some (true, ds))

/-- A number literal and its parts. -/
inductive LiteralText : List Char → Literal → Prop where
  | mk {sign f e : List Char} {l : Literal} (hs : sign = if l.negative then ['-'] else [])
      (hw : WholeText l.whole) (hf : FractionText f l.fraction)
      (he : ExponentText e l.exponent) : LiteralText (sign ++ (l.whole ++ (f ++ e))) l

namespace Literal

variable (l : Literal)

/-- A literal without fraction and exponent that has 64 bits and is not the negative zero. -/
def IsInteger : Prop :=
  l.fraction = none ∧ l.exponent = none ∧ ¬ (l.negative = true ∧ digitsValue l.whole = 0) ∧
    -2 ^ 63 ≤ signed l.negative (digitsValue l.whole) ∧
    signed l.negative (digitsValue l.whole) < 2 ^ 64

/-- The digits that are kept of a literal, as a number of 64 bits. -/
def significand : Nat := (absorb (absorb 0 l.whole).1 (l.fraction.getD [])).1

/-- The power of ten that the kept digits are multiples of, where the literal has no
exponent: a digit that is dropped before the point counts up, one that is kept after it
counts down. -/
def shift : Int :=
  let fraction := l.fraction.getD []
  ((absorb 0 l.whole).2.length : Int) -
    (fraction.length - (absorb (absorb 0 l.whole).1 fraction).2.length : Nat)

/-- The exponent that is written, zero if none is. -/
def writtenExponent : Int :=
  match l.exponent with
  | none => 0
  | some (negative, ds) => signed negative (digitsValue ds)

/-- The magnitude of the double that a literal is converted to.  Exponents beyond the largest
one lead to infinity or to zero, whatever the shift. -/
def magnitude : Nat :=
  if l.writtenExponent.natAbs ≤ maxExponent then
    convert l.significand (l.shift + l.writtenExponent)
  else if l.writtenExponent < 0 ∨ l.significand = 0 then 0
  else binary64.infinity

/-- The number that a literal denotes: an integer, or a double that has to be finite. -/
inductive Denotes : Number → Prop where
  | integer {n : Int} {range : -2 ^ 63 ≤ n ∧ n < 2 ^ 64} (h : l.IsInteger)
      (hn : n = signed l.negative (digitsValue l.whole)) : Denotes (.integer n range)
  | real {x : Binary binary64} {finite : x.isFinite = true} (h : ¬ l.IsInteger)
      (hs : x.negative = l.negative) (hm : x.magnitude = l.magnitude) :
      Denotes (.real x finite)

end Literal

/-! ## Values -/

/-- The values that are neither arrays nor objects. -/
inductive ScalarText : List Char → Value → Prop where
  | null : ScalarText ['n', 'u', 'l', 'l'] .null
  | true : ScalarText ['t', 'r', 'u', 'e'] (.boolean true)
  | false : ScalarText ['f', 'a', 'l', 's', 'e'] (.boolean false)
  | number {t : List Char} {l : Literal} {n : Number} (h : LiteralText t l) (hn : l.Denotes n) :
      ScalarText t (.number n)
  | string {t s : List Char} (h : QuotedText t s) :
      ScalarText ('"' :: (t ++ ['"'])) (.string (String.ofList s))

/-- One or more entries, with commas between them and blanks around each. -/
inductive Entries {α : Type} (Entry : List Char → α → Prop) : List Char → List α → Prop where
  | last {a t b : List Char} {x : α} (ha : Blanks a) (h : Entry t x) (hb : Blanks b) :
      Entries Entry (a ++ (t ++ b)) [x]
  | cons {a t b ts : List Char} {x : α} {xs : List α} (ha : Blanks a) (h : Entry t x)
      (hb : Blanks b) (hs : Entries Entry ts xs) :
      Entries Entry (a ++ (t ++ (b ++ ',' :: ts))) (x :: xs)

/-- A name, a colon and a value. -/
inductive MemberText (Inner : List Char → Value → Prop) : List Char → String × Value → Prop where
  | mk {q s a b t : List Char} {v : Value} (hq : QuotedText q s) (ha : Blanks a) (hb : Blanks b)
      (h : Inner t v) :
      MemberText Inner ('"' :: (q ++ '"' :: (a ++ ':' :: (b ++ t)))) (String.ofList s, v)

/-- The members of an object as they are kept: one of each name, in ascending order, with the
value that stands last in the text. -/
def Merged (ms kept : List (String × Value)) : Prop :=
  kept.Pairwise (fun m m' => m.1 < m'.1) ∧
    ∀ name, Members.get? name kept = Members.get? name ms.reverse

/-- Values whose items and members are `Inner` ones. -/
inductive NestedText (Inner : List Char → Value → Prop) : List Char → Value → Prop where
  | scalar {t : List Char} {v : Value} (h : ScalarText t v) : NestedText Inner t v
  | emptyArray {bs : List Char} (h : Blanks bs) : NestedText Inner ('[' :: (bs ++ [']'])) (.array [])
  | array {ts : List Char} {vs : List Value} (h : Entries Inner ts vs) :
      NestedText Inner ('[' :: (ts ++ [']'])) (.array vs)
  | emptyObject {bs : List Char} (h : Blanks bs) :
      NestedText Inner ('{' :: (bs ++ ['}'])) (.object [])
  | object {ts : List Char} {ms kept : List (String × Value)}
      (h : Entries (MemberText Inner) ts ms) (hk : Merged ms kept) :
      NestedText Inner ('{' :: (ts ++ ['}'])) (.object kept)

/-- The texts of values, without blanks around them, in which at most so many arrays and
objects are open at any place. -/
def ValueText : Nat → List Char → Value → Prop
  | 0 => ScalarText
  | room + 1 => NestedText (ValueText room)

/-- A whole text: one value, with blanks around it. -/
def DocumentText (t : List Char) (v : Value) : Prop :=
  ∃ a u b, t = a ++ (u ++ b) ∧ Blanks a ∧ ValueText 127 u v ∧ Blanks b

end LayerSize.Json
