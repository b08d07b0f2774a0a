import LayerSize.Json.Blank
import LayerSize.Json.Quoted

/-!
# Arrays and objects of a JSON text

What arrays and objects have in common: entries, which commas separate and a closing bracket
ends.  `Brackets.fold` reads them with any reader of entries.  The entries of an object are
members; their names and colons are read here too.
-/

namespace LayerSize.Json

/-! ## Members -/

/-- The quote before the name of a member. -/
def nameQuote : List Char → Reads (List Char)
  | '"' :: cs => .ok cs
  | cs => .error (.next .keyNotString cs)

/-- The name of a member. -/
def name (cs : List Char) : Reads (String × List Char) := do
  let cs ← nameQuote cs
  string cs

/-- The colon after the name of a member, with blanks before it. -/
def colon (cs : List Char) : Reads (List Char) :=
  match skipBlanks cs with
  | [] => .error (.next .endOfObject [])
  | ':' :: cs => .ok cs
  | c :: cs => .error (.next .expectedColon (c :: cs))

/-! ## Brackets -/

/-- The two bracketed forms. -/
inductive Brackets where
  | array
  | object
  deriving DecidableEq

namespace Brackets

/-- The closing bracket. -/
def close : Brackets → Char
  | array => ']'
  | object => '}'

/-- The cause when the text ends where an entry or the closing bracket may stand. -/
def unfinished : Brackets → Cause
  | array => .endOfArray
  | object => .endOfObject

/-- The cause when something else stands where a comma or the closing bracket must. -/
def expected : Brackets → Cause
  | array => .expectedCommaOrBracket
  | object => .expectedCommaOrBrace

end Brackets

/-- What comes next between brackets: their end, with the text after it, or another entry,
with the text that starts with it. -/
inductive Next where
  | closed (rest : List Char)
  | entry (rest : List Char)
  deriving DecidableEq

namespace Brackets

variable (b : Brackets)

/-- After the opening bracket: the first entry or the end. -/
def first (cs : List Char) : Reads Next :=
  match skipBlanks cs with
  | [] => .error (.next b.unfinished [])
  | c :: cs => .ok (if c = b.close then .closed cs else .entry (c :: cs))

/-- After a comma: an entry, and not the end. -/
def afterComma (cs : List Char) : Reads Next :=
  match skipBlanks cs with
  | [] => .error (.next .endOfValue [])
  | c :: cs =>
    if c = b.close then .error (.next .trailingComma (c :: cs)) else .ok (.entry (c :: cs))

/-- After an entry: a comma and another entry, or the end. -/
def following (cs : List Char) : Reads Next :=
  match skipBlanks cs with
  | [] => .error (.next b.unfinished [])
  | c :: cs =>
    if c = b.close then .ok (.closed cs)
    else if c = ',' then b.afterComma cs
    else .error (.next b.expected (c :: cs))

/-! ## Reading entry after entry -/

section Fold

variable {σ κ : Type} (lift : Cause → κ)
  (entry : σ → List Char → Except (Fault κ) (σ × List Char))

/-- Reads entry after entry, each changing the state, until the brackets are closed or a
fault is met.  The state reached is given in either case.  No more than `n` entries are
read. -/
def foldFrom : Nat → σ → Reads Next → σ × Except (Fault κ) (List Char)
  | _, s, .error fault => (s, .error (fault.map lift))
  | _, s, .ok (.closed rest) => (s, .ok rest)
  | 0, s, .ok (.entry _) => (s, .error (.here (lift b.unfinished) []))
  | n + 1, s, .ok (.entry cs) =>
    match entry s cs with
    | .error fault => (s, .error fault)
    | .ok (s, rest) => foldFrom n s (b.following rest)

/-- Reads the entries up to the closing bracket, from after the opening one.  Every entry
takes a character at least, so there are no more of them than characters. -/
def fold (s : σ) (cs : List Char) : σ × Except (Fault κ) (List Char) :=
  foldFrom b lift entry cs.length s (b.first cs)

end Fold

end Brackets

end LayerSize.Json
