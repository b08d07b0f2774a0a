import LayerSize.Json.Fault

/-!
# Quoted strings of a JSON text

Reading the characters between two quotes, escapes included.  A character beyond U+FFFF
may be escaped as two surrogates, the leading one first; no other surrogate is allowed.
-/

namespace LayerSize.Json

/-! ## Hexadecimal escapes -/

/-- The value of a hexadecimal digit, in either case. -/
def hexValue? (c : Char) : Option Nat :=
  if c.isDigit then some (c.toNat - '0'.toNat)
  else if 'a' ≤ c ∧ c ≤ 'f' then some (c.toNat - 'a'.toNat + 10)
  else if 'A' ≤ c ∧ c ≤ 'F' then some (c.toNat - 'A'.toNat + 10)
  else none

/-- The four hexadecimal digits at the start of a text, as a number.  If fewer than four
bytes are left the string does not end; four other bytes are no escape. -/
def hexCode (cs : List Char) : Reads Nat :=
  if Text.byteCount (cs.take 4) < 4 then .error (.here .endOfString [])
  else match (cs.take 4).mapM hexValue? with
    | some ds => .ok (ds.foldl (fun n d => 16 * n + d) 0)
    | none => .error ⟨.invalidEscape, Text.byteCount cs - 4⟩

def isLeadingSurrogate (n : Nat) : Bool := 0xd800 ≤ n && n ≤ 0xdbff

def isTrailingSurrogate (n : Nat) : Bool := 0xdc00 ≤ n && n ≤ 0xdfff

/-- The character that two surrogates stand for. -/
def surrogatePair (leading trailing : Nat) : Char :=
  Char.ofNat (0x10000 + (leading - 0xd800) * 0x400 + (trailing - 0xdc00))

/-- What has to follow a leading surrogate: another escape `\u`.  Gives the text after
it. -/
def surrogateEscape : List Char → Reads (List Char)
  | '\\' :: 'u' :: cs => .ok cs
  | '\\' :: cs => .error (.next (if cs = [] then .endOfString else .unfinishedSurrogate) cs)
  | cs => .error (.next (if cs = [] then .endOfString else .unfinishedSurrogate) cs)

/-- The character that an escape `\u` stands for, and how many characters the escape has
after the `u`. -/
def unicodeEscape (cs : List Char) : Reads (Char × Nat) := do
  let code ← hexCode cs
  let rest := cs.drop 4
  if isTrailingSurrogate code then throw (.here .loneSurrogate rest)
  else if isLeadingSurrogate code then
    let rest ← surrogateEscape rest
    let trailing ← hexCode rest
    if isTrailingSurrogate trailing then return (surrogatePair code trailing, 10)
    else throw (.here .loneSurrogate (rest.drop 4))
  else return (Char.ofNat code, 4)

/-! ## Strings -/

/-- The characters that a backslash and one letter stand for. -/
def letterEscape? : Char → Option Char
  | '"' => some '"'
  | '\\' => some '\\'
  | '/' => some '/'
  | 'b' => some '\x08'
  | 'f' => some '\x0c'
  | 'n' => some '\n'
  | 'r' => some '\r'
  | 't' => some '\t'
  | _ => none

/-- The character that an escape stands for, and how many characters the escape has after
the backslash. -/
def escape : List Char → Reads (Char × Nat)
  | [] => .error (.here .endOfString [])
  | 'u' :: cs => do
    let (c, n) ← unicodeEscape cs
    return (c, n + 1)
  | c :: cs => match letterEscape? c with
    | some c' => .ok (c', 1)
    | none => .error (.next .invalidEscape (c :: cs))

/-- Whether a character may not stand in a string as it is. -/
def isControl (c : Char) : Bool := c.toNat < 0x20

/-- The string that ends at the next quote.  The first argument counts the characters to
pass over, because they belong to an escape. -/
def quoted : Nat → List Char → Reads (List Char × List Char)
  | _, [] => .error (.here .endOfString [])
  | n + 1, _ :: cs => quoted n cs
  | 0, '"' :: cs => .ok ([], cs)
  | 0, '\\' :: cs => do
    let (c, n) ← escape cs
    let (s, rest) ← quoted n cs
    return (c :: s, rest)
  | 0, c :: cs =>
    if isControl c then .error (.next .controlCharacter (c :: cs))
    else do
      let (s, rest) ← quoted 0 cs
      return (c :: s, rest)

/-- A string, read from after its first quote to after its last. -/
def string (cs : List Char) : Reads (String × List Char) := do
  let (s, rest) ← quoted 0 cs
  return (String.ofList s, rest)

end LayerSize.Json
