import LayerSize.Binary.Format

/-!
# JSON values

A JSON value.  Numbers keep whether they were written as integers; the members of an object
are kept in ascending order of their names, one member a name.

* `Members.insert`: puts a member in its place, instead of an earlier one of the same name;
* `Value.ofMembers`: the object of a list of members, the last of each name.
-/

namespace LayerSize.Json

attribute [local instance (2000)] instPowNat

/-! ## Numbers -/

/-- A JSON number: an integer of 64 bits, signed or not, or a finite double. -/
inductive Number where
  | integer (n : Int) (range : -2 ^ (63 : Nat) ≤ n ∧ n < 2 ^ (64 : Nat))
  | real (x : Binary binary64) (finite : x.isFinite)
  deriving DecidableEq

/-- The integer as a number, when it has 64 bits. -/
def Number.ofInt? (n : Int) : Option Number :=
  if h : -2 ^ (63 : Nat) ≤ n ∧ n < 2 ^ (64 : Nat) then some (.integer n h) else none

/-! ## Values -/

/-- A JSON value. -/
inductive Value where
  | null
  | boolean (b : Bool)
  | number (n : Number)
  | string (s : String)
  | array (items : List Value)
  | object (members : List (String × Value))
  deriving Inhabited

/-- The kinds of JSON values. -/
inductive Kind where
  | null
  | boolean
  | number
  | string
  | array
  | object
  deriving DecidableEq

def Kind.name : Kind → String
  | .null => "null"
  | .boolean => "boolean"
  | .number => "number"
  | .string => "string"
  | .array => "array"
  | .object => "object"

namespace Value

def kind : Value → Kind
  | null => .null
  | boolean _ => .boolean
  | number _ => .number
  | string _ => .string
  | array _ => .array
  | object _ => .object

/-- A double as a value: a number when it is finite, null otherwise. -/
def ofDouble (x : Binary binary64) : Value :=
  if h : x.isFinite then number (.real x h) else null

end Value

/-! ## Members of objects -/

namespace Members

variable {α : Type}

/-- Puts a member in its place in the order of names.  It takes the place of an earlier
member of the same name. -/
def insert (name : String) (value : α) : List (String × α) → List (String × α)
  | [] => [(name, value)]
  | (name', value') :: ms =>
    if name < name' then (name, value) :: (name', value') :: ms
    else if name = name' then (name, value) :: ms
    else (name', value') :: insert name value ms

/-- The members in ascending order of names, the last of each name. -/
def ofList (ms : List (String × α)) : List (String × α) :=
  ms.foldl (fun acc m => insert m.1 m.2 acc) []

/-- The value of the member of the given name. -/
def get? (name : String) : List (String × α) → Option α
  | [] => none
  | (name', value) :: ms => if name = name' then some value else get? name ms

/-- After an insertion its name has the new value, and every other name has the one it had
before. -/
theorem get?_insert (name name' : String) (value : α) (ms : List (String × α)) :
    get? name' (insert name value ms) =
      if name' = name then some value else get? name' ms := by
  induction ms with
  | nil => rfl
  | cons m ms ih =>
    obtain ⟨k, v⟩ := m
    unfold insert
    by_cases hlt : name < k
    · rw [if_pos hlt, get?]
    · rw [if_neg hlt]
      by_cases heq : name = k
      · subst heq
        rw [if_pos rfl, get?, get?]
        by_cases h : name' = name
        · rw [if_pos h, if_pos h]
        · rw [if_neg h, if_neg h, if_neg h]
      · rw [if_neg heq, get?, get?, ih]
        by_cases hk : name' = k
        · rw [if_pos hk, if_neg (fun h => heq (h.symm.trans hk)), if_pos hk]
        · rw [if_neg hk, if_neg hk]

end Members

namespace Value

/-- The object with the given members, the last of each name. -/
def ofMembers (ms : List (String × Value)) : Value := object (Members.ofList ms)

end Value

end LayerSize.Json
