import LayerSize.PixelSize.Text
import LayerSize.Text.Shown

/-!
# Problems with documents

Why a document that should consist of sizes is not read, and where.  A document is refused
where its JSON is malformed, where it is of another kind than expected, where a size is none, and
where its members are not the ones asked for.
-/

namespace LayerSize.Document

open Json (Cause Fault)

/-! ## Values of another kind -/

/-- A document with several parts: a list of sizes, or a record with a size. -/
inductive Form where
  | list
  | record
  deriving DecidableEq

def Form.name : Form → String
  | .list => "a sequence"
  | .record => "struct Viewport"

/-- What stands where another value is expected.  Arrays and objects are not looked into. -/
inductive Found where
  | null
  | boolean (b : Bool)
  | number (n : Json.Number)
  | string (s : String)
  | array
  | object
  deriving DecidableEq

def Found.ofValue : Json.Value → Found
  | .null => .null
  | .boolean b => .boolean b
  | .number n => .number n
  | .string s => .string s
  | .array _ => .array
  | .object _ => .object

def Found.description : Found → String
  | .null => "null"
  | .boolean true => "boolean `true`"
  | .boolean false => "boolean `false`"
  | .number (.integer n h) => "integer `" ++ String.ofList (Json.Number.integer n h).text ++ "`"
  | .number (.real x h) => "floating point `" ++ String.ofList (Json.Number.real x h).text ++ "`"
  | .string s => "string " ++ String.ofList (Text.shown s.toList)
  | .array => "sequence"
  | .object => "map"

/-! ## Problems -/

/-- Why a document is not read. -/
inductive Problem where
  | malformed (cause : Cause)
  | unexpected (found : Found) (expected : Form)
  | refused (r : Refusal)
  | duplicateSize
  | missingSize
  | noItems
  deriving DecidableEq

def Problem.message : Problem → String
  | .malformed cause => cause.message
  | .unexpected found expected =>
    "invalid type: " ++ found.description ++ ", expected " ++ expected.name
  | .refused r => r.message
  | .duplicateSize => "duplicate field `size`"
  | .missingSize => "missing field `size`"
  | .noItems => "invalid length 0, expected " ++ Form.record.name ++ " with 1 element"

def Problem.category : Problem → Category
  | .malformed cause => .ofCause cause
  | _ => .data

/-- A problem and its position, if it has one. -/
structure Error where
  problem : Problem
  position : Option Position
  deriving DecidableEq

namespace Error

def message (e : Error) : String :=
  match e.position with
  | none => e.problem.message
  | some position => messageAt e.problem.message position

/-- A fault in a document as an error. -/
def ofFault (document : List Char) (fault : Fault Problem) : Error :=
  ⟨fault.cause, some (fault.position document)⟩

/-- A fault in the JSON of a document as an error. -/
def ofMalformed (document : List Char) (fault : Fault Cause) : Error :=
  ofFault document (fault.map .malformed)

end Error

end LayerSize.Document
