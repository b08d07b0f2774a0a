import LayerSize.Proofs.Json.NumberText
import LayerSize.Proofs.PixelSize.Components

/-!
# Numbers in quotes

The number of a field may as well be a string that holds the number's text.  The size stays the
same, and so does the refusal, but that a refused number is then shown in quotes.

* `component?_quoteNumber`: a number and its text hold the same component;
* `ofValue_quoteChosen`: objects with the numbers of some fields in quotes.
-/

namespace LayerSize.PixelSize

open Json (Value)

/-! ## Components -/

theorem stringComponent?_text (n : Json.Number) :
    stringComponent? n.text = numberComponent? n := by
  cases n with
  | integer n range =>
    have hnearest : ∀ m : Nat, Decimal.nearest binary64 ⟨m, 0⟩ = binary64.nearest m 1 := by
      intro m
      simp [Decimal.nearest_eq]
    have hnumeral : (Json.Literal.numeral ⟨decide (n < 0), naturalText n.natAbs, none, none⟩) =
        ⟨decide (n < 0), ⟨n.natAbs, 0⟩⟩ := by
      simp [Json.Literal.numeral, Json.Literal.writtenExponent, Json.digitsValue_naturalText]
    rw [Json.Number.text, Json.stringComponent?_literal (Json.literalText_integerText n), hnumeral,
      hnearest, int32?_signed_whole_nearest, Json.signed_natAbs]
    rfl
  | real x finite =>
    obtain ⟨l, hl, hnegative, hvalue⟩ := Json.isText_real x finite
    have hmagnitude : l.numeral.decimal.nearest binary64 = x.magnitude := by
      rw [Decimal.nearest_congr hvalue]
      exact binary64.nearest_shortest .even (of_decide_eq_true finite)
    rw [Json.stringComponent?_literal hl, hmagnitude, hnegative, numberComponent?,
      truncToInt32?_eq]

/-- A number becomes a string that holds its text; any other value stays as it is. -/
def quoteNumber : Value → Value
  | .number n => .string (String.ofList n.text)
  | v => v

theorem component?_quoteNumber (v : Value) : component? (quoteNumber v) = component? v := by
  cases v with
  | number n => simp [quoteNumber, component?, stringComponent?_text]
  | null | boolean | string | array | object => rfl

/-! ## Texts -/

theorem escaped_literalChar {c : Char} (h : Json.LiteralChar c) : Json.escaped c = [c] := by
  obtain ⟨hq, hb, hc⟩ := Json.plain_of_literalChar h
  unfold Json.escaped
  split
  · exact absurd rfl hq
  · exact absurd rfl hb
  all_goals simp at hc ⊢
  exact hc

/-- The text of a number needs no escapes in a string. -/
theorem text_quoteNumber (n : Json.Number) :
    String.ofList (quoteNumber (.number n)).text =
      "\"" ++ String.ofList (Value.number n).text ++ "\"" := by
  obtain ⟨l, hl⟩ := Json.exists_literalText n
  have hescaped : n.text.flatMap Json.escaped = n.text := by
    have : n.text.flatMap Json.escaped = n.text.flatMap fun c => [c] :=
      List.flatMap_congr fun c hc => escaped_literalChar (Json.literalChar_of_mem hl c hc)
    rw [this, List.flatMap_singleton']
  rw [← String.toList_inj]
  simp [quoteNumber, Value.text, Json.quote, hescaped]

/-! ## Objects -/

/-- Whether a name is that of a chosen field. -/
def isChosen (chosen : Field → Bool) (name : String) : Bool :=
  [Field.width, Field.height].any fun field => name == field.name && chosen field

/-- The members with the numbers of the chosen fields in quotes. -/
def quoteChosen (chosen : Field → Bool) (members : List (String × Value)) :
    List (String × Value) :=
  members.map fun m => (m.1, if isChosen chosen m.1 then quoteNumber m.2 else m.2)

/-- Whether a member is there and is a number. -/
def holdsNumber (members : List (String × Value)) (field : Field) : Bool :=
  (Json.Members.get? field.name members).any fun v => v.kind = .number

/-- A refusal of a number that is put in quotes shows the quotes; any other stays as it is. -/
def quoteRefused (chosen : Field → Bool) (members : List (String × Value)) : Refusal → Refusal
  | .notAnInteger field text =>
    .notAnInteger field
      (if chosen field && holdsNumber members field then "\"" ++ text ++ "\"" else text)
  | r => r

variable (chosen : Field → Bool) (members : List (String × Value))

theorem isChosen_name (field : Field) : isChosen chosen field.name = chosen field := by
  cases field <;> simp [isChosen, Field.name]

theorem get?_quoteChosen (name : String) :
    Json.Members.get? name (quoteChosen chosen members) =
      (Json.Members.get? name members).map fun v =>
        if isChosen chosen name then quoteNumber v else v := by
  induction members with
  | nil => rfl
  | cons m ms ih =>
    obtain ⟨name', v⟩ := m
    unfold quoteChosen at ih ⊢
    rw [List.map_cons, Json.Members.get?, Json.Members.get?]
    by_cases h : name = name'
    · rw [if_pos h, if_pos h, h]
      rfl
    · rw [if_neg h, if_neg h]
      exact ih

theorem member_quoteChosen (field : Field) :
    member (quoteChosen chosen members) field =
      (member members field).mapError (quoteRefused chosen members) := by
  unfold member
  rw [get?_quoteChosen, isChosen_name]
  cases hv : Json.Members.get? field.name members with
  | none => rfl
  | some v =>
    have hcomponent : component? (if chosen field then quoteNumber v else v) = component? v := by
      split
      · exact component?_quoteNumber v
      · rfl
    have htext : String.ofList (if chosen field then quoteNumber v else v).text =
        if chosen field && holdsNumber members field then "\"" ++ String.ofList v.text ++ "\""
        else String.ofList v.text := by
      rw [holdsNumber, hv]
      cases chosen field with
      | false => rfl
      | true =>
        cases v with
        | number n => exact text_quoteNumber n
        | null | boolean | string | array | object => rfl
    rw [Option.map_some]
    dsimp only
    rw [hcomponent]
    cases component? v with
    | some c => rfl
    | none => rw [htext]; rfl

/-- Numbers may be put in quotes: the size is the same, or the same field is refused for the
same reason. -/
theorem ofValue_quoteChosen :
    ofValue (.object (quoteChosen chosen members)) =
      (ofValue (.object members)).mapError (quoteRefused chosen members) := by
  unfold ofValue
  dsimp only
  rw [member_quoteChosen, member_quoteChosen]
  cases member members .width with
  | error r => rfl
  | ok width =>
    cases member members .height with
    | error r => rfl
    | ok height => rfl

end LayerSize.PixelSize
