import LayerSize.Proofs.Json.ValueTexts
import LayerSize.Proofs.PixelSize.Outcomes
import LayerSize.Proofs.PixelSize.Text

/-!
# Sizes in compact texts

A value and its compact text hold the same size, or are refused alike.  The text that a refusal
shows is a text of the value that is refused.

* `refused_value`: where the text in a refusal comes from;
* `ofText_text`: reading the compact text of a value.
-/

namespace LayerSize.PixelSize

open Json (DocumentText Part Value)

variable {v : Value} {field : Field} {text : String}

/-- The text in a refusal is that of a member of the value. -/
theorem refused_value (h : ofValue v = .error (.notAnInteger field text)) :
    ∃ members w, v = .object members ∧ Json.Members.get? field.name members = some w ∧
      text = String.ofList w.text := by
  have hverdict := verdict_ofValue v
  rw [h] at hverdict
  cases hverdict with
  | widthRefused hw _ => exact ⟨_, _, rfl, hw, rfl⟩
  | heightRefused _ _ hh _ => exact ⟨_, _, rfl, hh, rfl⟩

/-- The compact text of a value is read as the value is, if the value keeps its members in order,
as every value does that was read.  The text in a refusal is JSON too, and denotes the value of
the field that is refused. -/
theorem ofText_text (hn : v.nesting ≤ 127) (hv : v.Integral) (hk : v.Kept) :
    ofText v.text = (ofValue v).mapError .refused ∧
      ∀ field text, ofValue v = .error (.notAnInteger field text) →
        ∃ members w, v = .object members ∧ Json.Members.get? field.name members = some w ∧
          text = String.ofList w.text ∧ DocumentText text.toList w := by
  refine ⟨ofText_of_documentText (Json.documentText_text hn hv hk), fun field text h => ?_⟩
  obtain ⟨members, w, rfl, hw, rfl⟩ := refused_value h
  have hmem : (field.name, w) ∈ members := Json.Members.mem_of_get? hw
  rw [Value.nesting] at hn
  have hle : w.nesting ≤ 127 :=
    Json.membersNesting_le_iff.1 (Nat.le_of_succ_le hn) (field.name, w) hmem
  refine ⟨members, w, rfl, hw, rfl, ?_⟩
  rw [String.toList_ofList]
  exact Json.documentText_text hle (hv.member hmem) (hk.member hmem)

/-- A value with escapes, characters of several bytes, and brackets inside a field. -/
def crowded : Value :=
  .object [("height", .array [.string "é\n\"😀\x01", .object [("", .null),
    ("\\", .number (.integer (-9223372036854775808) (by decide)))]]), ("width", .string "7.9")]

/-- The text of its refusal has the escapes of the compact text. -/
theorem ofText_crowded :
    crowded.nesting ≤ 127 ∧ ofText crowded.text = .error (.refused (.notAnInteger .height
      "[\"é\\n\\\"😀\\u0001\",\x7b\"\":null,\"\\\\\":-9223372036854775808\x7d]")) := by
  have hn : crowded.nesting ≤ 127 := by decide
  have hv : crowded.Integral := by
    intro n hn
    simp [crowded, Json.part_object_iff, Json.part_array_iff] at hn
    rcases hn with (h | h | h) | h <;> cases h
    exact ⟨_, _, rfl⟩
  have hk : crowded.Kept := by
    intro members hms
    simp [crowded, Json.part_object_iff, Json.part_array_iff] at hms
    rcases hms with rfl | (h | rfl | h | h) | h
    · unfold Json.Members.Ascending
      decide +kernel
    · cases h
    · unfold Json.Members.Ascending
      decide +kernel
    all_goals cases h
  refine ⟨hn, (ofText_text hn hv hk).1.trans ?_⟩
  decide +kernel

end LayerSize.PixelSize
