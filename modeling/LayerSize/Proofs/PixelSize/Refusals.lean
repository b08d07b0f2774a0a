import LayerSize.PixelSize.Text
import LayerSize.Proofs.Json.NumberText

/-!
# The messages of refusals

The message of a malformed text ends with the line and the column of the fault.  The message
of a refusal never ends in that way, whatever value it shows: the text of a value ends with a
character that is no digit, or has no space.
-/

namespace LayerSize

open Json (Digits Value)

/-- The message ends with a line and a column. -/
def StatesPlace (message : String) : Prop :=
  ∃ m line column, Digits line ∧ Digits column ∧
    message.toList = m ++ (" at line ".toList ++ (line ++ (" column ".toList ++ column)))

theorem statesPlace_messageAt (message : String) (p : Position) :
    StatesPlace (messageAt message p) := by
  refine ⟨message.toList, naturalText p.line, naturalText p.column, Json.digits_naturalText _,
    Json.digits_naturalText _, ?_⟩
  simp [messageAt, naturalText, Nat.repr]

/-! ## The ends of texts -/

/-- A place cannot end with the text: it ends otherwise than with a digit, or it has no space
to stand before a column. -/
def EndsPlain (cs : List Char) : Prop :=
  (∃ c ∈ cs.getLast?, c.isDigit = false) ∨ ' ' ∉ cs

theorem space_not_mem_text (n : Json.Number) : ' ' ∉ n.text := by
  intro hmem
  obtain ⟨l, hl⟩ := Json.exists_literalText n
  have := Json.literalChar_of_mem hl ' ' hmem
  simp [Json.LiteralChar] at this

theorem endsPlain_text (v : Value) : EndsPlain v.text := by
  cases v with
  | null => exact .inl ⟨'l', rfl, rfl⟩
  | boolean b => cases b <;> exact .inl ⟨'e', rfl, rfl⟩
  | number n => exact .inr (space_not_mem_text n)
  | string s => exact .inl ⟨'"', by simp [Value.text, Json.quote, List.getLast?_cons], rfl⟩
  | array items => exact .inl ⟨']', by simp [Value.text, List.getLast?_cons], rfl⟩
  | object members => exact .inl ⟨'}', by simp [Value.text, List.getLast?_cons], rfl⟩

/-! ## Refusals -/

theorem not_statesPlace_of_getLast? {m : String} {c : Char} (hlast : m.toList.getLast? = some c)
    (hc : c.isDigit = false) : ¬ StatesPlace m := by
  rintro ⟨before, line, column, -, ⟨hne, hdigits⟩, hm⟩
  have hcolumn : c ∈ column := by
    have hm' : m.toList = (before ++ (" at line ".toList ++ (line ++ " column ".toList))) ++ column := by
      simp [hm]
    cases hd : column.getLast? with
    | none => exact absurd (List.getLast?_eq_none_iff.1 hd) hne
    | some d =>
      rw [hm', List.getLast?_append, hd, Option.some_or] at hlast
      exact Option.some.inj hlast ▸ List.mem_of_getLast? hd
  rw [hdigits c hcolumn] at hc
  cases hc

/-- What stands before the last space of a text. -/
theorem eq_of_last_space {a b x y : List Char} (h : a ++ ' ' :: x = b ++ ' ' :: y) (hx : ' ' ∉ x)
    (hy : ' ' ∉ y) : a = b := by
  rcases List.append_eq_append_iff.1 h with ⟨_ | ⟨c, z⟩, hb, heq⟩ | ⟨_ | ⟨c, z⟩, ha, heq⟩
  · simpa using hb.symm
  · obtain ⟨rfl, rfl⟩ := List.cons.inj heq
    simp at hx
  · simpa using ha
  · obtain ⟨rfl, rfl⟩ := List.cons.inj heq
    simp at hy

/-- Before the last space of a place stands the word for the column, and not a colon. -/
theorem not_statesPlace_of_not_mem {m : String} {before text : List Char}
    (hm : m.toList = before ++ ':' :: ' ' :: text) (h : ' ' ∉ text) : ¬ StatesPlace m := by
  rintro ⟨place, line, column, -, ⟨-, hdigits⟩, heq⟩
  have hspace : ' ' ∉ column := by
    intro hmem
    have := hdigits ' ' hmem
    simp at this
  have hsplit : (before ++ [':']) ++ ' ' :: text =
      (place ++ (" at line ".toList ++ (line ++ " column".toList))) ++ ' ' :: column := by
    simpa [hm] using heq
  have hlast := congrArg List.getLast? (eq_of_last_space hsplit h hspace)
  simp [List.getLast?_cons] at hlast

theorem not_statesPlace_of_endsPlain {m : String} {text : List Char} (before : List Char)
    (hm : m.toList = before ++ ':' :: ' ' :: text) (h : EndsPlain text) : ¬ StatesPlace m := by
  rcases h with ⟨c, hlast, hc⟩ | hspace
  · refine not_statesPlace_of_getLast? (c := c) ?_ hc
    rw [Option.mem_def] at hlast
    simp [hm, List.getLast?_append, List.getLast?_cons, hlast]
  · exact not_statesPlace_of_not_mem hm hspace

namespace PixelSize

theorem member_eq_error {members : List (String × Value)} {field : Field} {r : Refusal}
    (h : member members field = .error r) :
    r = .missing field ∨ ∃ v : Value, r = .notAnInteger field (String.ofList v.text) := by
  unfold member at h
  split at h
  · cases h
    exact .inl rfl
  · next v hv =>
    split at h
    · cases h
    · cases h
      exact .inr ⟨v, rfl⟩

/-- A refusal is about the kind of the value, a missing member, or the value of a member. -/
theorem ofValue_eq_error {v : Value} {r : Refusal} (h : ofValue v = .error r) :
    (∃ found, r = .notAnObject found) ∨ ∃ field,
      r = .missing field ∨ ∃ v : Value, r = .notAnInteger field (String.ofList v.text) := by
  unfold ofValue at h
  split at h
  · next members =>
    cases hw : member members .width with
    | error r' =>
      rw [hw] at h
      cases h
      exact .inr ⟨_, member_eq_error hw⟩
    | ok width =>
      cases hh : member members .height with
      | error r' =>
        rw [hw, hh] at h
        cases h
        exact .inr ⟨_, member_eq_error hh⟩
      | ok height =>
        rw [hw, hh] at h
        cases h
  · cases h
    exact .inl ⟨_, rfl⟩

theorem getLast?_name (kind : Json.Kind) :
    ∃ c, kind.name.toList.getLast? = some c ∧ c.isDigit = false := by
  cases kind <;> simp [Json.Kind.name]

/-- No refusal of a value states a place, whatever the value shows. -/
theorem not_statesPlace_of_ofValue {v : Value} {r : Refusal} (h : ofValue v = .error r) :
    ¬ StatesPlace r.message := by
  rcases ofValue_eq_error h with ⟨found, rfl⟩ | ⟨field, rfl | ⟨v', rfl⟩⟩
  · obtain ⟨c, hname, hc⟩ := getLast?_name found
    refine not_statesPlace_of_getLast? ?_ hc
    unfold Refusal.message
    rw [String.toList_append, List.getLast?_append, hname, Option.some_or]
  · refine not_statesPlace_of_getLast? ?_ (rfl : '\''.isDigit = false)
    unfold Refusal.message
    rw [String.toList_append, List.getLast?_append]
    rfl
  · refine not_statesPlace_of_endsPlain
      ("Size field '" ++ field.name ++ "' is not an integer").toList ?_ (endsPlain_text v')
    unfold Refusal.message
    simp

end PixelSize

end LayerSize
