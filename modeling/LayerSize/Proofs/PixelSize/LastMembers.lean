import LayerSize.Proofs.Json.Objects
import LayerSize.Proofs.PixelSize.Text

/-!
# The members that count

A size is made of the last width and the last height of an object text.  Two texts that agree
in these read alike, with the same events, whatever else they hold.

* `ofValue_eq_of_get?`: only two members of a value are looked at;
* `readText_eq_of_sameLast`: only the last two members of a text count.
-/

namespace LayerSize.PixelSize

open Json (IsLast Lacks ObjectText OpensObject SameLast Value)

variable {t t' : List Char} {ms ms' : List (String × Value)}

/-- A member is read from the value of its name. -/
theorem member_congr {field : Field}
    (h : Json.Members.get? field.name ms = Json.Members.get? field.name ms') :
    member ms field = member ms' field := by
  unfold member
  rw [h]

theorem ofValue_eq_of_get? (hw : Json.Members.get? "width" ms = Json.Members.get? "width" ms')
    (hh : Json.Members.get? "height" ms = Json.Members.get? "height" ms') :
    ofValue (.object ms) = ofValue (.object ms') := by
  have hwidth : member ms .width = member ms' .width := member_congr hw
  have hheight : member ms .height = member ms' .height := member_congr hh
  rw [ofValue, ofValue, hwidth, hheight]

/-- What an object text holds is what the last members of its names give. -/
theorem ofText_of_objectText (h : ObjectText t ms) :
    ofText t = (ofValue (.object (Json.Members.ofList ms))).mapError .refused :=
  ofText_of_documentText h.documentText

theorem existsUnique_objectText (ht : OpensObject t) (h : ∀ m, ofText t ≠ .error (.malformed m)) :
    ∃! ms, ObjectText t ms := by
  obtain ⟨v, hv⟩ := exists_documentText h
  obtain ⟨ms, hms⟩ := Json.exists_objectText hv ht
  exact ⟨ms, hms, fun ms' hms' => hms'.unique hms⟩

/-- Every JSON text that opens with a brace has its members, in one way only.  Two such texts
are read alike, with the same events, if their last widths have the same value or both lack
one, and so have their heights: no other member counts, and none that a later one of its name
replaces, nor the order of the members, the escapes in their names or the blanks. -/
theorem readText_eq_of_sameLast :
    (∀ t, OpensObject t → (∀ m, ofText t ≠ .error (.malformed m)) → ∃! ms, ObjectText t ms) ∧
      ∀ t t' ms ms', ObjectText t ms → ObjectText t' ms' → SameLast "width" ms ms' →
        SameLast "height" ms ms' → readText t = readText t' := by
  refine ⟨fun t => existsUnique_objectText, ?_⟩
  intro t t' ms ms' h h' hw hh
  have hvalue : ofValue (.object (Json.Members.ofList ms)) =
      ofValue (.object (Json.Members.ofList ms')) :=
    ofValue_eq_of_get? (Json.Members.get?_ofList_of_sameLast hw)
      (Json.Members.get?_ofList_of_sameLast hh)
  rw [readText, readText, ofText_of_objectText h, ofText_of_objectText h', hvalue]

/-- A width that an escaped name replaces, another order, another member, and a height that is
refused. -/
theorem readText_rearranged :
    let t := "\x7b\"width\":null,\"x\":[\x7b\x7d],\"height\":[2],\"\\u0077idth\":7\x7d".toList
    let t' := " \x7b \"height\": [ 2 ] , \"width\" : 7 \x7d".toList
    (∃! ms, ObjectText t ms) ∧ ofText t = .error (.refused (.notAnInteger .height "[2]")) ∧
      readText t = readText t' := by
  intro t t'
  have hopens : OpensObject t := ⟨[], _, .nil, rfl⟩
  have hresult : ofText t = .error (.refused (.notAnInteger .height "[2]")) := by decide +kernel
  have h : ObjectText t [("width", .null), ("x", .array [.object []]),
      ("height", .array [.number (.integer 2 (by decide))]),
      ("width", .number (.integer 7 (by decide)))] := Json.members_eq_ok_iff.1 rfl
  have h' : ObjectText t' [("height", .array [.number (.integer 2 (by decide))]),
      ("width", .number (.integer 7 (by decide)))] := Json.members_eq_ok_iff.1 rfl
  refine ⟨readText_eq_of_sameLast.1 t hopens (by simp [hresult]), hresult,
    readText_eq_of_sameLast.2 t t' _ _ h h' ?_ ?_⟩
  · refine .inr ⟨.number (.integer 7 (by decide)), ?_, ?_⟩
    · exact ⟨[_, _, _], [], rfl, by simp [Lacks]⟩
    · exact ⟨[_], [], rfl, by simp [Lacks]⟩
  · refine .inr ⟨.array [.number (.integer 2 (by decide))], ?_, ?_⟩
    · exact ⟨[_, _], [_], rfl, by simp [Lacks]⟩
    · exact ⟨[], [_], rfl, by simp [Lacks]⟩

end LayerSize.PixelSize
