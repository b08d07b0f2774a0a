import LayerSize.Proofs.Json.ShortLiterals
import LayerSize.Proofs.PixelSize.LastMembers
import LayerSize.Proofs.PixelSize.Outcomes
import LayerSize.Proofs.PixelSize.Quotes

/-!
# Short literals as members

A number literal of at most fifteen digits is the last member of its name in an object, and the
other member of the size can be read.  Then the literal alone decides: its exact whole part is
the component if it has 32 bits, and if it has not, the member is refused, or the text is no JSON
because the literal is too large for a double.

* `Field.other`, `component`: the two members of a size;
* `ofText_of_denotes`: literals that denote a number;
* `ofText_of_shortLiteral`: all short literals.
-/

namespace LayerSize

open Json (IsLast Lacks Literal LiteralText ObjectWith Value ValueText)

/-! ## Members -/

/-- The other one of the two members. -/
def Field.other : Field → Field
  | .width => .height
  | .height => .width

theorem Field.name_ne_other (field : Field) : field.name ≠ field.other.name := by
  cases field <;> decide

namespace PixelSize

/-- The component of a size that a member holds. -/
def component (s : PixelSize) : Field → Int32
  | .width => s.width
  | .height => s.height

/-- The size with a component for a member, and one for the other member. -/
def ofFields (c c' : Int32) : Field → PixelSize
  | .width => ⟨c, c'⟩
  | .height => ⟨c', c⟩

theorem component_ofFields (c c' : Int32) (field : Field) :
    (ofFields c c' field).component field = c ∧ (ofFields c c' field).component field.other = c' := by
  cases field <;> exact ⟨rfl, rfl⟩

/-- If one member can be read, the other one decides. -/
theorem ofValue_of_other {ms : List (String × Value)} {field : Field} {c : Int32}
    (h : member ms field.other = .ok c) :
    ofValue (.object ms) = (member ms field).map fun c' => ofFields c' c field := by
  rw [ofValue_object]
  cases field with
  | width =>
    have hheight : member ms .height = .ok c := h
    rw [hheight]
    cases member ms .width <;> rfl
  | height =>
    have hwidth : member ms .width = .ok c := h
    rw [hwidth]
    rfl

/-! ## Literals -/

section

variable {field : Field} {t u : List Char} {l : Literal} {n : Json.Number}
  {pre post : List (String × Value)} {w : Value} {c : Int32} (hu : LiteralText u l)
  (hl : l.IsShort) (ht : ObjectWith field.name u pre post t) (hpost : Lacks field.name post)
  (hw : IsLast field.other.name w (pre ++ post)) (hc : Holds w c)

include hu hl ht hpost hw hc

theorem ofText_of_denotes (hn : l.Denotes n) :
    ofText t = match int32? (wholePart l.numeral.value) with
      | some c' => .ok (ofFields c' c field)
      | none => .error (.refused (.notAnInteger field (String.ofList (Value.number n).text))) := by
  have hvalue : ValueText 126 u (.number n) := valueText_of_scalarText (.number hu hn)
  set ms := Json.Members.ofList (pre ++ (field.name, .number n) :: post) with hms
  have hget : Json.Members.get? field.name ms = some (.number n) :=
    Json.Members.get?_ofList_of_isLast ⟨pre, post, rfl, hpost⟩
  have hget' : Json.Members.get? field.other.name ms = some w := by
    rw [hms, Json.Members.get?_ofList_of_ne field.name_ne_other.symm]
    exact Json.Members.get?_ofList_of_isLast hw
  have hother : member ms field.other = .ok c := member_of_holds field.other hget' hc
  have hcomponent : component? (.number n) = int32? (wholePart l.numeral.value) :=
    (numberComponent?_of_denotes hn).trans (Literal.int32?_magnitude hu hl)
  rw [ofText_of_objectText (ht.objectText hvalue), ← hms, ofValue_of_other hother, member, hget]
  dsimp only
  rw [hcomponent]
  cases int32? (wholePart l.numeral.value) with
  | none => rfl
  | some c' => rfl

/-- A size is read if and only if the exact whole part of the literal has 32 bits; it is the
component then, and the other component is the one that the other member holds.  Otherwise the
member is refused, or the text is no JSON, if the exact number is rounded to infinity. -/
theorem ofText_of_shortLiteral :
    ((∃ s, ofText t = .ok s) ↔
        -2147483648 ≤ wholePart l.numeral.value ∧ wholePart l.numeral.value ≤ 2147483647) ∧
      (∀ s, ofText t = .ok s → (s.component field).toInt = wholePart l.numeral.value ∧
        s.component field.other = c) ∧
      (¬ (-2147483648 ≤ wholePart l.numeral.value ∧ wholePart l.numeral.value ≤ 2147483647) →
        (binary64.IsNearest |l.numeral.value| binary64.infinity →
          ∃ m, ofText t = .error (.malformed m)) ∧
        (¬ binary64.IsNearest |l.numeral.value| binary64.infinity →
          ∃ shown, ofText t = .error (.refused (.notAnInteger field shown)))) := by
  have hdenotes := Literal.exists_denotes_iff_of_isShort hu hl
  rw [← exists_int32?_iff]
  by_cases hn : ∃ n, l.Denotes n
  · obtain ⟨n, hn'⟩ := hn
    have hfinite := hdenotes.1 ⟨n, hn'⟩
    have htext := ofText_of_denotes hu hl ht hpost hw hc hn'
    cases hint : int32? (wholePart l.numeral.value) with
    | some c' =>
      rw [hint] at htext
      obtain ⟨hfield, hother⟩ := component_ofFields c' c field
      refine ⟨iff_of_true ⟨_, htext⟩ ⟨c', rfl⟩, ?_, fun hnone => absurd ⟨c', rfl⟩ hnone⟩
      rintro s hs
      obtain rfl : ofFields c' c field = s := Except.ok.inj (htext.symm.trans hs)
      exact ⟨by rw [hfield, ← int32?_eq_some_iff.1 hint], hother⟩
    | none =>
      rw [hint] at htext
      refine ⟨by simp [htext], by simp [htext], fun _ => ⟨fun h => absurd h hfinite, fun _ => ?_⟩⟩
      exact ⟨_, htext⟩
  · obtain ⟨m, hm⟩ := exists_malformed_of_not_denotes ht hu hn
    have hnone : int32? (wholePart l.numeral.value) = none := by
      rw [← Literal.int32?_magnitude hu hl]
      exact int32?_of_not_denotes hn
    have hinfinite := not_not.1 (mt hdenotes.2 hn)
    refine ⟨by simp [hm, hnone], by simp [hm], fun _ => ⟨fun _ => ⟨m, hm⟩, fun h => ?_⟩⟩
    exact absurd hinfinite h

end

/-- The literal `-21474836489.99e-1` in its parts. -/
def belowLeast : Literal := ⟨true, "21474836489".toList, some "99".toList, some (true, ['1'])⟩

theorem literalText_belowLeast : LiteralText "-21474836489.99e-1".toList belowLeast := by
  have hwhole : Json.WholeText "21474836489".toList := by simp [Json.WholeText, Json.Digits]
  have hfraction : Json.Digits "99".toList := by simp [Json.Digits]
  have hexponent : Json.Digits ['1'] := by simp [Json.Digits]
  exact .mk (l := belowLeast) rfl hwhole (.digits hfraction) (.minus (.inl rfl) hexponent)

/-- The fraction that is cut off is all that the literal is below the least component. -/
theorem ofText_belowLeast :
    LiteralText "-21474836489.99e-1".toList belowLeast ∧ belowLeast.IsShort ∧
      ofText (sizeText ['1'] "-21474836489.99e-1".toList) = .ok ⟨1, -2147483648⟩ ∧
      (-2147483648 : Int32).toInt = wholePart belowLeast.numeral.value := by
  have hshort : belowLeast.IsShort := by
    unfold Literal.IsShort
    decide
  have hobject : ObjectWith Field.height.name "-21474836489.99e-1".toList
      [("width", .number (.integer 1 (by decide)))] []
      (sizeText ['1'] "-21474836489.99e-1".toList) := objectWith_height valueText_one
  have hlast : IsLast Field.height.other.name (.number (.integer 1 (by decide)))
      ([("width", .number (.integer 1 (by decide)))] ++ []) := ⟨[], [], rfl, by simp [Lacks]⟩
  have hone : Holds (.number (.integer 1 (by decide))) 1 := .integer (by decide) (by decide) rfl
  have hread : ofText (sizeText ['1'] "-21474836489.99e-1".toList) = .ok ⟨1, -2147483648⟩ := by
    decide +kernel
  obtain ⟨-, hcomponents, -⟩ := ofText_of_shortLiteral literalText_belowLeast hshort hobject
    (by simp [Lacks]) hlast hone
  exact ⟨literalText_belowLeast, hshort, hread, (hcomponents _ hread).1⟩

end PixelSize

end LayerSize
