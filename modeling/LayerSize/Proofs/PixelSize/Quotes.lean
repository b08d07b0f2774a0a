import LayerSize.Proofs.Json.Placed
import LayerSize.Proofs.PixelSize.Text

/-!
# Literals with and without quotes

A field may be a number literal or a string that holds one.  As a number the literal is
converted in several roundings, and as a string it is rounded once, so that the two doubles may
differ; the fraction is then cut off.

* `numberComponent?_of_denotes`: the component of a literal that stands as a number;
* `sizeText`: documents with two given fields;
* `ofText_quotes_iff`: when a literal reads the same in both forms;
* `not_separated_of_whole`, `not_separated_of_short`: literals that always do.
-/

namespace LayerSize.PixelSize

open Json (Literal LiteralText NamedText ObjectWith QuotedText Value ValueText)

variable {l : Literal} {n : Json.Number} {t u w h : List Char} {v vw vh : Value}

/-! ## Literals as numbers -/

theorem numberComponent?_of_denotes (hn : l.Denotes n) :
    numberComponent? n = int32? (signed l.negative (binary64.whole l.magnitude)) := by
  cases hn with
  | integer hint hvalue =>
    rw [Literal.magnitude_of_whole hint.1 hint.2.1 (Literal.absorb_of_isInteger hint),
      int32?_signed_whole_nearest, ← hvalue]
    rfl
  | real _ hs hm => rw [numberComponent?, truncToInt32?_eq, hs, hm]

/-- A literal that denotes no number is too large. -/
theorem infinity_le_magnitude (hn : ¬ ∃ n, l.Denotes n) : binary64.infinity ≤ l.magnitude :=
  Nat.le_of_not_lt fun hlt => hn (Literal.exists_denotes_iff.2 hlt)

theorem int32?_of_not_denotes (hn : ¬ ∃ n, l.Denotes n) :
    int32? (signed l.negative (binary64.whole l.magnitude)) = none := by
  rw [int32?_signed_eq_none_iff]
  exact (largest_lt_whole_infinity _).trans_le (Format.whole_mono (infinity_le_magnitude hn))

/-! ## Documents with two members -/

def memberText (name : String) (value : List Char) : List Char :=
  '"' :: (name.toList ++ '"' :: ':' :: value)

/-- The text of a size, from the texts of its two members. -/
def sizeText (width height : List Char) : List Char :=
  '{' :: (memberText "width" width ++ ',' :: (memberText "height" height ++ ['}']))

/-- The size of two components, if there are both. -/
def size? (width height : Option Int32) : Option PixelSize :=
  width.bind fun w => height.map fun h => ⟨w, h⟩

theorem quotedText_name (field : Field) : QuotedText field.name.toList field.name.toList := by
  apply Json.quotedText_self
  cases field <;> simp [Field.name]

theorem namedText_memberText (field : Field) (u : List Char) :
    NamedText field.name u (memberText field.name u) :=
  ⟨[], field.name.toList, [], [], [], by simp [memberText], .nil, quotedText_name field, .nil, .nil,
    .nil⟩

/-- The text of the width may be any. -/
theorem objectWith_width (hh : ValueText 126 h vh) :
    ObjectWith "width" w [] [("height", vh)] (sizeText w h) := by
  have hheight := (namedText_memberText .height h).spaced hh
  exact ⟨[], [], memberText "width" w, [memberText "height" h], [], by simp [sizeText], .nil, .nil,
    namedText_memberText .width w, .cons hheight .nil, .nil⟩

/-- The text of the height may be any. -/
theorem objectWith_height (hw : ValueText 126 w vw) :
    ObjectWith "height" h [("width", vw)] [] (sizeText w h) := by
  have hwidth := (namedText_memberText .width w).spaced hw
  exact ⟨[], [memberText "width" w], memberText "height" h, [], [], by simp [sizeText], .nil,
    .cons hwidth .nil, namedText_memberText .height h, .nil, .nil⟩

theorem member_eq_of_get? {members : List (String × Value)} (field : Field)
    (hv : Json.Members.get? field.name members = some v) :
    (member members field).toOption = component? v := by
  unfold member
  rw [hv]
  dsimp only
  cases component? v <;> rfl

theorem toOption_ofText_sizeText (hw : ValueText 126 w vw) (hh : ValueText 126 h vh) :
    (ofText (sizeText w h)).toOption = size? (component? vw) (component? vh) := by
  have hdocument : Json.DocumentText (sizeText w h)
      (.object (Json.Members.ofList [("width", vw), ("height", vh)])) :=
    ((objectWith_width hh).objectText hw).documentText
  rw [ofText_of_documentText hdocument]
  have hwidth := member_eq_of_get? .width
    (Json.Members.get?_ofList "width" [("width", vw), ("height", vh)])
  have hheight := member_eq_of_get? .height
    (Json.Members.get?_ofList "height" [("width", vw), ("height", vh)])
  unfold ofValue
  dsimp only
  rw [← hwidth, ← hheight]
  cases member (Json.Members.ofList [("width", vw), ("height", vh)]) .width with
  | error r => rfl
  | ok width =>
    cases member (Json.Members.ofList [("width", vw), ("height", vh)]) .height with
    | error r => rfl
    | ok height => rfl

/-- An object with a literal that is too large is no JSON. -/
theorem exists_malformed_of_not_denotes {name : String} {pre post : List (String × Value)}
    (h : ObjectWith name u pre post t) (hu : LiteralText u l) (hn : ¬ ∃ n, l.Denotes n) :
    ∃ m, ofText t = .error (.malformed m) := by
  obtain ⟨fault, hfault⟩ := h.document_error hu hn
  exact ⟨_, ofText_eq_malformed_iff.2 ⟨fault, hfault, rfl⟩⟩

/-! ## Both forms -/

/-- The text in quotes. -/
def quoted (t : List Char) : List Char := '"' :: (t ++ ['"'])

theorem valueText_of_scalarText {room : Nat} (ht : Json.ScalarText t v) : ValueText room t v := by
  cases room with
  | zero => exact ht
  | succ room => exact .scalar ht

theorem valueText_quoted {room : Nat} (ht : LiteralText t l) :
    ValueText room (quoted t) (.string (String.ofList t)) := by
  refine valueText_of_scalarText (.string (Json.quotedText_self fun c hc => ?_))
  exact Json.plain_of_literalChar (Json.literalChar_of_mem ht c hc)

theorem component?_string (ht : LiteralText t l) :
    component? (.string (String.ofList t)) =
      int32? (signed l.negative (binary64.whole (l.numeral.decimal.nearest binary64))) := by
  rw [component?, String.toList_ofList, Json.stringComponent?_literal ht]

theorem size?_left_inj {c c' : Option Int32} (h : Option Int32) :
    size? c h = size? c' h ↔ h = none ∨ c = c' := by
  cases h with
  | none => cases c <;> cases c' <;> simp [size?]
  | some h => cases c <;> cases c' <;> simp [size?]

theorem size?_right_inj {c c' : Option Int32} (w : Option Int32) :
    size? w c = size? w c' ↔ w = none ∨ c = c' := by
  cases w with
  | none => simp [size?]
  | some w => cases c <;> cases c' <;> simp [size?]

/-- As a number, the literal counts with the double that it is converted to. -/
theorem toOption_ofText_number (ht : LiteralText t l) (hu : ValueText 126 u v) :
    (ofText (sizeText t u)).toOption =
        size? (int32? (signed l.negative (binary64.whole l.magnitude))) (component? v) ∧
      (ofText (sizeText u t)).toOption =
        size? (component? v) (int32? (signed l.negative (binary64.whole l.magnitude))) := by
  by_cases hn : ∃ n, l.Denotes n
  · obtain ⟨n, hn⟩ := hn
    have hvalue : ValueText 126 t (.number n) := valueText_of_scalarText (.number ht hn)
    rw [toOption_ofText_sizeText hvalue hu, toOption_ofText_sizeText hu hvalue,
      ← numberComponent?_of_denotes hn]
    exact ⟨rfl, rfl⟩
  · obtain ⟨m, hwidth⟩ := exists_malformed_of_not_denotes (objectWith_width hu) ht hn
    obtain ⟨m', hheight⟩ := exists_malformed_of_not_denotes (objectWith_height hu) ht hn
    rw [hwidth, hheight, int32?_of_not_denotes hn]
    cases component? v <;> exact ⟨rfl, rfl⟩

/-- A literal as a field and the same literal in quotes lead to the same size, or both to none,
except when a whole number separates the double that the literal is converted to from the one
nearest to it, and the other field holds a component. -/
theorem ofText_quotes_iff (ht : LiteralText t l) (hu : ValueText 126 u v) :
    ((ofText (sizeText t u)).toOption = (ofText (sizeText (quoted t) u)).toOption ↔
        component? v = none ∨
          ¬ Separated l.negative l.magnitude (l.numeral.decimal.nearest binary64)) ∧
      ((ofText (sizeText u t)).toOption = (ofText (sizeText u (quoted t))).toOption ↔
        component? v = none ∨
          ¬ Separated l.negative l.magnitude (l.numeral.decimal.nearest binary64)) := by
  obtain ⟨hwidth, hheight⟩ := toOption_ofText_number ht hu
  have hquoted : ValueText 126 (quoted t) (.string (String.ofList t)) := valueText_quoted ht
  rw [hwidth, hheight, toOption_ofText_sizeText hquoted hu, toOption_ofText_sizeText hu hquoted,
    component?_string ht, size?_left_inj, size?_right_inj, int32?_signed_whole_eq_iff]
  exact ⟨Iff.rfl, Iff.rfl⟩

/-- The literal `922337205.0000000000` in its parts. -/
def longLiteral : Literal := ⟨false, "922337205".toList, some "0000000000".toList, none⟩

theorem literalText_longLiteral : LiteralText "922337205.0000000000".toList longLiteral := by
  have hwhole : Json.WholeText "922337205".toList := by simp [Json.WholeText, Json.Digits]
  have hfraction : Json.Digits "0000000000".toList := by simp [Json.Digits]
  exact .mk (l := longLiteral) (e := []) rfl hwhole (.digits hfraction) .absent

theorem valueText_one : ValueText 126 ['1'] (.number (.integer 1 (by decide))) := by
  have hdigits : Json.WholeText ['1'] := by simp [Json.WholeText, Json.Digits]
  have hone : LiteralText ['1'] ⟨false, ['1'], none, none⟩ :=
    .mk (l := ⟨false, ['1'], none, none⟩) rfl hdigits .absent .absent
  have hinteger : Literal.IsInteger ⟨false, ['1'], none, none⟩ :=
    ⟨rfl, rfl, by decide, by decide, by decide⟩
  exact valueText_of_scalarText (.number hone (.integer hinteger rfl))

theorem separated_longLiteral :
    LiteralText "922337205.0000000000".toList longLiteral ∧
      ValueText 126 ['1'] (.number (.integer 1 (by decide))) ∧
      Separated false longLiteral.magnitude (longLiteral.numeral.decimal.nearest binary64) := by
  refine ⟨literalText_longLiteral, valueText_one, ?_⟩
  have h := (ofText_quotes_iff literalText_longLiteral valueText_one).1
  by_contra hsep
  exact absurd (h.2 (.inr hsep)) (by decide +kernel)

/-- The digits of the literal have more than 53 bits.  They are rounded before they are divided
by the power of ten, and what is left of the whole number is cut off. -/
theorem ofText_longLiteral :
    ofText (sizeText "922337205.0000000000".toList ['1']) = .ok ⟨922337204, 1⟩ ∧
      ofText (sizeText (quoted "922337205.0000000000".toList) ['1']) = .ok ⟨922337205, 1⟩ := by
  decide +kernel

/-! ## Literals that read the same in both forms -/

/-- Integer literals of any length. -/
theorem not_separated_of_whole (ht : LiteralText t l) (hf : l.fraction = none)
    (he : l.exponent = none) :
    ¬ Separated l.negative l.magnitude (l.numeral.decimal.nearest binary64) := by
  have hnearest : l.numeral.decimal.nearest binary64 = binary64.nearest (digitsValue l.whole) 1 := by
    simp [Decimal.nearest_eq, Literal.numeral, Literal.writtenExponent, hf, he]
  rw [← int32?_signed_whole_eq_iff, hnearest]
  by_cases hd : (Literal.absorb 0 l.whole).2 = []
  · rw [Literal.magnitude_of_whole hf he hd]
  · have hlarge : largest l.negative < digitsValue l.whole := by
      obtain ⟨kept, -, -, hbig⟩ := Literal.absorb_eq (Prod.eta (Literal.absorb 0 l.whole)).symm
      have h64 : 2 ^ 64 ≤ digitsValue l.whole := hbig hd
      have h53 := largest_lt_two_pow l.negative
      omega
    have hdigits : ∀ d ∈ l.whole, d.isDigit = true := by
      cases ht with
      | mk _ hw => exact hw.1.2
    rw [int32?_signed_whole_nearest, int32?_signed_eq_none_iff.2 hlarge,
      int32?_signed_eq_none_iff.2 (Literal.largest_lt_magnitude hdigits hf he hd)]

/-- Literals of few digits with a small exponent. -/
theorem not_separated_of_short (hc : l.numeral.decimal.coefficient ≤ 2 ^ 53)
    (hx : l.numeral.decimal.exponent.natAbs ≤ 22)
    (he : l.writtenExponent.natAbs ≤ Literal.maxExponent) :
    ¬ Separated l.negative l.magnitude (l.numeral.decimal.nearest binary64) := by
  rw [← int32?_signed_whole_eq_iff, Literal.magnitude_of_short hc hx he]

end LayerSize.PixelSize
