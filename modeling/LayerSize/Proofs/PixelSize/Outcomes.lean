import Mathlib.Data.Rat.Floor
import LayerSize.Proofs.Decimal.Numerals
import LayerSize.Proofs.PixelSize.Components

/-!
# The outcomes of reading a value

Which values hold a component, and what comes of reading a value as a size, said over exact
numbers.

* `CutsTo`: the double lies strictly between the integers next to 32 bits, and the component is
  its whole part;
* `Holds`, `component?_eq_some_iff`: numbers and strings that hold a component;
* `Verdict`, `ofValue_verdict`: the size of a value, or the first thing that is wrong with it.
-/

namespace LayerSize

open Json (Value)

/-! ## Whole parts of signed numbers -/

/-- The number without its fraction. -/
def wholePart (q : ℚ) : ℤ := if q < 0 then ⌈q⌉ else ⌊q⌋

/-- A whole part has 32 bits exactly when the number lies strictly between the integers on both
sides of those that have. -/
theorem wholePart_mem_iff {q : ℚ} :
    (-2147483648 ≤ wholePart q ∧ wholePart q ≤ 2147483647) ↔
      -2147483649 < q ∧ q < 2147483648 := by
  unfold wholePart
  split
  · next hneg =>
    rw [Int.le_ceil_iff, Int.ceil_le]
    push_cast
    constructor
    · rintro ⟨hlow, -⟩
      constructor <;> linarith
    · rintro ⟨hlow, -⟩
      constructor <;> linarith
  · next hpos =>
    rw [Int.le_floor, Int.floor_le_iff]
    push_cast
    constructor
    · rintro ⟨-, hhigh⟩
      constructor <;> linarith
    · rintro ⟨-, hhigh⟩
      constructor <;> linarith

namespace Binary

variable {F : Format}

/-- The exact value.  An infinity has the value after the largest finite one, and what is not a
number the values after that. -/
def value (x : Binary F) : ℚ := if x.negative then -F.value x.magnitude else F.value x.magnitude

theorem floor_value (k : Nat) : ⌊F.value k⌋ = F.whole k := by
  rw [Int.floor_eq_iff]
  constructor
  · exact_mod_cast Format.le_whole_iff.1 (le_refl (F.whole k))
  · by_contra hle
    have hsucc : F.whole k + 1 ≤ F.whole k := Format.le_whole_iff.2 (by push_cast at hle ⊢; linarith)
    omega

theorem wholePart_value (x : Binary F) :
    wholePart x.value = signed x.negative (F.whole x.magnitude) := by
  have hnonneg := F.value_nonneg x.magnitude
  unfold value signed
  cases x.negative with
  | false =>
    simp only [Bool.false_eq_true, if_false]
    rw [wholePart, if_neg (not_lt.2 hnonneg), floor_value]
  | true =>
    simp only [if_true]
    unfold wholePart
    split
    · rw [Int.ceil_neg, floor_value]
    · next hzero =>
      have h0 : F.value x.magnitude = 0 := by linarith
      have hwhole : F.whole x.magnitude = 0 := Format.whole_eq_of_value (by rw [h0]; rfl)
      rw [h0, hwhole]
      simp

end Binary

/-! ## Components -/

/-- The component is the double cut off, which does not leave 32 bits. -/
def CutsTo (x : Binary binary64) (c : Int32) : Prop :=
  -2147483649 < x.value ∧ x.value < 2147483648 ∧ c.toInt = wholePart x.value

theorem truncToInt32?_eq_some_iff {x : Binary binary64} {c : Int32} :
    x.truncToInt32? = some c ↔ CutsTo x c := by
  rw [truncToInt32?_eq, ← Binary.wholePart_value, int32?_eq_some_iff, CutsTo, ← and_assoc,
    ← wholePart_mem_iff]
  have hmin : Int32.minValue.toInt = -2147483648 := rfl
  have hmax : Int32.maxValue.toInt = 2147483647 := rfl
  have hlow := c.minValue_le_toInt
  have hhigh := c.toInt_le
  constructor
  · intro h
    exact ⟨⟨by omega, by omega⟩, h.symm⟩
  · rintro ⟨-, h⟩
    exact h.symm

namespace PixelSize

/-- A value holds a component: an integer of 32 bits, a double that can be cut off to 32 bits, or
a string with a numeral, white space around it, whose nearest double can. -/
inductive Holds : Value → Int32 → Prop where
  | integer {n : Int} {range} {c : Int32} (hlow : -2147483648 ≤ n) (hhigh : n ≤ 2147483647)
      (h : c.toInt = n) : Holds (.number (.integer n range)) c
  | double {x : Binary binary64} {finite} {c : Int32} (h : CutsTo x c) :
      Holds (.number (.real x finite)) c
  | string {s : String} {t : List Char} {n : Numeral} {x : Binary binary64} {c : Int32}
      (ht : Text.Trimmed s.toList t) (hn : NumeralText t n) (hs : x.negative = n.negative)
      (hx : binary64.IsNearest n.decimal.value x.magnitude) (h : CutsTo x c) : Holds (.string s) c

theorem numeral_nearest_iff {n : Numeral} {x : Binary binary64} :
    n.nearest binary64 = x ↔
      x.negative = n.negative ∧ binary64.IsNearest n.decimal.value x.magnitude := by
  rw [← Decimal.nearest_eq_iff]
  constructor
  · rintro rfl
    exact ⟨rfl, rfl⟩
  · obtain ⟨negative, magnitude, hlt⟩ := x
    rintro ⟨rfl, rfl⟩
    rfl

theorem stringComponent?_eq_some_iff {cs : List Char} {c : Int32} :
    stringComponent? cs = some c ↔ ∃ t n x, Text.Trimmed cs t ∧ NumeralText t n ∧
      x.negative = n.negative ∧ binary64.IsNearest n.decimal.value x.magnitude ∧ CutsTo x c := by
  rw [stringComponent?, Option.bind_eq_some_iff]
  constructor
  · rintro ⟨n, hn, hc⟩
    obtain ⟨hs, hx⟩ := numeral_nearest_iff.1 (rfl : n.nearest binary64 = _)
    exact ⟨_, n, _, Text.trim_eq_iff.1 rfl, Numeral.ofText?_eq_some_iff.1 hn, hs, hx,
      truncToInt32?_eq_some_iff.1 hc⟩
  · rintro ⟨t, n, x, ht, hn, hs, hx, hc⟩
    rw [Text.trim_eq_iff.2 ht]
    refine ⟨n, Numeral.ofText?_eq_some_iff.2 hn, ?_⟩
    rw [numeral_nearest_iff.2 ⟨hs, hx⟩]
    exact truncToInt32?_eq_some_iff.2 hc

theorem component?_eq_some_iff {v : Value} {c : Int32} : component? v = some c ↔ Holds v c := by
  constructor
  · intro h
    unfold component? numberComponent? at h
    split at h
    · split at h
      · next n range =>
        obtain rfl := int32?_eq_some_iff.1 h
        exact .integer c.minValue_le_toInt c.toInt_le rfl
      · exact .double (truncToInt32?_eq_some_iff.1 h)
    · obtain ⟨t, n, x, ht, hn, hs, hx, hc⟩ := stringComponent?_eq_some_iff.1 h
      exact .string ht hn hs hx hc
    · cases h
  · intro h
    cases h with
    | integer _ _ h => exact int32?_eq_some_iff.2 h.symm
    | double h => exact truncToInt32?_eq_some_iff.2 h
    | string ht hn hs hx h => exact stringComponent?_eq_some_iff.2 ⟨_, _, _, ht, hn, hs, hx, h⟩

theorem component?_eq_none_iff {v : Value} : component? v = none ↔ ∀ c, ¬ Holds v c := by
  rw [Option.eq_none_iff_forall_ne_some]
  exact forall_congr' fun c => not_congr component?_eq_some_iff

/-! ## Sizes -/

/-- What comes of reading a value as a size.  The width is settled before the height is looked
at, and a member is refused with its own text. -/
inductive Verdict : Value → Except Refusal PixelSize → Prop where
  | notAnObject {v : Value} (h : v.kind ≠ .object) : Verdict v (.error (.notAnObject v.kind))
  | widthMissing {ms : List (String × Value)} (h : Json.Members.get? "width" ms = none) :
      Verdict (.object ms) (.error (.missing .width))
  | widthRefused {ms : List (String × Value)} {v : Value} (h : Json.Members.get? "width" ms = some v)
      (hv : ∀ c, ¬ Holds v c) :
      Verdict (.object ms) (.error (.notAnInteger .width (String.ofList v.text)))
  | heightMissing {ms : List (String × Value)} {v : Value} {c : Int32}
      (h : Json.Members.get? "width" ms = some v) (hv : Holds v c)
      (h' : Json.Members.get? "height" ms = none) : Verdict (.object ms) (.error (.missing .height))
  | heightRefused {ms : List (String × Value)} {v v' : Value} {c : Int32}
      (h : Json.Members.get? "width" ms = some v) (hv : Holds v c)
      (h' : Json.Members.get? "height" ms = some v') (hv' : ∀ c', ¬ Holds v' c') :
      Verdict (.object ms) (.error (.notAnInteger .height (String.ofList v'.text)))
  | size {ms : List (String × Value)} {v v' : Value} {c c' : Int32}
      (h : Json.Members.get? "width" ms = some v) (hv : Holds v c)
      (h' : Json.Members.get? "height" ms = some v') (hv' : Holds v' c') :
      Verdict (.object ms) (.ok ⟨c, c'⟩)

section

variable {ms : List (String × Value)} (field : Field) {v : Value} {c : Int32}

theorem member_of_missing (h : Json.Members.get? field.name ms = none) :
    member ms field = .error (.missing field) := by
  rw [member, h]

theorem member_of_refused (h : Json.Members.get? field.name ms = some v) (hv : ∀ c, ¬ Holds v c) :
    member ms field = .error (.notAnInteger field (String.ofList v.text)) := by
  rw [member, h]
  dsimp only
  rw [component?_eq_none_iff.2 hv]

theorem member_of_holds (h : Json.Members.get? field.name ms = some v) (hv : Holds v c) :
    member ms field = .ok c := by
  rw [member, h]
  dsimp only
  rw [component?_eq_some_iff.2 hv]

end

/-- The width and then the height. -/
theorem ofValue_object (ms : List (String × Value)) :
    ofValue (.object ms) = (member ms .width >>= fun c => (member ms .height).map fun c' => ⟨c, c'⟩) := by
  rw [ofValue]
  cases member ms .width with
  | error r => rfl
  | ok c => cases member ms .height <;> rfl

theorem member_eq_ok_iff {ms : List (String × Value)} {field : Field} {c : Int32} :
    member ms field = .ok c ↔ (Json.Members.get? field.name ms).bind component? = some c := by
  unfold member
  cases Json.Members.get? field.name ms with
  | none => simp
  | some v => cases hv : component? v <;> simp [hv]

/-- The size of an object has the components of its two members. -/
theorem ofValue_object_eq_ok_iff {ms : List (String × Value)} {s : PixelSize} :
    ofValue (.object ms) = .ok s ↔
      (Json.Members.get? "width" ms).bind component? = some s.width ∧
        (Json.Members.get? "height" ms).bind component? = some s.height := by
  rw [ofValue_object, Json.bind_eq_ok_iff]
  constructor
  · rintro ⟨w, hw, hsize⟩
    cases hh : member ms .height with
    | error r =>
      rw [hh] at hsize
      cases hsize
    | ok h =>
      rw [hh] at hsize
      cases hsize
      exact ⟨member_eq_ok_iff.1 hw, member_eq_ok_iff.1 hh⟩
  · rintro ⟨hw, hh⟩
    have hheight : member ms .height = .ok s.height := member_eq_ok_iff.2 hh
    exact ⟨s.width, member_eq_ok_iff.2 hw, by rw [hheight]; rfl⟩

theorem verdict_ofValue_object (ms : List (String × Value)) :
    Verdict (.object ms) (ofValue (.object ms)) := by
  rw [ofValue_object]
  cases hw : Json.Members.get? "width" ms with
  | none =>
    rw [member_of_missing .width hw]
    exact .widthMissing hw
  | some v =>
    by_cases hv : ∃ c, Holds v c
    · obtain ⟨c, hv⟩ := hv
      rw [member_of_holds .width hw hv]
      cases hh : Json.Members.get? "height" ms with
      | none =>
        rw [member_of_missing .height hh]
        exact .heightMissing hw hv hh
      | some v' =>
        by_cases hv' : ∃ c', Holds v' c'
        · obtain ⟨c', hv'⟩ := hv'
          rw [member_of_holds .height hh hv']
          exact .size hw hv hh hv'
        · rw [member_of_refused .height hh (not_exists.1 hv')]
          exact .heightRefused hw hv hh (not_exists.1 hv')
    · rw [member_of_refused .width hw (not_exists.1 hv)]
      exact .widthRefused hw (not_exists.1 hv)

theorem verdict_ofValue (v : Value) : Verdict v (ofValue v) := by
  cases v with
  | object ms => exact verdict_ofValue_object ms
  | null | boolean | number | string | array => exact .notAnObject nofun

theorem ofValue_of_verdict {v : Value} {r : Except Refusal PixelSize} (h : Verdict v r) :
    ofValue v = r := by
  cases h with
  | notAnObject h =>
    cases v with
    | object => exact absurd rfl h
    | null | boolean | number | string | array => rfl
  | widthMissing h => rw [ofValue_object, member_of_missing .width h]; rfl
  | widthRefused h hv => rw [ofValue_object, member_of_refused .width h hv]; rfl
  | heightMissing h hv h' =>
    rw [ofValue_object, member_of_holds .width h hv, member_of_missing .height h']
    rfl
  | heightRefused h hv h' hv' =>
    rw [ofValue_object, member_of_holds .width h hv, member_of_refused .height h' hv']
    rfl
  | size h hv h' hv' =>
    rw [ofValue_object, member_of_holds .width h hv, member_of_holds .height h' hv']
    rfl

theorem Holds.unique {v : Value} {c c' : Int32} (h : Holds v c) (h' : Holds v c') : c = c' := by
  rw [← component?_eq_some_iff] at h h'
  rw [h] at h'
  exact Option.some.inj h'

theorem Holds.kind {v : Value} {c : Int32} (h : Holds v c) :
    v.kind = .number ∨ v.kind = .string := by
  cases h with
  | integer | double => exact .inl rfl
  | string => exact .inr rfl

/-- Where the width fails, the other members are not looked at. -/
theorem ofValue_eq_of_width {ms ms' : List (String × Value)}
    (hget : Json.Members.get? "width" ms = Json.Members.get? "width" ms')
    (hw : ∀ v, Json.Members.get? "width" ms = some v → ∀ c, ¬ Holds v c) :
    ofValue (.object ms) = ofValue (.object ms') := by
  cases h : Json.Members.get? "width" ms with
  | none => rw [ofValue_of_verdict (.widthMissing h), ofValue_of_verdict (.widthMissing (hget ▸ h))]
  | some v =>
    rw [ofValue_of_verdict (.widthRefused h (hw v h)),
      ofValue_of_verdict (.widthRefused (hget ▸ h) (hw v h))]

/-- Reading a value has the one outcome that the verdict names.  Only numbers and strings hold
components, each of them one at most, and a width that fails decides alone. -/
theorem ofValue_verdict (v : Value) :
    (∀ r, ofValue v = r ↔ Verdict v r) ∧
      (∀ c, Holds v c → (v.kind = .number ∨ v.kind = .string) ∧ ∀ c', Holds v c' → c' = c) ∧
      ∀ ms ms', v = .object ms →
        Json.Members.get? "width" ms = Json.Members.get? "width" ms' →
        (∀ w, Json.Members.get? "width" ms = some w → ∀ c, ¬ Holds w c) →
        ofValue (.object ms') = ofValue v := by
  refine ⟨fun r => ⟨?_, ofValue_of_verdict⟩, fun c hc => ⟨hc.kind, fun c' hc' => hc'.unique hc⟩, ?_⟩
  · rintro rfl
    exact verdict_ofValue v
  · rintro ms ms' rfl hget hw
    exact (ofValue_eq_of_width hget hw).symm

end PixelSize

end LayerSize
