import LayerSize.Proofs.PixelSize.SignedValues

/-!
# Numbers in strings

A member that is a string holds a component if the string is a numeral, white space around it,
and the double nearest to the exact number can be cut off to 32 bits.  Cutting off comes after
rounding, so a number just below a whole one, zero being below both signs, can be taken for it;
whole numbers are never missed.

* `awayPart`: the next whole number away from zero;
* `NearestTo.wholePart_value`: the whole part after rounding, against the exact one;
* `IsWord`: the words for infinities and for what is not a number, which are no numerals;
* `trim_padded`: white space at the ends changes nothing;
* `member_of_string`: members that are strings.
-/

namespace LayerSize

open Json (Value)

variable {q : ℚ} {k : ℕ} {x : Binary binary64} {c : Int32}

/-! ## Cutting off after rounding -/

/-- The next whole number away from zero, the number itself if it is whole. -/
def awayPart (q : ℚ) : ℤ := if q < 0 then ⌊q⌋ else ⌈q⌉

theorem awayPart_of_nonneg (h : 0 ≤ q) : awayPart q = ⌈q⌉ := if_neg (not_lt.2 h)

@[simp] theorem awayPart_neg (q : ℚ) : awayPart (-q) = -awayPart q := by
  unfold awayPart
  rcases lt_trichotomy q 0 with h | rfl | h
  · rw [if_neg (by linarith), if_pos h, Int.ceil_neg]
  · simp
  · rw [if_pos (by linarith), if_neg h.not_gt, Int.floor_neg]

namespace Format

/-- Rounding reaches the next whole number only from nearby. -/
theorem IsNearest.whole_eq (h : binary64.IsNearest q k) (hnonneg : 0 ≤ q)
    (hmax : binary64.whole k ≤ 2 ^ 31) :
    (binary64.whole k : ℤ) = ⌊q⌋ ∨
      (∀ m : ℤ, q ≠ m) ∧ ⌈q⌉ - q ≤ 1 / 2 ^ 23 ∧ (binary64.whole k : ℤ) = ⌈q⌉ := by
  obtain ⟨n, hn⟩ := Int.eq_ofNat_of_zero_le (Int.floor_nonneg.2 hnonneg)
  obtain ⟨hlow, hhigh⟩ := Int.floor_eq_iff.1 hn
  push_cast at hlow hhigh
  have hfloor : n ≤ binary64.whole k := by
    by_contra hlt
    have hnext : binary64.whole k + 1 ≤ n := by omega
    have hrep : binary64.Represents (binary64.whole k + 1 : ℕ) :=
      represents_nat (by decide) (show binary64.whole k + 1 ≤ 2 ^ 53 by omega)
    have hle := h.le_whole hrep (le_trans (by exact_mod_cast hnext) hlow)
    omega
  rcases hfloor.eq_or_lt with heq | hlt
  · exact .inl (by rw [hn, heq])
  · right
    have hrep : binary64.Represents (n + 1 : ℕ) := represents_nat (by decide) (show n + 1 ≤ 2 ^ 53 by omega)
    have hvalue : binary64.value k = (n + 1 : ℕ) :=
      le_antisymm (h.value_le hrep (by push_cast; exact hhigh.le)) (le_whole_iff.1 hlt)
    -- within 32 bits doubles are no further apart than this
    have hnear := h.sub_le (e := 22) (by decide) n.succ_pos
      (show (n + 1) * 2 ^ 22 ≤ 2 ^ 53 by omega) (by decide) hvalue.ge
    push_cast at hnear
    -- a whole number would have been kept
    have hne : (n : ℚ) < q := by linarith
    have hceil : ⌈q⌉ = n + 1 := by
      rw [Int.ceil_eq_iff]
      push_cast
      exact ⟨by linarith, hhigh.le⟩
    refine ⟨fun m hm => ?_, ?_, ?_⟩
    · rw [hm] at hne hhigh
      have h1 : (n : ℤ) < m := by exact_mod_cast hne
      have h2 : m < n + 1 := by exact_mod_cast hhigh
      omega
    · rw [hceil]
      push_cast
      linarith
    · rw [hceil, whole_eq_of_value hvalue]
      push_cast
      rfl

end Format

namespace Binary

theorem NearestTo.wholePart_value (h : x.NearestTo q) (hmax : |wholePart x.value| ≤ 2 ^ 31) :
    wholePart x.value = wholePart q ∨
      (∀ m : ℤ, q ≠ m) ∧ |awayPart q - q| ≤ 1 / 2 ^ 23 ∧ wholePart x.value = awayPart q := by
  have hwhole : wholePart (binary64.value x.magnitude) = binary64.whole x.magnitude := by
    rw [wholePart_of_nonneg (binary64.value_nonneg _), floor_value]
  have habs : |wholePart x.value| = binary64.whole x.magnitude := by
    rw [Binary.wholePart_value]
    cases x.negative <;> simp [signed]
  have hle : binary64.whole x.magnitude ≤ 2 ^ 31 := by
    rw [habs] at hmax
    exact_mod_cast hmax
  rcases h.nonneg_or_nonpos with ⟨hnonneg, hx, hnear⟩ | ⟨hnonneg, hx, hnear⟩
  · have hdist : 0 ≤ ⌈q⌉ - q := by linarith [Int.le_ceil q]
    rw [hx, hwhole, wholePart_of_nonneg hnonneg, awayPart_of_nonneg hnonneg, abs_of_nonneg hdist]
    exact hnear.whole_eq hnonneg hle
  · have hdist : 0 ≤ ⌈-q⌉ - -q := by linarith [Int.le_ceil (-q)]
    have hpart : wholePart q = -⌊-q⌋ := by
      rw [← wholePart_of_nonneg hnonneg, wholePart_neg, neg_neg]
    have haway : awayPart q = -⌈-q⌉ := by
      rw [← awayPart_of_nonneg hnonneg, awayPart_neg, neg_neg]
    have hflip : |((-⌈-q⌉ : ℤ) : ℚ) - q| = ⌈-q⌉ - -q := by
      rw [← abs_of_nonneg hdist, ← abs_neg]
      congr 1
      push_cast
      ring
    rw [hx, wholePart_neg, hwhole, hpart, haway, hflip, neg_inj, neg_inj]
    rcases hnear.whole_eq hnonneg hle with hfloor | ⟨hne, hnext, hceil⟩
    · exact .inl hfloor
    · refine .inr ⟨fun m hm => hne (-m) ?_, hnext, hceil⟩
      rw [hm]
      push_cast
      rfl

end Binary

theorem cutsTo_of_value_eq (h : x.value = c.toInt) : CutsTo x c := by
  have hlow := c.le_toInt
  have hhigh := c.toInt_lt
  rw [CutsTo, h, wholePart_intCast]
  exact ⟨by exact_mod_cast hlow, by exact_mod_cast hhigh, rfl⟩

/-- Integers of 32 bits are doubles. -/
theorem cutsTo_of_nearestTo (h : x.NearestTo q) (hq : q = c.toInt) : CutsTo x c := by
  have hle : c.toInt.natAbs ≤ 2 ^ 53 := by
    have hlow := c.le_toInt
    have hhigh := c.toInt_lt
    omega
  have hrep : binary64.Represents |q| := by
    rw [hq, ← Int.cast_abs, Int.abs_eq_natAbs]
    exact Format.represents_nat (by decide) hle
  exact cutsTo_of_value_eq ((h.value_eq hrep).trans hq)

theorem CutsTo.wholePart_or (hc : CutsTo x c) (h : x.NearestTo q) :
    c.toInt = wholePart q ∨
      (∀ m : ℤ, q ≠ m) ∧ |awayPart q - q| ≤ 1 / 2 ^ 23 ∧ c.toInt = awayPart q := by
  have hlow := c.le_toInt
  have hhigh := c.toInt_lt
  rw [hc.2.2]
  refine h.wholePart_value ?_
  rw [← hc.2.2, abs_le]
  exact ⟨by omega, by omega⟩

namespace PixelSize

/-! ## The strings that are accepted -/

theorem stringComponent?_eq_some_iff_nearestTo {cs : List Char} :
    stringComponent? cs = some c ↔ ∃ t n x, Text.Trimmed cs t ∧ NumeralText t n ∧
      x.NearestTo n.value ∧ CutsTo x c := by
  rw [stringComponent?_eq_some_iff]
  constructor
  · rintro ⟨t, n, x, ht, hn, hs, hx, hc⟩
    exact ⟨t, n, x, ht, hn, Binary.nearestTo_signed hs n.decimal.value_nonneg hx, hc⟩
  · rintro ⟨t, n, x, ht, hn, hx, hc⟩
    obtain ⟨hs, hnear⟩ := numeral_nearest_iff.1 (rfl : n.nearest binary64 = _)
    have hvalue := hx.value_unique (n.nearestTo_nearest binary64)
    refine ⟨t, n, _, ht, hn, hs, hnear, ?_⟩
    rwa [CutsTo, ← hvalue]

/-! ## Words -/

/-- The words for infinities and for what is not a number, in capital or small letters. -/
def IsWord (w : List Char) : Prop :=
  w.map Char.toLower = ['i', 'n', 'f'] ∨
    w.map Char.toLower = ['i', 'n', 'f', 'i', 'n', 'i', 't', 'y'] ∨
    w.map Char.toLower = ['n', 'a', 'n']

theorem IsWord.exists_cons {w : List Char} (h : IsWord w) :
    ∃ d ds, w = d :: ds ∧ (d.toLower = 'i' ∨ d.toLower = 'n') := by
  cases w with
  | nil => simp [IsWord] at h
  | cons d ds =>
    refine ⟨d, ds, rfl, ?_⟩
    simp only [IsWord, List.map_cons, List.cons.injEq] at h
    rcases h with h | h | h
    · exact .inl h.1
    · exact .inl h.1
    · exact .inr h.1

theorem toLower_of_isDigit {d : Char} (h : d.isDigit = true) : d.toLower = d := by
  simp only [Char.isDigit, Bool.and_eq_true, decide_eq_true_eq, UInt32.le_iff_toNat_le] at h
  refine dif_neg fun hupper => ?_
  have h1 : d.val.toNat ≤ 57 := h.2
  have h2 : 65 ≤ d.val.toNat := UInt32.le_iff_toNat_le.1 hupper.1
  omega

theorem head_mantissaText {m whole fraction rest ds : List Char} {d : Char}
    (hm : MantissaText m whole fraction) (h : m ++ rest = d :: ds) : d.isDigit = true ∨ d = '.' := by
  cases hm with
  | whole hds | point hds =>
    obtain ⟨a, as, rfl⟩ := List.exists_cons_of_ne_nil hds.1
    cases h
    exact .inl (hds.2 d (by simp))
  | fraction =>
    cases h
    exact .inr rfl

/-- Words start with a letter, and mantissas with a digit or a point. -/
theorem not_numeralText_of_isWord {sg w : List Char} {negative : Bool} {n : Numeral}
    (hs : SignText sg negative) (hw : IsWord w) : ¬ NumeralText (sg ++ w) n := by
  obtain ⟨d, ds, rfl, hd⟩ := hw.exists_cons
  have hsign : Numeral.sign (sg ++ d :: ds) = (negative, d :: ds) := by
    cases hs with
    | plus | minus => rfl
    | absent =>
      unfold Numeral.sign
      split
      · next h =>
        cases h
        exact absurd hd (by decide)
      · next h =>
        cases h
        exact absurd hd (by decide)
      · rfl
  intro h
  generalize ht : sg ++ d :: ds = t at h
  cases h with
  | @mk s m e whole fraction negative' exponent hs' hm he =>
    rw [ht, Numeral.sign_mantissa hs' hm e, Prod.mk.injEq] at hsign
    rcases head_mantissaText hm hsign.2 with hdigit | rfl
    · rw [toLower_of_isDigit hdigit] at hd
      rcases hd with rfl | rfl <;> cases hdigit
    · exact absurd hd (by decide)

/-! ## Padding -/

theorem trim_padded {a b cs : List Char} (ha : ∀ d ∈ a, Text.isWhiteSpace d = true)
    (hb : ∀ d ∈ b, Text.isWhiteSpace d = true) : Text.trim (a ++ (cs ++ b)) = Text.trim cs := by
  obtain ⟨a', b', hcs, ha', hb', hhead, hlast⟩ := Text.trimmed_trim cs
  have hall : ∀ {u v : List Char}, (∀ d ∈ u, Text.isWhiteSpace d = true) →
      (∀ d ∈ v, Text.isWhiteSpace d = true) → ∀ d ∈ u ++ v, Text.isWhiteSpace d = true := by
    intro u v hu hv d hd
    rcases List.mem_append.1 hd with hd | hd
    · exact hu d hd
    · exact hv d hd
  refine Text.trim_eq_iff.2 ⟨a ++ a', b' ++ b, ?_, hall ha ha', hall hb' hb, hhead, hlast⟩
  conv_lhs => rw [hcs]
  simp

/-! ## Members -/

section

variable {ms ms' : List (String × Value)} {field : Field} {s s' : String}
  (h : Json.Members.get? field.name ms = some (.string s))

include h

theorem member_string_eq_ok_iff :
    member ms field = .ok c ↔ ∃ t n x, Text.Trimmed s.toList t ∧ NumeralText t n ∧
      x.NearestTo n.value ∧ CutsTo x c := by
  rw [member_eq_ok_iff, h, Option.bind_some]
  exact stringComponent?_eq_some_iff_nearestTo

theorem member_string_of_not_ok (hnot : ∀ c, member ms field ≠ .ok c) :
    member ms field = .error (.notAnInteger field (String.ofList (Value.string s).text)) := by
  refine member_of_refused field h fun c hc => hnot c ?_
  exact member_of_holds field h hc

/-- There is one numeral in a string, and one number is read. -/
theorem cutsTo_of_member_string {t : List Char} {n : Numeral} (ht : Text.Trimmed s.toList t)
    (hn : NumeralText t n) (hc : member ms field = .ok c) :
    ∃ x : Binary binary64, x.NearestTo n.value ∧ CutsTo x c := by
  obtain ⟨t', n', x, ht', hn', hx, hcut⟩ := (member_string_eq_ok_iff h).1 hc
  obtain rfl : t' = t := (Text.trim_eq_iff.2 ht').symm.trans (Text.trim_eq_iff.2 ht)
  have hnumeral := (Numeral.ofText?_eq_some_iff.2 hn').symm.trans (Numeral.ofText?_eq_some_iff.2 hn)
  obtain rfl : n' = n := Option.some.inj hnumeral
  exact ⟨x, hx, hcut⟩

theorem member_string_ne_ok_of_isWord {sg w : List Char} {negative : Bool}
    (hs : SignText sg negative) (hw : IsWord w) (ht : Text.Trimmed s.toList (sg ++ w)) (c : Int32) :
    member ms field ≠ .ok c := by
  intro hc
  obtain ⟨t, n, x, ht', hn, -⟩ := (member_string_eq_ok_iff h).1 hc
  obtain rfl : t = sg ++ w := (Text.trim_eq_iff.2 ht').symm.trans (Text.trim_eq_iff.2 ht)
  exact not_numeralText_of_isWord hs hw hn

theorem member_string_of_whole {t : List Char} {n : Numeral} (ht : Text.Trimmed s.toList t)
    (hn : NumeralText t n) (hq : n.value = c.toInt) : member ms field = .ok c := by
  have hx := n.nearestTo_nearest binary64
  exact (member_string_eq_ok_iff h).2 ⟨t, n, _, ht, hn, hx, cutsTo_of_nearestTo hx hq⟩

theorem member_string_padded {a b : List Char} (ha : ∀ d ∈ a, Text.isWhiteSpace d = true)
    (hb : ∀ d ∈ b, Text.isWhiteSpace d = true) (hs : s'.toList = a ++ (s.toList ++ b))
    (h' : Json.Members.get? field.name ms' = some (.string s')) :
    member ms' field = (member ms field).mapError fun _ =>
      .notAnInteger field (String.ofList (Value.string s').text) := by
  have hcomponent : component? (.string s') = component? (.string s) := by
    show stringComponent? s'.toList = stringComponent? s.toList
    rw [stringComponent?, hs, trim_padded ha hb]
    rfl
  rw [member, member, h, h']
  dsimp only
  rw [hcomponent]
  cases component? (.string s) with
  | none => rfl
  | some c => rfl

end

/-- A member that is a string holds a component if and only if the string is a numeral, up to
white space around it, and the double nearest to the number can be cut off to 32 bits; otherwise
the member is refused, and so are the words for infinities and for what is not a number.  What is
read is the whole part of the exact number, or the next whole number away from zero, if that is
near it.  Whole numbers of 32 bits are read as they are, and more white space around a string
changes nothing but the text of the refusal. -/
theorem member_of_string {ms : List (String × Value)} {field : Field} {s : String}
    (h : Json.Members.get? field.name ms = some (.string s)) :
    (∀ c, member ms field = .ok c ↔ ∃ t n x, Text.Trimmed s.toList t ∧ NumeralText t n ∧
        x.NearestTo n.value ∧ CutsTo x c) ∧
      ((∀ c, member ms field ≠ .ok c) →
        member ms field = .error (.notAnInteger field (String.ofList (Value.string s).text))) ∧
      (∀ sg w negative, SignText sg negative → IsWord w → Text.Trimmed s.toList (sg ++ w) →
        ∀ c, member ms field ≠ .ok c) ∧
      (∀ t n c, Text.Trimmed s.toList t → NumeralText t n → member ms field = .ok c →
        c.toInt = wholePart n.value ∨ (∀ m : ℤ, n.value ≠ m) ∧
          |awayPart n.value - n.value| ≤ 1 / 2 ^ 23 ∧ c.toInt = awayPart n.value) ∧
      (∀ t n (c : Int32), Text.Trimmed s.toList t → NumeralText t n → n.value = c.toInt →
        member ms field = .ok c) ∧
      ∀ a b ms' s', (∀ d ∈ a, Text.isWhiteSpace d = true) →
        (∀ d ∈ b, Text.isWhiteSpace d = true) → s'.toList = a ++ (s.toList ++ b) →
        Json.Members.get? field.name ms' = some (.string s') →
          member ms' field = (member ms field).mapError fun _ =>
            .notAnInteger field (String.ofList (Value.string s').text) := by
  refine ⟨fun c => member_string_eq_ok_iff h, member_string_of_not_ok h,
    fun sg w negative hs hw ht => member_string_ne_ok_of_isWord h hs hw ht, ?_,
    fun t n c => member_string_of_whole h,
    fun a b ms' s' ha hb hs h' => member_string_padded h ha hb hs h'⟩
  intro t n c ht hn hc
  obtain ⟨x, hx, hcut⟩ := cutsTo_of_member_string h ht hn hc
  exact hcut.wholePart_or hx

/-- The number `2.9999999999999999`. -/
def nines : Numeral := ⟨false, ⟨29999999999999999, -16⟩⟩

/-- Nines are taken for three, with or without white space, and an infinity for nothing. -/
theorem member_of_string_nines :
    NumeralText "2.9999999999999999".toList nines ∧
      member [("width", .string "2.9999999999999999")] .width = .ok 3 ∧
      ((3 : Int32).toInt = wholePart nines.value ∨ (∀ m : ℤ, nines.value ≠ m) ∧
        |awayPart nines.value - nines.value| ≤ 1 / 2 ^ 23 ∧
          (3 : Int32).toInt = awayPart nines.value) ∧
      member [("width", .string "\t2.9999999999999999 ")] .width = .ok 3 ∧
      ∀ c, member [("width", .string "-Infinity")] .width ≠ .ok c := by
  have htrim : Text.Trimmed "2.9999999999999999".toList "2.9999999999999999".toList :=
    Text.trim_eq_iff.1 (by decide +kernel)
  have hn : NumeralText "2.9999999999999999".toList nines :=
    Numeral.ofText?_eq_some_iff.1 (by decide +kernel)
  have hthree : member [("width", .string "2.9999999999999999")] .width = .ok 3 := by
    decide +kernel
  have hget : ∀ s, Json.Members.get? Field.width.name [("width", Value.string s)] =
      some (.string s) := fun s => rfl
  obtain ⟨-, -, -, hnear, -, hpadded⟩ := member_of_string (hget "2.9999999999999999")
  obtain ⟨-, -, hword, -⟩ := member_of_string (hget "-Infinity")
  refine ⟨hn, hthree, hnear _ _ _ htrim hn hthree, ?_, ?_⟩
  · have hblank : ∀ c, Text.isWhiteSpace c = true → ∀ d ∈ [c], Text.isWhiteSpace d = true := by simp
    rw [hpadded ['\t'] [' '] _ _ (hblank _ rfl) (hblank _ rfl) rfl rfl, hthree]
    rfl
  · have hwhole : Text.Trimmed "-Infinity".toList (['-'] ++ "Infinity".toList) :=
      Text.trim_eq_iff.1 (by decide +kernel)
    exact hword _ _ _ .minus (.inr (.inl (by decide))) hwhole

end PixelSize

end LayerSize
