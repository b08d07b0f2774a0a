import LayerSize.Proofs.Binary.Rounding
import LayerSize.Proofs.Json.Grammar

/-!
# Reading number literals

What the scanner of number literals accepts, and the number it makes of a literal, against
the grammar.

* `scan_sound`, `scan_complete`: the parts of a literal are those that the grammar gives it,
  and a literal is read to its end where nothing follows that would go on with it;
* `number_eq_ok_iff`: a literal is converted to the number it denotes.
-/

namespace LayerSize.Json

/-! ## Runs of digits -/

/-- No digit comes first. -/
def NoDigit (cs : List Char) : Prop := ∀ c ∈ cs.head?, c.isDigit = false

/-- Nothing comes first that could go on with a number literal. -/
def NoLiteral (cs : List Char) : Prop :=
  ∀ c ∈ cs.head?, c.isDigit = false ∧ c ≠ '.' ∧ c ≠ 'e' ∧ c ≠ 'E'

theorem wholeText_zero : WholeText ['0'] :=
  ⟨⟨by simp, by simp⟩, fun _ => rfl⟩

theorem NoLiteral.noDigit {cs : List Char} (h : NoLiteral cs) : NoDigit cs :=
  fun c hc => (h c hc).1

theorem digitRun_append {ds rest : List Char} (hd : ∀ d ∈ ds, d.isDigit = true)
    (hr : NoDigit rest) : Numeral.digitRun (ds ++ rest) = (ds, rest) := by
  rw [Numeral.digitRun, List.takeWhile_append_of_pos hd, List.dropWhile_append_of_pos hd]
  cases rest with
  | nil => simp
  | cons c rest =>
    have hc : c.isDigit = false := hr c rfl
    simp [hc]

theorem digitRun_eq {cs ds rest : List Char} (h : Numeral.digitRun cs = (ds, rest)) :
    cs = ds ++ rest ∧ (∀ d ∈ ds, d.isDigit = true) ∧ NoDigit rest := by
  obtain ⟨rfl, rfl⟩ : cs.takeWhile Char.isDigit = ds ∧ cs.dropWhile Char.isDigit = rest := by
    simpa [Numeral.digitRun] using h
  have hall : ∀ d ∈ cs.takeWhile Char.isDigit, d.isDigit = true :=
    List.all_eq_true.1 List.all_takeWhile
  refine ⟨List.takeWhile_append_dropWhile.symm, hall, ?_⟩
  intro c hc
  have := List.head?_dropWhile_not Char.isDigit cs
  rw [Option.mem_def] at hc
  simpa [hc] using this

namespace Literal

variable {atEnd : Cause} {noDigit : List Char → Fault Cause} {cs ds rest t : List Char}

theorem digitRun_eq_ok_iff :
    digitRun noDigit cs = .ok (ds, rest) ↔ cs = ds ++ rest ∧ Digits ds ∧ NoDigit rest := by
  unfold digitRun
  constructor
  · intro h
    split at h
    · exact absurd h (by simp)
    · next ds' rest' hne hrun =>
      obtain ⟨rfl, rfl⟩ : ds' = ds ∧ rest' = rest := by simpa using h
      obtain ⟨hcs, hd, hr⟩ := digitRun_eq hrun
      exact ⟨hcs, ⟨hne, hd⟩, hr⟩
  · rintro ⟨rfl, ⟨hne, hd⟩, hr⟩
    rw [digitRun_append hd hr]
    cases ds with
    | nil => exact absurd rfl hne
    | cons d ds => rfl

/-! ## The parts of a literal -/

theorem scanWhole_of_ne_zero (h : cs.head? ≠ some '0') :
    scanWhole atEnd cs = digitRun (missingDigit atEnd) cs := by
  unfold scanWhole
  split
  · exact absurd rfl h
  · rfl

theorem scanWhole_sound (h : scanWhole atEnd cs = .ok (ds, rest)) :
    cs = ds ++ rest ∧ WholeText ds := by
  by_cases hz : cs.head? = some '0'
  · obtain ⟨cs, rfl⟩ : ∃ cs', cs = '0' :: cs' := by
      cases cs with
      | nil => exact absurd hz (by simp)
      | cons c cs =>
        obtain rfl : c = '0' := by simpa using hz
        exact ⟨cs, rfl⟩
    cases cs with
    | nil =>
      obtain ⟨rfl, rfl⟩ : ['0'] = ds ∧ [] = rest := by simpa [scanWhole] using h
      exact ⟨rfl, wholeText_zero⟩
    | cons c cs =>
      rw [scanWhole] at h
      split at h
      · exact absurd h (by simp)
      · obtain ⟨rfl, rfl⟩ : ['0'] = ds ∧ c :: cs = rest := by simpa using h
        exact ⟨rfl, wholeText_zero⟩
  · rw [scanWhole_of_ne_zero hz, digitRun_eq_ok_iff] at h
    obtain ⟨rfl, hd, -⟩ := h
    refine ⟨rfl, hd, fun h0 => absurd ?_ hz⟩
    rw [List.head?_append, h0]
    rfl

theorem scanWhole_complete (hw : WholeText ds) (hr : NoDigit rest) :
    scanWhole atEnd (ds ++ rest) = .ok (ds, rest) := by
  obtain ⟨hd, hz⟩ := hw
  by_cases h0 : ds.head? = some '0'
  · rw [hz h0, List.singleton_append]
    cases rest with
    | nil => rfl
    | cons c rest =>
      have hc : c.isDigit = false := hr c rfl
      simp [scanWhole, hc]
  · have hne : (ds ++ rest).head? ≠ some '0' := by
      cases ds with
      | nil => exact absurd rfl hd.1
      | cons d ds => exact h0
    rw [scanWhole_of_ne_zero hne]
    exact digitRun_eq_ok_iff.2 ⟨rfl, hd, hr⟩

theorem scanFraction_of_ne (h : cs.head? ≠ some '.') : scanFraction atEnd cs = .ok (none, cs) := by
  unfold scanFraction
  split
  · exact absurd rfl h
  · rfl

variable {fraction : Option (List Char)} {exponent : Option (Bool × List Char)}

theorem scanFraction_sound (h : scanFraction atEnd cs = .ok (fraction, rest)) :
    ∃ t, cs = t ++ rest ∧ FractionText t fraction := by
  unfold scanFraction at h
  split at h
  · next cs =>
    obtain ⟨⟨ds, rest'⟩, hd, h⟩ := bind_eq_ok_iff.1 h
    obtain ⟨rfl, rfl⟩ : some ds = fraction ∧ rest' = rest := by simpa [pure, Except.pure] using h
    obtain ⟨rfl, hd, -⟩ := digitRun_eq_ok_iff.1 hd
    exact ⟨'.' :: ds, rfl, .digits hd⟩
  · obtain ⟨rfl, rfl⟩ : none = fraction ∧ cs = rest := by simpa using h
    exact ⟨[], rfl, .absent⟩

theorem scanFraction_complete (ht : FractionText t fraction) (hr : NoDigit rest)
    (hp : rest.head? ≠ some '.') : scanFraction atEnd (t ++ rest) = .ok (fraction, rest) := by
  cases ht with
  | absent => exact scanFraction_of_ne hp
  | @digits ds h =>
    show (digitRun (missingDigit atEnd) (ds ++ rest) >>= _) = _
    rw [digitRun_eq_ok_iff.2 ⟨rfl, h, hr⟩]
    rfl

theorem sign_eq {negative : Bool} (h : Numeral.sign cs = (negative, ds)) :
    negative = true ∧ cs = '-' :: ds ∨ negative = false ∧ (cs = '+' :: ds ∨ cs = ds) := by
  unfold Numeral.sign at h
  split at h <;> simp_all

theorem sign_append (h : Digits ds) (rest : List Char) :
    Numeral.sign (ds ++ rest) = (false, ds ++ rest) := by
  obtain ⟨hne, hd⟩ := h
  cases ds with
  | nil => exact absurd rfl hne
  | cons d ds =>
    have h0 := hd d (List.mem_cons_self ..)
    rw [List.cons_append]
    unfold Numeral.sign
    split
    · next heq =>
      obtain ⟨rfl, -⟩ := List.cons.inj heq
      exact absurd h0 (by decide)
    · next heq =>
      obtain ⟨rfl, -⟩ := List.cons.inj heq
      exact absurd h0 (by decide)
    · rfl

theorem scanExponent_sound (h : scanExponent atEnd cs = .ok (exponent, rest)) :
    ∃ t, cs = t ++ rest ∧ ExponentText t exponent := by
  unfold scanExponent at h
  split at h
  · next e cs =>
    split at h
    · next he =>
      obtain ⟨negative, cs', hsign⟩ : ∃ negative cs', Numeral.sign cs = (negative, cs') :=
        ⟨_, _, rfl⟩
      rw [hsign] at h
      obtain ⟨⟨ds, rest'⟩, hd, h⟩ := bind_eq_ok_iff.1 h
      obtain ⟨rfl, rfl⟩ : some (negative, ds) = exponent ∧ rest' = rest := by
        simpa [pure, Except.pure] using h
      obtain ⟨rfl, hd, -⟩ := digitRun_eq_ok_iff.1 hd
      rcases sign_eq hsign with ⟨rfl, rfl⟩ | ⟨rfl, rfl | rfl⟩
      · exact ⟨e :: '-' :: ds, rfl, .minus he hd⟩
      · exact ⟨e :: '+' :: ds, rfl, .plus he hd⟩
      · exact ⟨e :: ds, rfl, .unsigned he hd⟩
    · obtain ⟨rfl, rfl⟩ : none = exponent ∧ e :: cs = rest := by simpa using h
      exact ⟨[], rfl, .absent⟩
  · obtain ⟨rfl, rfl⟩ : none = exponent ∧ [] = rest := by simpa using h
    exact ⟨[], rfl, .absent⟩

theorem scanExponent_complete (ht : ExponentText t exponent) (hr : NoLiteral rest) :
    scanExponent atEnd (t ++ rest) = .ok (exponent, rest) := by
  cases ht with
  | absent =>
    cases rest with
    | nil => rfl
    | cons c rest =>
      obtain ⟨-, -, he, hE⟩ := hr c rfl
      simp [scanExponent, he, hE]
  | @unsigned e ds he h =>
    rw [List.cons_append, scanExponent, if_pos he, sign_append h]
    dsimp only
    rw [digitRun_eq_ok_iff.2 ⟨rfl, h, hr.noDigit⟩]
    rfl
  | @plus e ds he h =>
    rw [List.cons_append, scanExponent, if_pos he]
    show (digitRun (missingDigit atEnd) (ds ++ rest) >>= _) = _
    rw [digitRun_eq_ok_iff.2 ⟨rfl, h, hr.noDigit⟩]
    rfl
  | @minus e ds he h =>
    rw [List.cons_append, scanExponent, if_pos he]
    show (digitRun (missingDigit atEnd) (ds ++ rest) >>= _) = _
    rw [digitRun_eq_ok_iff.2 ⟨rfl, h, hr.noDigit⟩]
    rfl

/-- The parts after the sign. -/
theorem scan_sign (negative : Bool) (h : negative = false → cs.head? ≠ some '-') :
    scan atEnd ((if negative then ['-'] else []) ++ cs) = do
      let (whole, cs) ← scanWhole atEnd cs
      let (fraction, cs) ← scanFraction atEnd cs
      let (exponent, cs) ← scanExponent atEnd cs
      return (⟨negative, whole, fraction, exponent⟩, cs) := by
  cases negative with
  | true => rfl
  | false =>
    show scan atEnd cs = _
    unfold scan
    split
    next heq =>
      split at heq
      · exact absurd rfl (h rfl)
      · obtain ⟨rfl, rfl⟩ := Prod.mk.inj heq
        rfl

theorem scan_sound {l : Literal} (h : scan atEnd cs = .ok (l, rest)) :
    ∃ t, cs = t ++ rest ∧ LiteralText t l := by
  obtain ⟨negative, cs', rfl, hcs⟩ : ∃ negative cs',
      cs = (if negative then ['-'] else []) ++ cs' ∧ (negative = false → cs'.head? ≠ some '-') := by
    by_cases hm : cs.head? = some '-'
    · cases cs with
      | nil => exact absurd hm (by simp)
      | cons c cs =>
        obtain rfl : c = '-' := by simpa using hm
        exact ⟨true, cs, rfl, fun h => absurd h (by simp)⟩
    · exact ⟨false, cs, rfl, fun _ => hm⟩
  rw [scan_sign negative hcs] at h
  obtain ⟨⟨whole, cs₁⟩, hw, h⟩ := bind_eq_ok_iff.1 h
  obtain ⟨⟨fraction, cs₂⟩, hf, h⟩ := bind_eq_ok_iff.1 h
  obtain ⟨⟨exponent, cs₃⟩, he, h⟩ := bind_eq_ok_iff.1 h
  obtain ⟨rfl, rfl⟩ : ⟨negative, whole, fraction, exponent⟩ = l ∧ cs₃ = rest := by
    simpa [pure, Except.pure] using h
  obtain ⟨rfl, hwhole⟩ := scanWhole_sound hw
  obtain ⟨f, rfl, hfraction⟩ := scanFraction_sound hf
  obtain ⟨e, rfl, hexponent⟩ := scanExponent_sound he
  exact ⟨_, by simp, .mk rfl hwhole hfraction hexponent⟩

/-- An exponent starts with its letter. -/
theorem exponent_starts_of_ne_nil (he : ExponentText t exponent) (hne : t ≠ []) (rest : List Char) :
    NoDigit (t ++ rest) ∧ (t ++ rest).head? ≠ some '.' := by
  have hletter : ∀ {e : Char} {cs : List Char}, e = 'e' ∨ e = 'E' →
      NoDigit (e :: cs) ∧ (e :: cs).head? ≠ some '.' := by
    rintro e cs (rfl | rfl) <;> exact ⟨by simp [NoDigit], by simp⟩
  cases he with
  | absent => exact absurd rfl hne
  | unsigned he | plus he | minus he => exact hletter he

/-- Where an exponent may start, no digit and no point comes first. -/
theorem exponent_starts (he : ExponentText t exponent) (hr : NoLiteral rest) :
    NoDigit (t ++ rest) ∧ (t ++ rest).head? ≠ some '.' := by
  by_cases hne : t = []
  · subst hne
    exact ⟨hr.noDigit, fun h => (hr '.' h).2.1 rfl⟩
  · exact exponent_starts_of_ne_nil he hne rest

theorem fraction_starts (hf : FractionText t fraction) (hr : NoDigit rest) :
    NoDigit (t ++ rest) := by
  cases hf with
  | absent => exact hr
  | digits h => simp [NoDigit]

/-- No minus stands among the digits before the point. -/
theorem whole_starts (hw : WholeText ds) (rest : List Char) :
    (ds ++ rest).head? ≠ some '-' := by
  obtain ⟨⟨hne, hd⟩, -⟩ := hw
  cases ds with
  | nil => exact absurd rfl hne
  | cons d ds =>
    have h0 := hd d (List.mem_cons_self ..)
    simp only [List.cons_append, List.head?_cons, ne_eq, Option.some.injEq]
    rintro rfl
    exact absurd h0 (by decide)

theorem scan_complete {l : Literal} (ht : LiteralText t l) (hr : NoLiteral rest) :
    scan atEnd (t ++ rest) = .ok (l, rest) := by
  obtain ⟨rfl, hw, hf, he⟩ := ht
  rename_i f e
  obtain ⟨hnd, hnp⟩ := exponent_starts he hr
  have hminus := whole_starts hw (f ++ (e ++ rest))
  have happ : (if l.negative then ['-'] else []) ++ (l.whole ++ (f ++ e)) ++ rest =
      (if l.negative then ['-'] else []) ++ (l.whole ++ (f ++ (e ++ rest))) := by simp
  rw [happ, scan_sign l.negative (fun _ => hminus), scanWhole_complete hw (fraction_starts hf hnd)]
  show (scanFraction atEnd (f ++ (e ++ rest)) >>= _) = _
  rw [scanFraction_complete hf hnd hnp]
  show (scanExponent atEnd (e ++ rest) >>= _) = _
  rw [scanExponent_complete he hr]
  rfl

/-! ## The digits that are kept -/

theorem le_ofDigitChars (ds : List Char) (n : Nat) : n ≤ Nat.ofDigitChars 10 ds n := by
  induction ds generalizing n with
  | nil => exact le_rfl
  | cons d ds ih =>
    rw [Nat.ofDigitChars_cons]
    exact le_trans (by omega) (ih _)

/-- The digits that are kept come first, and where any is dropped the whole run has more than
64 bits. -/
theorem absorb_eq {n m : Nat} {dropped : List Char} (h : absorb n ds = (m, dropped)) :
    ∃ kept, ds = kept ++ dropped ∧ m = Nat.ofDigitChars 10 kept n ∧
      (dropped ≠ [] → 2 ^ 64 ≤ Nat.ofDigitChars 10 ds n) := by
  induction ds generalizing n with
  | nil =>
    obtain ⟨rfl, rfl⟩ : n = m ∧ [] = dropped := by simpa [absorb] using h
    exact ⟨[], rfl, rfl, fun h => absurd rfl h⟩
  | cons d ds ih =>
    have hstep : 10 * n + digitValue d = 10 * n + (d.toNat - '0'.toNat) := rfl
    rw [absorb] at h
    split at h
    · obtain ⟨kept, rfl, hm, hd⟩ := ih h
      refine ⟨d :: kept, rfl, ?_, ?_⟩
      · rw [hm, Nat.ofDigitChars_cons, hstep]
      · rwa [Nat.ofDigitChars_cons, ← hstep]
    · next hbig =>
      obtain ⟨rfl, rfl⟩ : n = m ∧ d :: ds = dropped := by simpa using h
      refine ⟨[], rfl, rfl, fun _ => ?_⟩
      rw [Nat.ofDigitChars_cons, ← hstep]
      exact le_trans (by omega) (le_ofDigitChars ds _)

/-- Where no digit is dropped, the number is that of all digits. -/
theorem absorb_fst {n : Nat} (h : (absorb n ds).2 = []) :
    (absorb n ds).1 = Nat.ofDigitChars 10 ds n := by
  obtain ⟨kept, hds, hm, -⟩ := absorb_eq (Prod.eta (absorb n ds)).symm
  rw [h, List.append_nil] at hds
  rw [hm, ← hds]

theorem absorb_of_lt {n : Nat} (h : Nat.ofDigitChars 10 ds n < 2 ^ 64) :
    absorb n ds = (Nat.ofDigitChars 10 ds n, []) := by
  obtain ⟨kept, -, -, hbig⟩ := absorb_eq (Prod.eta (absorb n ds)).symm
  have hdropped : (absorb n ds).2 = [] := by
    by_contra hne
    exact absurd (hbig hne) (by omega)
  exact Prod.ext (absorb_fst hdropped) hdropped

/-- The exponent that is read exceeds the largest at some digit if it does as a whole. -/
theorem digitsBeyond?_eq_none_iff {e : Nat} (he : e ≤ maxExponent) :
    digitsBeyond? e ds = none ↔ Nat.ofDigitChars 10 ds e ≤ maxExponent := by
  induction ds generalizing e with
  | nil => simpa [digitsBeyond?] using he
  | cons d ds ih =>
    have hstep : 10 * e + digitValue d = 10 * e + (d.toNat - '0'.toNat) := rfl
    rw [digitsBeyond?, Nat.ofDigitChars_cons, ← hstep]
    split
    · next hbig =>
      have := le_ofDigitChars ds (10 * e + digitValue d)
      simp
      omega
    · exact ih (by omega)

/-! ## Conversion -/

theorem convert_ofNat (n x : Nat) :
    convert n (.ofNat x) =
      if x ≤ maxPower then binary64.product (binary64.nearest n 1) (power x)
      else if binary64.nearest n 1 = 0 then 0 else binary64.infinity := rfl

theorem convert_zero (n : Nat) : convert n 0 = binary64.nearest n 1 := by
  have hone : binary64.value (power 0) = 1 := by
    have h := binary64.value_nearest_nat (m := 1) (s := 0) (by decide) (Nat.one_le_two_pow)
    simpa [power] using h
  have h := binary64.isNearest_product (binary64.nearest n 1) (power 0)
  rw [hone, mul_one] at h
  rw [show (0 : Int) = .ofNat 0 from rfl, convert_ofNat, if_pos (Nat.zero_le _)]
  exact h.unique (Format.isNearest_value (binary64.nearest_le_infinity n 1))

theorem real_eq_ok_iff {negative : Bool} {magnitude : Nat} {n : Number} :
    real negative magnitude rest = .ok n ↔
      ∃ x finite, n = .real x finite ∧ x.negative = negative ∧ x.magnitude = magnitude := by
  unfold real
  constructor
  · intro h
    split at h
    · obtain rfl := Except.ok.inj h
      exact ⟨_, _, rfl, rfl, rfl⟩
    · exact absurd h (by simp)
  · rintro ⟨x, finite, rfl, rfl, rfl⟩
    have hx : x.magnitude < binary64.infinity := of_decide_eq_true finite
    rw [dif_pos hx]

theorem real_infinity (negative : Bool) (rest : List Char) :
    real negative binary64.infinity rest = .error (.here .numberOutOfRange rest) :=
  dif_neg (Nat.lt_irrefl _)

variable {l : Literal}

theorem natAbs_signed (negative : Bool) (n : Nat) : (signed negative n).natAbs = n := by
  cases negative <;> simp [signed]

theorem signed_neg_iff {negative : Bool} {n : Nat} :
    signed negative n < 0 ↔ negative = true ∧ 0 < n := by
  cases negative <;> simp [signed]

/-- A literal that is not an integer denotes the double of its magnitude. -/
theorem denotes_iff_of_not_isInteger (h : ¬ l.IsInteger) {n : Number} (rest : List Char) :
    l.Denotes n ↔ real l.negative l.magnitude rest = .ok n := by
  rw [real_eq_ok_iff]
  constructor
  · intro hn
    cases hn with
    | integer h' => exact absurd h' h
    | @real x finite _ hs hm => exact ⟨x, finite, rfl, hs, hm⟩
  · rintro ⟨x, finite, rfl, hs, hm⟩
    exact .real h hs hm

/-- Without fraction and exponent, and no digit dropped, the magnitude is that of the digits. -/
theorem magnitude_of_whole (hf : l.fraction = none) (he : l.exponent = none)
    (hd : (absorb 0 l.whole).2 = []) :
    l.magnitude = binary64.nearest (digitsValue l.whole) 1 := by
  have hs : l.significand = digitsValue l.whole := by
    rw [significand, hf]
    exact absorb_fst hd
  have hx : l.shift = 0 := by simp [shift, hf, hd, absorb]
  have hw : l.writtenExponent = 0 := by simp [writtenExponent, he]
  rw [magnitude, hw, if_pos (by simp), hs, hx, add_zero, convert_zero]

theorem whole64_eq_ok_iff (hf : l.fraction = none) (he : l.exponent = none)
    (hd : (absorb 0 l.whole).2 = []) {n : Number} :
    whole64 l.negative (digitsValue l.whole) rest = .ok n ↔ l.Denotes n := by
  unfold whole64
  split
  · next m hm =>
    unfold Number.ofInt? at hm
    split at hm
    · next hrange =>
      obtain rfl := Option.some.inj hm
      split
      · next hzero =>
        have hint : ¬ l.IsInteger := fun h => h.2.2.1 hzero
        have h0 : l.magnitude = 0 := by
          rw [magnitude_of_whole hf he hd, hzero.2]
          exact binary64.nearest_zero Nat.one_pos
        rw [denotes_iff_of_not_isInteger hint rest, h0]
      · next hzero =>
        have hint : l.IsInteger := ⟨hf, he, hzero, hrange⟩
        constructor
        · intro h
          obtain rfl := Except.ok.inj h
          exact .integer hint rfl
        · intro h
          cases h with
          | integer _ hn => subst hn; rfl
          | real h' => exact absurd hint h'
    · exact absurd hm (by simp)
  · next hm =>
    have hint : ¬ l.IsInteger := by
      rintro ⟨-, -, -, hrange⟩
      rw [Number.ofInt?, dif_pos hrange] at hm
      exact absurd hm (by simp)
    rw [denotes_iff_of_not_isInteger hint rest, magnitude_of_whole hf he hd]

/-- An integer of 64 bits loses no digits. -/
theorem absorb_of_isInteger (h : l.IsInteger) : (absorb 0 l.whole).2 = [] := by
  obtain ⟨-, -, -, hlow, hhigh⟩ := h
  by_contra hd
  obtain ⟨kept, -, -, hbig⟩ := absorb_eq (Prod.eta (absorb 0 l.whole)).symm
  have hv : 2 ^ 64 ≤ digitsValue l.whole := hbig hd
  cases hneg : l.negative <;> simp [hneg, signed] at hlow hhigh <;> omega

section

variable {negative : Bool}

/-- The exponent is read to its end, or left at a digit with which it exceeds the largest. -/
theorem natAbs_writtenExponent_le_iff (he : l.exponent = some (negative, ds)) :
    l.writtenExponent.natAbs ≤ maxExponent ↔ digitsBeyond? 0 ds = none := by
  rw [digitsBeyond?_eq_none_iff (Nat.zero_le _), writtenExponent, he]
  dsimp only
  rw [natAbs_signed]
  rfl

theorem magnitude_of_exponent (he : l.exponent = some (negative, ds))
    (hb : digitsBeyond? 0 ds = none) :
    l.magnitude = convert l.significand (l.shift + signed negative (digitsValue ds)) := by
  rw [magnitude, if_pos ((natAbs_writtenExponent_le_iff he).2 hb), writtenExponent, he]

/-- A huge exponent leads to infinity, and to zero if it is negative or the digits are. -/
theorem magnitude_of_digitsBeyond (he : l.exponent = some (negative, ds))
    (hb : digitsBeyond? 0 ds ≠ none) :
    l.magnitude = if negative = true ∨ l.significand = 0 then 0 else binary64.infinity := by
  have hbig : ¬ l.writtenExponent.natAbs ≤ maxExponent :=
    fun hle => hb ((natAbs_writtenExponent_le_iff he).1 hle)
  have hw : l.writtenExponent = signed negative (digitsValue ds) := by simp [writtenExponent, he]
  rw [magnitude, if_neg hbig]
  rw [hw, natAbs_signed] at hbig
  have hpos : 0 < digitsValue ds := by omega
  simp only [hw, signed_neg_iff, hpos, and_true]

end

/-- A literal is converted to the number that it denotes, or there is none. -/
theorem number_eq_ok_iff {n : Number} : l.number rest = .ok n ↔ l.Denotes n := by
  unfold number
  dsimp only
  split
  · next h =>
    obtain ⟨hf, he, hd⟩ := h
    rw [absorb_fst hd]
    exact whole64_eq_ok_iff hf he hd
  · next h =>
    have hint : ¬ l.IsInteger := fun hint => h ⟨hint.1, hint.2.1, absorb_of_isInteger hint⟩
    rw [denotes_iff_of_not_isInteger hint rest]
    split
    · next he =>
      have hw : l.writtenExponent = 0 := by simp [writtenExponent, he]
      rw [magnitude, hw, if_pos (by simp), add_zero]
      rfl
    · next negative ds he =>
      split
      · next hb =>
        rw [magnitude_of_exponent he hb]
        rfl
      · next beyond hb =>
        rw [magnitude_of_digitsBeyond he (by simp [hb])]
        show (if negative = true ∨ l.significand = 0 then _ else _) = _ ↔ _
        split
        · rfl
        · rw [real_infinity]
          simp

end Literal

end LayerSize.Json
