import LayerSize.Proofs.Json.Overflow
import LayerSize.Proofs.Json.Prompt

/-!
# Numbers are read promptly

The parts of a literal end at the first character that does not go on with them.  The literal
is then converted, wherever it stands; only at the end of the text it may go on.

* `promptAt_scan`: literals;
* `promptAt_readNumber`: numbers, with the one fault that is not settled when it is reported.
-/

namespace LayerSize.Json.Literal

open Text (Agree Alike)

variable {c d : Char} {cs rest : List Char} {l : Literal}

/-! ## Characters -/

theorem isDigit_of_alike (h : Alike c d) : d.isDigit = c.isDigit := by
  refine h.congr (a := false) ?_
  intro c hc
  cases hdigit : c.isDigit with
  | false => rfl
  | true =>
    simp only [Char.isDigit, Bool.and_eq_true, decide_eq_true_eq, UInt32.le_iff_toNat_le] at hdigit
    have h2 : c.toNat ≤ 57 := hdigit.2
    omega

/-! ## Parts of a literal -/

theorem promptAt_digitRun (cs : List Char) :
    PromptAt (digitRun (missingDigit .endOfValue)) cs := by
  cases hrun : digitRun (missingDigit .endOfValue) cs with
  | ok read =>
    obtain ⟨ds, rest⟩ := read
    obtain ⟨rfl, hds, hrest⟩ := digitRun_eq_ok_iff.1 hrun
    constructor
    · intro ds' rest' hok
      rw [hrun] at hok
      cases hok
      refine ⟨ds, rfl, ?_⟩
      rintro _ ⟨c, r, d, r', rfl, rfl, halike⟩
      refine digitRun_eq_ok_iff.2 ⟨rfl, hds, ?_⟩
      intro d' hd'
      obtain rfl : d = d' := Option.some.inj hd'
      rw [isDigit_of_alike halike]
      exact hrest c rfl
    · intro fault herror
      rw [hrun] at herror
      cases herror
  | error fault =>
    cases cs with
    | nil => exact promptAt_end rfl rfl
    | cons c cs =>
      have hno : ∀ {d : Char} (r : List Char), d.isDigit = false →
          digitRun (missingDigit .endOfValue) (d :: r) = .error (.next .invalidNumber (d :: r)) := by
        intro d r hd
        simp [digitRun, Numeral.digitRun, hd, missingDigit]
      cases hc : c.isDigit with
      | false =>
        refine promptAt_unexpected .invalidNumber ?_ cs
        intro d r halike
        exact hno r (by rw [isDigit_of_alike halike, hc])
      | true => simp [digitRun, Numeral.digitRun, hc] at hrun

theorem promptAt_scanWhole (cs : List Char) : PromptAt (scanWhole .endOfValue) cs := by
  cases cs with
  | nil => exact promptAt_end rfl rfl
  | cons c cs =>
    by_cases hc : c = '0'
    · subst hc
      cases cs with
      | nil => exact promptAt_of_eq_ok_nil rfl
      | cons c cs =>
        refine .cons _ ?_
        cases hc : c.isDigit with
        | true =>
          refine promptAt_unexpected .invalidNumber ?_ cs
          intro d r halike
          rw [scanWhole, if_pos (by rw [isDigit_of_alike halike, hc])]
        | false =>
          refine promptAt_absent (a := ['0']) ?_ cs
          intro d r halike
          rw [scanWhole, if_neg (by rw [isDigit_of_alike halike, hc]; simp)]
    · refine PromptAt.congr ?_ (promptAt_digitRun (c :: cs))
      intro d r halike
      have hd : d ≠ '0' := halike.ne hc (by decide)
      exact scanWhole_of_ne_zero (by simpa using hd)

theorem promptAt_scanFraction (cs : List Char) : PromptAt (scanFraction .endOfValue) cs := by
  cases cs with
  | nil => exact promptAt_of_eq_ok_nil rfl
  | cons c cs =>
    by_cases hc : c = '.'
    · subst hc
      exact .cons _ ((promptAt_digitRun cs).map some)
    · refine promptAt_absent (a := none) ?_ cs
      intro d r halike
      have hd : d ≠ '.' := halike.ne hc (by decide)
      exact scanFraction_of_ne (by simpa using hd)

/-- The digits of an exponent, after its sign. -/
theorem promptAt_sign (cs : List Char) :
    PromptAt (fun cs => digitRun (missingDigit .endOfValue) (Numeral.sign cs).2 >>= fun x =>
      .ok (some ((Numeral.sign cs).1, x.1), x.2)) cs := by
  cases cs with
  | nil => exact promptAt_end rfl rfl
  | cons c cs =>
    by_cases hminus : c = '-'
    · subst hminus
      exact .cons _ ((promptAt_digitRun cs).map fun ds => some (true, ds))
    · by_cases hplus : c = '+'
      · subst hplus
        exact .cons _ ((promptAt_digitRun cs).map fun ds => some (false, ds))
      · refine PromptAt.congr ?_ ((promptAt_digitRun (c :: cs)).map fun ds => some (false, ds))
        intro d r halike
        have hsign : Numeral.sign (d :: r) = (false, d :: r) := by
          have hminus' : d ≠ '-' := halike.ne hminus (by decide)
          have hplus' : d ≠ '+' := halike.ne hplus (by decide)
          unfold Numeral.sign
          split <;> simp_all
        rw [hsign]

theorem promptAt_scanExponent (cs : List Char) : PromptAt (scanExponent .endOfValue) cs := by
  cases cs with
  | nil => exact promptAt_of_eq_ok_nil rfl
  | cons c cs =>
    by_cases hc : c = 'e' ∨ c = 'E'
    · refine .cons _ ?_
      simp only [scanExponent, if_pos hc]
      exact promptAt_sign cs
    · refine promptAt_absent (a := none) ?_ cs
      intro d r halike
      have hd : ¬ (d = 'e' ∨ d = 'E') := by
        rw [not_or] at hc ⊢
        exact ⟨halike.ne hc.1 (by decide), halike.ne hc.2 (by decide)⟩
      rw [scanExponent, if_neg hd]

/-! ## Literals -/

/-- The parts of a literal after its sign. -/
def scanParts (negative : Bool) (cs : List Char) : Reads (Literal × List Char) := do
  let (whole, cs) ← scanWhole .endOfValue cs
  let (fraction, cs) ← scanFraction .endOfValue cs
  let (exponent, cs) ← scanExponent .endOfValue cs
  return (⟨negative, whole, fraction, exponent⟩, cs)

theorem promptAt_scanParts (negative : Bool) (cs : List Char) :
    PromptAt (scanParts negative) cs := by
  refine (promptAt_scanWhole cs).bind ?_
  intro whole cs _
  refine (promptAt_scanFraction cs).bind ?_
  intro fraction cs _
  exact (promptAt_scanExponent cs).map fun exponent => Literal.mk negative whole fraction exponent

theorem promptAt_scan (cs : List Char) : PromptAt (scan .endOfValue) cs := by
  cases cs with
  | nil => exact promptAt_end rfl rfl
  | cons c cs =>
    by_cases hc : c = '-'
    · subst hc
      exact .cons _ (promptAt_scanParts true cs)
    · refine PromptAt.congr ?_ (promptAt_scanParts false (c :: cs))
      intro d r halike
      have hd : d ≠ '-' := halike.ne hc (by decide)
      exact scan_sign false fun _ => by simpa using hd

/-- A text that is a literal to its end is the start of any other literal. -/
theorem exists_append_of_scan {l' : Literal} {u rest' : List Char}
    (h : scan .endOfValue cs = .ok (l, [])) (h' : scan .endOfValue (cs ++ u) = .ok (l', rest')) :
    ∃ w', u = w' ++ rest' ∧ LiteralText (cs ++ w') l' := by
  obtain ⟨t, htext, ht⟩ := scan_sound h'
  obtain ⟨taken, htaken, hsame⟩ := (promptAt_scan (cs ++ u)).ok h'
  obtain rfl : t = taken := List.append_cancel_right (htext.symm.trans htaken)
  rcases List.append_eq_append_iff.1 htext with ⟨w', rfl, rfl⟩ | ⟨more, rfl, rfl⟩
  · exact ⟨w', rfl, ht⟩
  · cases more with
    | nil => exact ⟨[], rfl, by simpa using ht⟩
    | cons c more =>
      have hscan := hsame (c :: more) ⟨c, _, c, _, rfl, rfl, .refl c⟩
      rw [h] at hscan
      cases hscan

/-! ## Numbers -/

/-- A number, and the text after it. -/
def readNumber (cs : List Char) : Reads (Value × List Char) := do
  let (l, rest) ← scan .endOfValue cs
  let n ← l.number rest
  return (.number n, rest)

theorem real_error_cause {negative : Bool} {magnitude : Nat} {fault : Fault Cause}
    (h : real negative magnitude rest = .error fault) : fault.cause = .numberOutOfRange := by
  unfold real at h
  split at h
  · cases h
  · cases h
    rfl

/-- A literal that is no number is too large. -/
theorem number_error_cause {fault : Fault Cause} (h : l.number rest = .error fault) :
    fault.cause = .numberOutOfRange := by
  unfold number whole64 at h
  dsimp only at h
  split at h
  · split at h
    · split at h
      · exact real_error_cause h
      · cases h
    · exact real_error_cause h
  · split at h
    · exact real_error_cause h
    · split at h
      · exact real_error_cause h
      · split at h
        · exact real_error_cause h
        · cases h
          rfl

/-- The text after a literal does not change the number. -/
theorem promptAt_number (l : Literal) (hne : cs ≠ []) :
    PromptAt (fun cs => l.number cs >>= fun n => .ok (Value.number n, cs)) cs := by
  by_cases hdenotes : ∃ n, l.Denotes n
  · obtain ⟨n, hn⟩ := hdenotes
    have heq : (fun cs => l.number cs >>= fun n => .ok (Value.number n, cs)) =
        fun cs => (.ok (.number n, cs) : Reads (Value × List Char)) := by
      funext cs
      rw [number_eq_ok_iff.2 hn]
      rfl
    rw [heq]
    exact promptAt_ok _ cs
  · have hno : ∀ {cs v rest}, (l.number cs >>= fun n => .ok (Value.number n, cs)) ≠ .ok (v, rest) := by
      intro cs v rest hok
      obtain ⟨n, hn, -⟩ := bind_eq_ok_iff.1 hok
      exact hdenotes ⟨n, number_eq_ok_iff.1 hn⟩
    cases hnumber : l.number cs with
    | ok n => exact absurd ⟨n, number_eq_ok_iff.1 hnumber⟩ hdenotes
    | error fault =>
      refine CutShort.promptAt ⟨hne, fun u v rest hok => absurd hok hno⟩ ?_
        (number_error_cause hnumber)
      rw [hnumber]
      rfl

/-- A number at the end of the text is too large for now. -/
theorem cutShort_readNumber (h : scan .endOfValue cs = .ok (l, []))
    (hl : ¬ ∃ n, l.Denotes n) : CutShort readNumber cs := by
  obtain ⟨t, rfl, ht⟩ := scan_sound h
  rw [List.append_nil] at h ⊢
  refine ⟨?_, ?_⟩
  · rintro rfl
    cases h
  · intro u v rest hok
    obtain ⟨⟨l', rest'⟩, hscan, hnumber⟩ := bind_eq_ok_iff.1 hok
    obtain ⟨n, hn, heq⟩ := bind_eq_ok_iff.1 hnumber
    cases heq
    obtain ⟨w', rfl, ht'⟩ := exists_append_of_scan h hscan
    have hl' : ∃ n, l'.Denotes n := ⟨n, number_eq_ok_iff.1 hn⟩
    obtain ⟨ds, hds⟩ := exponent_of_denotes ht ht' hl hl'
    exact ⟨[], t, w', rest, l, l', ds, rfl, rfl, ht, hl, ht', hl', hds⟩

theorem promptAt_readNumber (cs : List Char) : PromptAt readNumber cs := by
  cases hscan : scan .endOfValue cs with
  | error fault =>
    refine (promptAt_scan cs).bind ?_
    intro l rest h
    rw [hscan] at h
    cases h
  | ok read =>
    obtain ⟨l, rest⟩ := read
    by_cases hrest : rest = []
    · subst hrest
      have hread : readNumber cs = l.number [] >>= fun n => .ok (.number n, []) := by
        rw [readNumber, hscan]
        rfl
      cases hnumber : l.number [] with
      | ok n => exact promptAt_of_eq_ok_nil (by rw [hread, hnumber]; rfl)
      | error fault =>
        have hl : ¬ ∃ n, l.Denotes n := by
          rintro ⟨n, hn⟩
          rw [number_eq_ok_iff.2 hn] at hnumber
          cases hnumber
        refine (cutShort_readNumber hscan hl).promptAt ?_ (number_error_cause hnumber)
        rw [hread, hnumber]
        rfl
    · refine (promptAt_scan cs).bind ?_
      intro l' rest' h
      rw [hscan] at h
      cases h
      exact promptAt_number l hrest

end LayerSize.Json.Literal
