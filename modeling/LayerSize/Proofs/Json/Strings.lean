import Mathlib.Tactic.IntervalCases
import LayerSize.Proofs.Json.Grammar

/-!
# Reading strings

What the reader of quoted strings accepts, against the grammar: an escape or a string is read
exactly when it has the form that the grammar gives it, whatever follows.

* `escape_sound`, `escape_complete`: escapes;
* `quoted_sound`, `quoted_complete`: strings up to the closing quote.
-/

namespace LayerSize.Json

/-! ## Hexadecimal codes -/

/-- A property of the first 128 characters can be checked code by code. -/
theorem ascii_induction {P : Char → Prop} (h : ∀ n < 128, P (Char.ofNat n)) {c : Char}
    (hc : c.toNat < 128) : P c := by
  have hp := h c.toNat hc
  rwa [Char.ofNat_toNat] at hp

theorem lt_of_hexDigit {c : Char} {n : Nat} (h : HexDigit c n) : n < 16 := by
  rcases h with h | h
  · exact (List.getElem?_eq_some_iff.1 h).1
  · exact (List.getElem?_eq_some_iff.1 h).1

theorem ascii_of_hexValue? {c : Char} {n : Nat} (h : hexValue? c = some n) : c.toNat < 128 := by
  have hle : ∀ {d : Char}, c ≤ d → c.toNat ≤ d.toNat := fun hd => hd
  have h9 : '9'.toNat = 57 := rfl
  have hf : 'f'.toNat = 102 := rfl
  have hF : 'F'.toNat = 70 := rfl
  unfold hexValue? at h
  split at h
  · next hd =>
    simp only [Char.isDigit, Bool.and_eq_true, decide_eq_true_eq, UInt32.le_iff_toNat_le] at hd
    have h2 : c.toNat ≤ 57 := hd.2
    omega
  · split at h
    · next hd =>
      have := hle hd.2
      omega
    · split at h
      · next hd =>
        have := hle hd.2
        omega
      · exact absurd h (by simp)

theorem hexValue?_eq_some_iff {c : Char} {n : Nat} : hexValue? c = some n ↔ HexDigit c n := by
  constructor
  · intro h
    exact ascii_induction (P := fun c => ∀ n ∈ hexValue? c, HexDigit c n) (by decide)
      (ascii_of_hexValue? h) n h
  · intro h
    have hn := lt_of_hexDigit h
    rcases h with h | h <;> interval_cases n <;> simp at h <;> subst h <;> rfl

theorem utf8Size_of_hexDigit {c : Char} {n : Nat} (h : HexDigit c n) : c.utf8Size = 1 := by
  have hc := ascii_of_hexValue? (hexValue?_eq_some_iff.2 h)
  rw [Char.utf8Size_eq_one_iff, UInt32.le_iff_toNat_le]
  exact Nat.le_of_lt_succ hc

theorem length_hexCode {h : List Char} {n : Nat} (hh : HexCode h n) : h.length = 4 := by
  cases hh
  rfl

theorem hexCode_complete {h : List Char} {n : Nat} (hh : HexCode h n) (rest : List Char) :
    hexCode (h ++ rest) = .ok n := by
  cases hh with
  | @mk a b c d i j k l ha hb hc hd =>
    have hv := hexValue?_eq_some_iff.2 ha
    have hv' := hexValue?_eq_some_iff.2 hb
    have hv'' := hexValue?_eq_some_iff.2 hc
    have hv''' := hexValue?_eq_some_iff.2 hd
    simp [hexCode, utf8Size_of_hexDigit ha, utf8Size_of_hexDigit hb, utf8Size_of_hexDigit hc,
      utf8Size_of_hexDigit hd, hv, hv', hv'', hv''']
    omega

theorem mapM_hexValue?_cons {c : Char} {cs : List Char} {ds : List Nat} :
    (c :: cs).mapM hexValue? = some ds ↔
      ∃ d ds', HexDigit c d ∧ cs.mapM hexValue? = some ds' ∧ d :: ds' = ds := by
  simp [List.mapM_cons, Option.bind_eq_some_iff, hexValue?_eq_some_iff]

/-- Characters that are read as digits have one byte each, so a code that is cut short has
fewer than four bytes. -/
theorem hexCode_sound {cs : List Char} {n : Nat} (h : hexCode cs = .ok n) :
    ∃ code rest, cs = code ++ rest ∧ HexCode code n := by
  unfold hexCode at h
  split at h
  · exact absurd h (by simp)
  next hbytes =>
  split at h
  · next ds hds =>
    match cs with
    | [] => simp at hbytes
    | [a] =>
      obtain ⟨i, _, hi, -⟩ := mapM_hexValue?_cons.1 hds
      simp [utf8Size_of_hexDigit hi] at hbytes
    | [a, b] =>
      obtain ⟨i, _, hi, hds, -⟩ := mapM_hexValue?_cons.1 hds
      obtain ⟨j, _, hj, -⟩ := mapM_hexValue?_cons.1 hds
      simp [utf8Size_of_hexDigit hi, utf8Size_of_hexDigit hj] at hbytes
    | [a, b, c] =>
      obtain ⟨i, _, hi, hds, -⟩ := mapM_hexValue?_cons.1 hds
      obtain ⟨j, _, hj, hds, -⟩ := mapM_hexValue?_cons.1 hds
      obtain ⟨k, _, hk, -⟩ := mapM_hexValue?_cons.1 hds
      simp [utf8Size_of_hexDigit hi, utf8Size_of_hexDigit hj, utf8Size_of_hexDigit hk] at hbytes
    | a :: b :: c :: d :: rest =>
      obtain ⟨i, _, hi, hbs, rfl⟩ := mapM_hexValue?_cons.1 hds
      obtain ⟨j, _, hj, hcs, rfl⟩ := mapM_hexValue?_cons.1 hbs
      obtain ⟨k, _, hk, hds', rfl⟩ := mapM_hexValue?_cons.1 hcs
      obtain ⟨l, _, hl, hend, rfl⟩ := mapM_hexValue?_cons.1 hds'
      obtain rfl : [] = _ := Option.some.inj hend
      have hn : n = i * 16 ^ 3 + j * 16 ^ 2 + k * 16 + l := by
        have := Except.ok.inj h
        simp only [List.foldl_cons, List.foldl_nil] at this
        omega
      rw [hn]
      exact ⟨[a, b, c, d], rest, rfl, .mk hi hj hk hl⟩
  · exact absurd h (by simp)

theorem lt_of_hexCode {h : List Char} {n : Nat} (hh : HexCode h n) : n < 0x10000 := by
  cases hh with
  | mk ha hb hc hd =>
    have := lt_of_hexDigit ha
    have := lt_of_hexDigit hb
    have := lt_of_hexDigit hc
    have := lt_of_hexDigit hd
    omega

/-! ## Escapes -/

theorem letterEscape?_eq_some_iff {c d : Char} :
    letterEscape? c = some d ↔ (c, d) ∈ letterEscapes := by
  constructor
  · intro h
    unfold letterEscape? at h
    split at h <;> simp at h <;> subst h <;> decide
  · intro h
    simp only [letterEscapes, List.mem_cons, Prod.mk.injEq, List.not_mem_nil, or_false] at h
    rcases h with ⟨rfl, rfl⟩ | ⟨rfl, rfl⟩ | ⟨rfl, rfl⟩ | ⟨rfl, rfl⟩ | ⟨rfl, rfl⟩ | ⟨rfl, rfl⟩ |
      ⟨rfl, rfl⟩ | ⟨rfl, rfl⟩ <;> rfl

/-- No character has the code of a surrogate. -/
theorem toNat_not_surrogate (c : Char) :
    isTrailingSurrogate c.toNat = false ∧ isLeadingSurrogate c.toNat = false := by
  have h := c.valid
  simp only [isTrailingSurrogate, isLeadingSurrogate, Bool.and_eq_false_iff,
    decide_eq_false_iff_not]
  rcases h with h | h
  · have h1 : c.toNat < 0xd800 := h
    omega
  · have h1 : 0xdfff < c.toNat := h.1
    omega

theorem toNat_ofNat {n : Nat} (h : n.isValidChar) : (Char.ofNat n).toNat = n := by
  rw [Char.ofNat, dif_pos h]
  rfl

theorem toNat_surrogatePair {n n' : Nat} (hn : 0xd800 ≤ n ∧ n < 0xdc00)
    (hn' : 0xdc00 ≤ n' ∧ n' < 0xe000) :
    (surrogatePair n n').toNat = 0x10000 + (n - 0xd800) * 0x400 + (n' - 0xdc00) := by
  apply toNat_ofNat
  unfold Nat.isValidChar
  omega

theorem isLeadingSurrogate_iff {n : Nat} :
    isLeadingSurrogate n = true ↔ 0xd800 ≤ n ∧ n < 0xdc00 := by
  simp only [isLeadingSurrogate, Bool.and_eq_true, decide_eq_true_eq]
  omega

theorem isTrailingSurrogate_iff {n : Nat} :
    isTrailingSurrogate n = true ↔ 0xdc00 ≤ n ∧ n < 0xe000 := by
  simp only [isTrailingSurrogate, Bool.and_eq_true, decide_eq_true_eq]
  omega

theorem surrogateEscape_eq_ok_iff {cs rest : List Char} :
    surrogateEscape cs = .ok rest ↔ cs = '\\' :: 'u' :: rest := by
  unfold surrogateEscape
  split <;> simp_all

/-- The letter `u` starts a code and stands for nothing itself. -/
theorem not_mem_letterEscapes (c : Char) : ('u', c) ∉ letterEscapes := by
  simp [letterEscapes]

theorem unicodeEscape_complete {e : List Char} {c : Char} (h : EscapeText ('u' :: e) c)
    (rest : List Char) : unicodeEscape (e ++ rest) = .ok (c, e.length) := by
  cases h with
  | letter h => exact absurd h (not_mem_letterEscapes c)
  | code h =>
    obtain ⟨ht, hl⟩ := toNat_not_surrogate c
    rw [unicodeEscape, hexCode_complete h, length_hexCode h]
    simp [ht, hl, bind, Except.bind, pure, Except.pure]
  | @pair h h' n n' _ hh hh' hn hn' hd =>
    have ht : isTrailingSurrogate n = false := by
      rw [← Bool.not_eq_true, isTrailingSurrogate_iff]
      omega
    have hl : isLeadingSurrogate n = true := isLeadingSurrogate_iff.2 hn
    have ht' : isTrailingSurrogate n' = true := isTrailingSurrogate_iff.2 hn'
    have hdrop : (h ++ '\\' :: 'u' :: h' ++ rest).drop 4 = '\\' :: 'u' :: (h' ++ rest) := by
      rw [List.append_assoc, ← length_hexCode hh, List.drop_left]
      rfl
    have hc : surrogatePair n n' = c := by
      rw [← Char.toNat_inj, toNat_surrogatePair hn hn', hd]
    have hlen : (h ++ '\\' :: 'u' :: h').length = 10 := by
      simp [length_hexCode hh, length_hexCode hh']
    rw [unicodeEscape, hdrop, hlen, List.append_assoc, hexCode_complete hh]
    simp [ht, hl, ht', hc, surrogateEscape, hexCode_complete hh', bind, Except.bind, pure,
      Except.pure]

theorem unicodeEscape_sound {cs : List Char} {c : Char} {n : Nat}
    (h : unicodeEscape cs = .ok (c, n)) :
    ∃ e rest, cs = e ++ rest ∧ e.length = n ∧ EscapeText ('u' :: e) c := by
  unfold unicodeEscape at h
  obtain ⟨code, hcode, h⟩ := bind_eq_ok_iff.1 h
  obtain ⟨e, rest, rfl, he⟩ := hexCode_sound hcode
  have hdrop : (e ++ rest).drop 4 = rest := by rw [← length_hexCode he, List.drop_left]
  simp only [hdrop] at h
  split at h
  · exact absurd h (by simp [throw, throwThe, MonadExceptOf.throw])
  next ht =>
  split at h
  · next hl =>
    obtain ⟨rest', hrest', h⟩ := bind_eq_ok_iff.1 h
    obtain ⟨code', hcode', h⟩ := bind_eq_ok_iff.1 h
    obtain ⟨e', rest'', rfl, he'⟩ := hexCode_sound hcode'
    rw [surrogateEscape_eq_ok_iff] at hrest'
    split at h
    · next ht' =>
      obtain ⟨rfl, rfl⟩ : surrogatePair code code' = c ∧ 10 = n := by
        simpa [pure, Except.pure] using h
      have hn := isLeadingSurrogate_iff.1 hl
      have hn' := isTrailingSurrogate_iff.1 ht'
      refine ⟨e ++ '\\' :: 'u' :: e', rest'', by simp [hrest'], ?_, ?_⟩
      · simp [length_hexCode he, length_hexCode he']
      · exact .pair he he' hn hn' (toNat_surrogatePair hn hn')
    · exact absurd h (by simp [throw, throwThe, MonadExceptOf.throw])
  · next hl =>
    obtain ⟨rfl, rfl⟩ : Char.ofNat code = c ∧ 4 = n := by simpa [pure, Except.pure] using h
    refine ⟨e, rest, rfl, length_hexCode he, .code ?_⟩
    rw [isTrailingSurrogate_iff] at ht
    rw [isLeadingSurrogate_iff] at hl
    rwa [toNat_ofNat (by have := lt_of_hexCode he; unfold Nat.isValidChar; omega)]

theorem escape_complete {e : List Char} {c : Char} (h : EscapeText e c) (rest : List Char) :
    escape (e ++ rest) = .ok (c, e.length) := by
  have hu : ∀ {e' : List Char}, EscapeText ('u' :: e') c →
      escape ('u' :: e' ++ rest) = .ok (c, e'.length + 1) := by
    intro e' h
    rw [List.cons_append, escape, unicodeEscape_complete h]
    rfl
  cases h with
  | @letter d _ h =>
    have hd : d ≠ 'u' := by
      rintro rfl
      exact not_mem_letterEscapes c h
    rw [List.singleton_append, escape, letterEscape?_eq_some_iff.2 h]
    · rfl
    · exact hd
  | code h => exact hu (.code h)
  | pair hl ht hn hn' hd => exact hu (.pair hl ht hn hn' hd)

theorem escape_sound {cs : List Char} {c : Char} {n : Nat} (h : escape cs = .ok (c, n)) :
    ∃ e rest, cs = e ++ rest ∧ e.length = n ∧ EscapeText e c := by
  unfold escape at h
  split at h
  · exact absurd h (by simp)
  · next cs =>
    obtain ⟨⟨d, m⟩, hd, h⟩ := bind_eq_ok_iff.1 h
    obtain ⟨rfl, rfl⟩ : d = c ∧ m + 1 = n := by simpa [pure, Except.pure] using h
    obtain ⟨e, rest, rfl, rfl, he⟩ := unicodeEscape_sound hd
    exact ⟨'u' :: e, rest, rfl, rfl, he⟩
  · next d cs hd =>
    split at h
    · next d' hd' =>
      obtain ⟨rfl, rfl⟩ : d' = c ∧ 1 = n := by simpa using h
      exact ⟨[d], cs, rfl, rfl, .letter (letterEscape?_eq_some_iff.1 hd')⟩
    · exact absurd h (by simp)

/-! ## Strings -/

theorem quoted_append (skipped cs : List Char) :
    quoted skipped.length (skipped ++ cs) = quoted 0 cs := by
  induction skipped with
  | nil => rfl
  | cons c skipped ih => rw [List.length_cons, List.cons_append, quoted, ih]

theorem quoted_backslash (cs : List Char) :
    quoted 0 ('\\' :: cs) = do
      let (c, n) ← escape cs
      let (s, rest) ← quoted n cs
      return (c :: s, rest) := rfl

theorem quoted_cons {c : Char} (hq : c ≠ '"') (hb : c ≠ '\\') (cs : List Char) :
    quoted 0 (c :: cs) =
      if isControl c then .error (.next .controlCharacter (c :: cs))
      else do
        let (s, rest) ← quoted 0 cs
        return (c :: s, rest) := by
  rw [quoted]
  · exact hq
  · exact hb

theorem isControl_iff {c : Char} : isControl c = true ↔ c.toNat < 0x20 := by
  simp [isControl]

theorem quoted_complete {t s : List Char} (h : QuotedText t s) (rest : List Char) :
    quoted 0 (t ++ '"' :: rest) = .ok (s, rest) := by
  induction h with
  | nil => rfl
  | @plain c t s hq hb hc h ih =>
    have hn : ¬ isControl c = true := by
      rw [isControl_iff]
      omega
    rw [List.cons_append, quoted_cons hq hb, if_neg hn, ih]
    rfl
  | @escaped e t s c he h ih =>
    rw [List.cons_append, quoted_backslash, List.append_assoc, escape_complete he]
    show (quoted e.length (e ++ (t ++ '"' :: rest)) >>= _) = _
    rw [quoted_append, ih]
    rfl

/-- The first argument counts characters of an escape, which belong to no string text. -/
theorem quoted_sound {n : Nat} {cs s rest : List Char} (h : quoted n cs = .ok (s, rest)) :
    ∃ skipped t, cs = skipped ++ (t ++ '"' :: rest) ∧ skipped.length = n ∧ QuotedText t s := by
  induction cs generalizing n s with
  | nil => cases n <;> exact absurd h (by simp [quoted])
  | cons c cs ih =>
    cases n with
    | succ n =>
      obtain ⟨skipped, t, rfl, rfl, ht⟩ := ih h
      exact ⟨c :: skipped, t, rfl, rfl, ht⟩
    | zero =>
      by_cases hq : c = '"'
      · subst hq
        obtain ⟨rfl, rfl⟩ : [] = s ∧ cs = rest := by simpa [quoted] using h
        exact ⟨[], [], rfl, rfl, .nil⟩
      · by_cases hb : c = '\\'
        · subst hb
          rw [quoted_backslash] at h
          obtain ⟨⟨d, n⟩, hd, h⟩ := bind_eq_ok_iff.1 h
          obtain ⟨⟨s', rest'⟩, hs, h⟩ := bind_eq_ok_iff.1 h
          obtain ⟨rfl, rfl⟩ : d :: s' = s ∧ rest' = rest := by simpa [pure, Except.pure] using h
          obtain ⟨e, more, rfl, rfl, he⟩ := escape_sound hd
          obtain ⟨skipped, t, hsplit, hlen, ht⟩ := ih hs
          obtain ⟨rfl, rfl⟩ := List.append_inj hsplit hlen.symm
          exact ⟨[], '\\' :: (e ++ t), by simp, rfl, .escaped he ht⟩
        · rw [quoted_cons hq hb] at h
          split at h
          · exact absurd h (by simp)
          · next hc =>
            obtain ⟨⟨s', rest'⟩, hs, h⟩ := bind_eq_ok_iff.1 h
            obtain ⟨rfl, rfl⟩ : c :: s' = s ∧ rest' = rest := by simpa [pure, Except.pure] using h
            obtain ⟨skipped, t, rfl, hlen, ht⟩ := ih hs
            obtain rfl : skipped = [] := List.eq_nil_of_length_eq_zero hlen
            rw [isControl_iff] at hc
            exact ⟨[], c :: t, rfl, rfl, .plain hq hb (by omega) ht⟩

/-- Characters that need no escapes denote themselves. -/
theorem quotedText_self {s : List Char} (hs : ∀ c ∈ s, c ≠ '"' ∧ c ≠ '\\' ∧ 0x20 ≤ c.toNat) :
    QuotedText s s := by
  induction s with
  | nil => exact .nil
  | cons c s ih =>
    obtain ⟨hq, hb, hc⟩ := hs c (List.mem_cons_self ..)
    exact .plain hq hb hc (ih fun d hd => hs d (List.mem_cons_of_mem _ hd))

/-- A string is read from after its first quote to after its last. -/
theorem string_eq_ok_iff {cs rest : List Char} {s : String} :
    string cs = .ok (s, rest) ↔
      ∃ t s', cs = t ++ '"' :: rest ∧ s = String.ofList s' ∧ QuotedText t s' := by
  constructor
  · intro h
    obtain ⟨⟨s', rest'⟩, hs, h⟩ := bind_eq_ok_iff.1 h
    obtain ⟨rfl, rfl⟩ : String.ofList s' = s ∧ rest' = rest := by
      simpa [pure, Except.pure] using h
    obtain ⟨skipped, t, rfl, hlen, ht⟩ := quoted_sound hs
    obtain rfl : skipped = [] := List.eq_nil_of_length_eq_zero hlen
    exact ⟨t, s', rfl, rfl, ht⟩
  · rintro ⟨t, s', rfl, rfl, ht⟩
    rw [string, quoted_complete ht]
    rfl

end LayerSize.Json
