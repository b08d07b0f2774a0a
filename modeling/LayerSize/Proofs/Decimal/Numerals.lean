import LayerSize.Proofs.Decimal.ReadBack
import LayerSize.Proofs.Json.Literals
import LayerSize.Text.WhiteSpace

/-!
# Numerals and the white space around them

Which texts are numerals, and the exact decimal that each of them denotes, said without reading
anything; and what is left of a text without the white space at its ends.

* `NumeralText`, `ofText?_eq_some_iff`: the texts that are read as numerals;
* `Trimmed`, `trim_eq_iff`: texts without the white space around them.
-/

namespace LayerSize

open Json (Digits ExponentText NoDigit)

/-! ## The grammar of numerals -/

/-- A sign, with whether it is a minus. -/
inductive SignText : List Char → Bool → Prop where
  | absent : SignText [] false
  | plus : SignText ['+'] false
  | minus : SignText ['-'] true

/-- Digits, at least one, with at most one point anywhere among them: the digits before the
point and those after it. -/
inductive MantissaText : List Char → List Char → List Char → Prop where
  | whole {ds : List Char} (h : Digits ds) : MantissaText ds ds []
  | point {ds fs : List Char} (h : Digits ds) (hf : ∀ f ∈ fs, f.isDigit = true) :
      MantissaText (ds ++ '.' :: fs) ds fs
  | fraction {fs : List Char} (h : Digits fs) : MantissaText ('.' :: fs) [] fs

/-- The exponent that is written, zero if none is. -/
def exponentValue : Option (Bool × List Char) → Int
  | none => 0
  | some (negative, ds) => signed negative (digitsValue ds)

/-- A sign, digits and an exponent.  All digits together are the coefficient, and those after the
point lower the exponent. -/
inductive NumeralText : List Char → Numeral → Prop where
  | mk {s m e whole fraction : List Char} {negative : Bool} {exponent : Option (Bool × List Char)}
      (hs : SignText s negative) (hm : MantissaText m whole fraction)
      (he : ExponentText e exponent) :
      NumeralText (s ++ (m ++ e))
        ⟨negative, ⟨digitsValue (whole ++ fraction), exponentValue exponent - fraction.length⟩⟩

/-! ## Reading numerals -/

namespace Numeral

variable {cs rest t : List Char}

theorem exponent?_sound {x : Int} (h : exponent? cs = some x) :
    ∃ exponent, ExponentText cs exponent ∧ exponentValue exponent = x := by
  unfold exponent? at h
  split at h
  · cases h
    exact ⟨none, .absent, rfl⟩
  · next e cs =>
    split at h
    · next he =>
      obtain ⟨negative, ds, hsign⟩ : ∃ negative ds, sign cs = (negative, ds) := ⟨_, _, rfl⟩
      rw [hsign] at h
      dsimp only at h
      split at h
      · next hds =>
        cases h
        have hdigits : Digits ds := ⟨hds.1, List.all_eq_true.1 hds.2⟩
        refine ⟨some (negative, ds), ?_, rfl⟩
        rcases Json.Literal.sign_eq hsign with ⟨rfl, rfl⟩ | ⟨rfl, rfl | rfl⟩
        · exact .minus he hdigits
        · exact .plus he hdigits
        · exact .unsigned he hdigits
      · cases h
    · cases h

theorem exponent?_complete {exponent : Option (Bool × List Char)} (h : ExponentText cs exponent) :
    exponent? cs = some (exponentValue exponent) := by
  have hall : ∀ {ds : List Char}, Digits ds → ds ≠ [] ∧ ds.all Char.isDigit = true := fun hd =>
    ⟨hd.1, List.all_eq_true.2 hd.2⟩
  cases h with
  | absent => rfl
  | @unsigned e ds he hd =>
    have hsign := Json.Literal.sign_append hd []
    rw [List.append_nil] at hsign
    rw [exponent?, if_pos he, hsign]
    exact if_pos (hall hd)
  | plus he hd | minus he hd =>
    rw [exponent?, if_pos he]
    exact if_pos (hall hd)

/-- The numeral of the digits before and after a point, where there is a digit, from the exponent
that the rest of the text is. -/
def ofParts? (negative : Bool) (whole fraction rest : List Char) : Option Numeral :=
  if whole = [] ∧ fraction = [] then none
  else (exponent? rest).map fun e =>
    ⟨negative, ⟨digitsValue (whole ++ fraction), e - fraction.length⟩⟩

theorem ofParts?_eq_some_iff {negative : Bool} {whole fraction : List Char} {n : Numeral} :
    ofParts? negative whole fraction rest = some n ↔ ¬ (whole = [] ∧ fraction = []) ∧
      ∃ exponent, ExponentText rest exponent ∧
        n = ⟨negative, ⟨digitsValue (whole ++ fraction),
          exponentValue exponent - fraction.length⟩⟩ := by
  unfold ofParts?
  constructor
  · intro h
    split at h
    · cases h
    · next hdigit =>
      obtain ⟨e, he, rfl⟩ := Option.map_eq_some_iff.1 h
      obtain ⟨exponent, hexponent, rfl⟩ := exponent?_sound he
      exact ⟨hdigit, exponent, hexponent, rfl⟩
  · rintro ⟨hdigit, exponent, hexponent, rfl⟩
    rw [if_neg hdigit, exponent?_complete hexponent]
    rfl

section

variable {negative : Bool} {ds fs : List Char} (hsign : sign cs = (negative, t))

include hsign

theorem ofText?_of_point {t' : List Char} (hrun : digitRun t = (ds, '.' :: t'))
    (hrun' : digitRun t' = (fs, rest)) : ofText? cs = ofParts? negative ds fs rest := by
  simp only [ofText?, hsign, hrun, hrun']
  rfl

theorem ofText?_of_noPoint (hrun : digitRun t = (ds, rest)) (h : rest.head? ≠ some '.') :
    ofText? cs = ofParts? negative ds [] rest := by
  simp only [ofText?, hsign, hrun]
  split
  · exact absurd rfl h
  · rfl

end

theorem signText_of_sign {negative : Bool} (h : sign cs = (negative, t)) :
    ∃ s, cs = s ++ t ∧ SignText s negative := by
  rcases Json.Literal.sign_eq h with ⟨rfl, rfl⟩ | ⟨rfl, rfl | rfl⟩
  · exact ⟨['-'], rfl, .minus⟩
  · exact ⟨['+'], rfl, .plus⟩
  · exact ⟨[], rfl, .absent⟩

/-- Neither a digit nor a point is a sign. -/
theorem sign_mantissa {s m whole fraction : List Char} {negative : Bool} (hs : SignText s negative)
    (hm : MantissaText m whole fraction) (rest : List Char) :
    sign (s ++ (m ++ rest)) = (negative, m ++ rest) := by
  cases hs with
  | plus | minus => rfl
  | absent =>
    cases hm with
    | whole h => exact Json.Literal.sign_append h rest
    | point h =>
      rw [List.append_assoc]
      exact Json.Literal.sign_append h _
    | fraction => rfl

theorem mantissaText_point {ds fs : List Char} (hds : ∀ d ∈ ds, d.isDigit = true)
    (hfs : ∀ f ∈ fs, f.isDigit = true) (hdigit : ¬ (ds = [] ∧ fs = [])) :
    MantissaText (ds ++ '.' :: fs) ds fs := by
  by_cases h : ds = []
  · rw [h] at hdigit ⊢
    exact .fraction ⟨fun hnil => hdigit ⟨rfl, hnil⟩, hfs⟩
  · exact .point ⟨h, hds⟩ hfs

theorem ofText?_sound {n : Numeral} (h : ofText? t = some n) : NumeralText t n := by
  obtain ⟨negative, cs, hsign⟩ : ∃ negative cs, sign t = (negative, cs) := ⟨_, _, rfl⟩
  obtain ⟨ds, cs', hrun⟩ : ∃ ds cs', digitRun cs = (ds, cs') := ⟨_, _, rfl⟩
  obtain ⟨s, rfl, hs⟩ := signText_of_sign hsign
  obtain ⟨rfl, hds, -⟩ := Json.digitRun_eq hrun
  by_cases hpoint : cs'.head? = some '.'
  · obtain ⟨cs', rfl⟩ := List.head?_eq_some_iff.1 hpoint
    obtain ⟨fs, rest, hrun'⟩ : ∃ fs rest, digitRun cs' = (fs, rest) := ⟨_, _, rfl⟩
    rw [ofText?_of_point hsign hrun hrun'] at h
    obtain ⟨hdigit, exponent, he, rfl⟩ := ofParts?_eq_some_iff.1 h
    obtain ⟨rfl, hfs, -⟩ := Json.digitRun_eq hrun'
    have hm := mantissaText_point hds hfs hdigit
    simpa using NumeralText.mk hs hm he
  · rw [ofText?_of_noPoint hsign hrun hpoint] at h
    obtain ⟨hdigit, exponent, he, rfl⟩ := ofParts?_eq_some_iff.1 h
    have hne : ds ≠ [] := fun hnil => hdigit ⟨hnil, rfl⟩
    exact .mk hs (.whole ⟨hne, hds⟩) he

theorem ofText?_complete {n : Numeral} (h : NumeralText t n) : ofText? t = some n := by
  cases h with
  | @mk s m e whole fraction negative exponent hs hm he =>
    have hsign := sign_mantissa hs hm e
    have hstarts : NoDigit (e ++ []) ∧ (e ++ []).head? ≠ some '.' :=
      Json.Literal.exponent_starts he fun c hc => by cases hc
    rw [List.append_nil] at hstarts
    obtain ⟨hdigit, hpoint⟩ := hstarts
    have hnoDigit : ∀ rest : List Char, NoDigit ('.' :: rest) := by simp [NoDigit]
    cases hm with
    | whole h =>
      rw [ofText?_of_noPoint hsign (Json.digitRun_append h.2 hdigit) hpoint, ofParts?_eq_some_iff]
      exact ⟨fun hnil => h.1 hnil.1, exponent, he, rfl⟩
    | point h hf =>
      rw [List.append_assoc, List.cons_append] at hsign
      rw [List.append_assoc, List.cons_append, ofText?_of_point hsign
        (Json.digitRun_append h.2 (hnoDigit _)) (Json.digitRun_append hf hdigit),
        ofParts?_eq_some_iff]
      exact ⟨fun hnil => h.1 hnil.1, exponent, he, rfl⟩
    | fraction h =>
      have hrun : digitRun ('.' :: (fraction ++ e)) = ([], '.' :: (fraction ++ e)) := rfl
      rw [ofText?_of_point hsign hrun (Json.digitRun_append h.2 hdigit), ofParts?_eq_some_iff]
      exact ⟨fun hnil => h.1 hnil.2, exponent, he, rfl⟩

/-- The texts that are read as numerals are those of the grammar. -/
theorem ofText?_eq_some_iff {n : Numeral} : ofText? t = some n ↔ NumeralText t n :=
  ⟨ofText?_sound, ofText?_complete⟩

end Numeral

/-! ## White space at the ends -/

namespace Text

variable {s t : List Char}

/-- The text stands in the other one with white space around it, and neither starts nor ends with
white space itself. -/
def Trimmed (s t : List Char) : Prop :=
  ∃ a b, s = a ++ (t ++ b) ∧ (∀ c ∈ a, isWhiteSpace c = true) ∧ (∀ c ∈ b, isWhiteSpace c = true) ∧
    (∀ c ∈ t.head?, isWhiteSpace c = false) ∧ ∀ c ∈ t.getLast?, isWhiteSpace c = false

theorem dropWhile_eq_self {cs : List Char} (h : ∀ c ∈ cs.head?, isWhiteSpace c = false) :
    cs.dropWhile isWhiteSpace = cs := by
  cases cs with
  | nil => rfl
  | cons c cs => simp [h c rfl]

theorem head?_dropWhile (cs : List Char) :
    ∀ c ∈ (cs.dropWhile isWhiteSpace).head?, isWhiteSpace c = false := by
  intro c hc
  have h := List.head?_dropWhile_not isWhiteSpace cs
  rw [Option.mem_def] at hc
  simpa [hc] using h

theorem trimmed_trim (s : List Char) : Trimmed s (trim s) := by
  obtain ⟨cs, hcs⟩ : ∃ cs, s.dropWhile isWhiteSpace = cs := ⟨_, rfl⟩
  have hsplit : trim s ++ (cs.reverse.takeWhile isWhiteSpace).reverse = cs := by
    rw [trim, hcs, ← List.reverse_append, List.takeWhile_append_dropWhile, List.reverse_reverse]
  refine ⟨s.takeWhile isWhiteSpace, (cs.reverse.takeWhile isWhiteSpace).reverse, ?_, ?_, ?_, ?_, ?_⟩
  · rw [hsplit, ← hcs, List.takeWhile_append_dropWhile]
  · exact List.all_eq_true.1 List.all_takeWhile
  · intro c hc
    exact List.all_eq_true.1 List.all_takeWhile c (List.mem_reverse.1 hc)
  · intro c hc
    have hhead : cs.head? = some c := by
      rw [← hsplit, List.head?_append, Option.mem_def.1 hc, Option.some_or]
    exact head?_dropWhile s c (hcs ▸ hhead)
  · intro c hc
    rw [trim, hcs, List.getLast?_reverse] at hc
    exact head?_dropWhile _ c hc

theorem trim_eq_iff : trim s = t ↔ Trimmed s t := by
  constructor
  · rintro rfl
    exact trimmed_trim s
  · rintro ⟨a, b, rfl, ha, hb, hhead, hlast⟩
    have hb' : ∀ c ∈ b.reverse, isWhiteSpace c = true := fun c hc => hb c (List.mem_reverse.1 hc)
    rw [trim, List.dropWhile_append_of_pos ha]
    by_cases hnil : t = []
    · have hdrop : (b ++ []).dropWhile isWhiteSpace = [] := List.dropWhile_append_of_pos hb
      rw [hnil, List.nil_append, ← List.append_nil b, hdrop]
      rfl
    · have hhead' : ∀ c ∈ (t ++ b).head?, isWhiteSpace c = false := by
        rwa [List.head?_append_of_ne_nil _ hnil]
      rw [dropWhile_eq_self hhead', List.reverse_append, List.dropWhile_append_of_pos hb',
        dropWhile_eq_self, List.reverse_reverse]
      rwa [List.head?_reverse]

end Text

end LayerSize
