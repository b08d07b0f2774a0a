import LayerSize.Document.Reader
import LayerSize.Proofs.Json.Faults
import LayerSize.Proofs.PixelSize.Refusals
import LayerSize.Proofs.PixelSize.Text

/-!
# Two ways to read one size

A document that is one size is read in one go, and a text that holds a size in two: first the
whole JSON, then the size.  Both accept the same texts and fail for the same reasons, but for
one: in a text that goes on after a value that is no size, the first way never looks at what
trails.

* `ofValue_eq_of_append`: what a text holds, and what a longer text starts with;
* `readSize_agrees`: the two ways side by side.
-/

namespace LayerSize.Document

open Json (Cause DocumentText Fault Value)
open PixelSize (ofText ofValue)

variable {t p q rest : List Char} {v v' : Value} {r : Refusal} {fault : Fault Cause}

/-! ## The start of a longer text -/

theorem scalarText_of_number {room : Nat} {n : Json.Number}
    (h : Json.ValueText room t (.number n)) : Json.ScalarText t (.number n) := by
  cases room with
  | zero => exact h
  | succ room =>
    cases h with
    | scalar h => exact h

/-- At the start of a longer text there may be another number than in the shorter text, but
there is a number too, and no number is a size.  Any other value is the same in both. -/
theorem ofValue_eq_of_append (h : DocumentText p v)
    (hread : Json.value Json.maxDepth (p ++ q) = .ok (v', rest)) : ofValue v' = ofValue v := by
  obtain ⟨a, u, b, rfl, ha, hu, -⟩ := h
  have happ : a ++ (u ++ b) ++ q = a ++ (u ++ (b ++ q)) := by simp
  rw [happ] at hread
  by_cases hkind : v.kind = .number
  · cases v with
    | null | boolean | string | array | object => cases hkind
    | number n =>
      cases scalarText_of_number hu with
      | number hl hn =>
        obtain ⟨c, u', rfl, hc⟩ := Json.starts_literal hl
        obtain ⟨hblank, hbracket, -, hbrace, -⟩ := Json.ne_of_starts_literal hc
        have hskip : Json.skipBlanks (c :: u' ++ (b ++ q)) = c :: (u' ++ (b ++ q)) :=
          Json.skipBlanks_append_cons .nil hblank
        rw [Json.value_blanks_append ha, Json.value_eq_scalar hskip hbracket hbrace,
          Json.scalar_number hc] at hread
        obtain ⟨⟨l, rest'⟩, -, hread⟩ := Json.bind_eq_ok_iff.1 hread
        obtain ⟨n', -, hread⟩ := Json.bind_eq_ok_iff.1 hread
        cases hread
        rfl
  · have hv : Json.value Json.maxDepth (a ++ (u ++ (b ++ q))) = .ok (v, b ++ q) :=
      (Json.valueReader Json.maxDepth).complete ha hu fun hk => absurd hk hkind
    rw [hv] at hread
    cases hread
    rfl

/-- The text starts with one that is refused: with a value that is no size. -/
def StartsRefused (t : List Char) (r : Refusal) : Prop :=
  ∃ p q, t = p ++ q ∧ ofText p = .error (.refused r)

theorem startsRefused_iff (h : Json.value Json.maxDepth t = .ok (v, rest)) :
    StartsRefused t r ↔ ofValue v = .error r := by
  constructor
  · rintro ⟨p, q, rfl, hp⟩
    cases hdoc : Json.document p with
    | error fault =>
      rw [PixelSize.ofText_eq_malformed_iff.2 ⟨fault, hdoc, rfl⟩] at hp
      cases hp
    | ok v' =>
      have hv' := Json.document_eq_ok_iff.1 hdoc
      rw [PixelSize.ofText_of_documentText hv'] at hp
      rw [ofValue_eq_of_append hv' h]
      cases hr : ofValue v' with
      | error r' =>
        rw [hr] at hp
        cases hp
        rfl
      | ok s =>
        rw [hr] at hp
        cases hp
  · intro hv
    obtain ⟨a, u, rfl, ha, hu⟩ := (Json.valueReader Json.maxDepth).sound h
    refine ⟨a ++ u, rest, by simp, ?_⟩
    rw [PixelSize.ofText_of_documentText ⟨a, u, [], by simp, ha, hu, .nil⟩, hv]
    rfl

/-! ## The outcomes of reading the value -/

/-- The whole text is faulty where its value is, or where something trails the value. -/
theorem ofText_of_fault (h : Json.value Json.maxDepth t = .error fault) :
    ofText t = .error (.malformed (.ofFault t fault)) := by
  refine PixelSize.ofText_eq_malformed_iff.2 ⟨fault, ?_, rfl⟩
  rw [Json.document, h]
  rfl

theorem ofText_of_trailing (h : Json.value Json.maxDepth t = .ok (v, rest))
    (hrest : Json.finish rest = .error fault) :
    ofText t = .error (.malformed (.ofFault t fault)) := by
  refine PixelSize.ofText_eq_malformed_iff.2 ⟨fault, ?_, rfl⟩
  rw [Json.document, h]
  change (Json.finish rest >>= fun _ => pure v) = _
  rw [hrest]
  rfl

theorem ofText_of_finished (h : Json.value Json.maxDepth t = .ok (v, rest))
    (hrest : Json.finish rest = .ok ()) : ofText t = (ofValue v).mapError .refused := by
  refine PixelSize.ofText_of_documentText (Json.document_eq_ok_iff.1 ?_)
  exact Json.bind_eq_ok_iff.2 ⟨_, h, Json.bind_eq_ok_iff.2 ⟨_, hrest, rfl⟩⟩

theorem cause_of_finish (h : Json.finish rest = .error fault) :
    fault.cause = .trailingCharacters := by
  unfold Json.finish at h
  split at h
  · cases h
  · cases h
    rfl

/-- The reading fails, and this is seen of the error. -/
def FailsWith (result : Except Error PixelSize) (message : String) (position : Option Position)
    (category : Category) : Prop :=
  ∃ e, result = .error e ∧ e.message = message ∧ e.position = position ∧
    e.problem.category = category

theorem readSize_of_fault (h : Json.value Json.maxDepth t = .error fault) :
    (readSize t).result = .error (.ofMalformed t fault) := by
  rw [readSize, h]

theorem readSize_of_refused (h : Json.value Json.maxDepth t = .ok (v, rest))
    (hv : ofValue v = .error r) : (readSize t).result = .error ⟨.refused r, none⟩ := by
  rw [readSize, h]
  dsimp only
  rw [hv]

theorem readSize_of_finished {s : PixelSize} (h : Json.value Json.maxDepth t = .ok (v, rest))
    (hv : ofValue v = .ok s) (hrest : Json.finish rest = .ok ()) :
    (readSize t).result = .ok s := by
  simp only [readSize, h, hv, hrest]

theorem readSize_of_trailing {s : PixelSize} (h : Json.value Json.maxDepth t = .ok (v, rest))
    (hv : ofValue v = .ok s) (hrest : Json.finish rest = .error fault) :
    (readSize t).result = .error (.ofMalformed t fault) := by
  simp only [readSize, h, hv, hrest]

/-! ## Agreement -/

theorem readSize_eq_ok_iff {s : PixelSize} : (readSize t).result = .ok s ↔ ofText t = .ok s := by
  cases hvalue : Json.value Json.maxDepth t with
  | error fault =>
    rw [ofText_of_fault hvalue, readSize_of_fault hvalue]
    simp
  | ok read =>
    obtain ⟨v, rest⟩ := read
    cases hrest : Json.finish rest with
    | error fault =>
      rw [ofText_of_trailing hvalue hrest]
      cases hv : ofValue v with
      | error r => simp [readSize_of_refused hvalue hv]
      | ok s' => simp [readSize_of_trailing hvalue hv hrest]
    | ok finished =>
      rw [ofText_of_finished hvalue hrest]
      cases hv : ofValue v with
      | error r => simp [readSize_of_refused hvalue hv, Except.mapError]
      | ok s' => simp [readSize_of_finished hvalue hv hrest, Except.mapError]

/-- A value that is no size is refused, whatever trails it. -/
theorem failsWith_of_refused (hvalue : Json.value Json.maxDepth t = .ok (v, rest))
    (hv : ofValue v = .error r) :
    FailsWith (readSize t).result r.message none .data ∧ ¬ StatesPlace r.message :=
  ⟨⟨_, readSize_of_refused hvalue hv, rfl, rfl, rfl⟩, PixelSize.not_statesPlace_of_ofValue hv⟩

theorem exists_value_of_refused (h : ofText t = .error (.refused r)) :
    ∃ v rest, Json.value Json.maxDepth t = .ok (v, rest) ∧ ofValue v = .error r := by
  cases hvalue : Json.value Json.maxDepth t with
  | error fault =>
    rw [ofText_of_fault hvalue] at h
    cases h
  | ok read =>
    obtain ⟨v, rest⟩ := read
    refine ⟨v, rest, rfl, ?_⟩
    cases hrest : Json.finish rest with
    | error fault =>
      rw [ofText_of_trailing hvalue hrest] at h
      cases h
    | ok finished =>
      rw [ofText_of_finished hvalue hrest] at h
      cases hv : ofValue v with
      | error r' =>
        rw [hv] at h
        cases h
        rfl
      | ok s =>
        rw [hv] at h
        cases h

/-- Where characters trail, a value stands before them. -/
theorem exists_value_of_trailing {m : Malformed} (h : ofText t = .error (.malformed m))
    (hcause : m.cause = .trailingCharacters) :
    ∃ v rest, Json.value Json.maxDepth t = .ok (v, rest) := by
  cases hvalue : Json.value Json.maxDepth t with
  | error fault =>
    rw [ofText_of_fault hvalue] at h
    cases h
    exact absurd hcause (Json.inside_value _ _ fault hvalue)
  | ok read => exact ⟨read.1, read.2, rfl⟩

theorem failsWith_of_malformed {m : Malformed} (h : ofText t = .error (.malformed m))
    (hstart : m.cause = .trailingCharacters → ∀ r, ¬ StartsRefused t r) :
    FailsWith (readSize t).result m.message (some m.position) (.ofCause m.cause) := by
  cases hvalue : Json.value Json.maxDepth t with
  | error fault =>
    rw [ofText_of_fault hvalue] at h
    cases h
    exact ⟨_, readSize_of_fault hvalue, rfl, rfl, rfl⟩
  | ok read =>
    obtain ⟨v, rest⟩ := read
    cases hrest : Json.finish rest with
    | ok finished =>
      rw [ofText_of_finished hvalue hrest] at h
      cases hv : ofValue v <;> simp [hv, Except.mapError] at h
    | error fault =>
      rw [ofText_of_trailing hvalue hrest] at h
      cases h
      cases hv : ofValue v with
      | error r =>
        exact absurd ((startsRefused_iff hvalue).2 hv) (hstart (cause_of_finish hrest) r)
      | ok s => exact ⟨_, readSize_of_trailing hvalue hv hrest, rfl, rfl, rfl⟩

/-- Both ways read the same sizes.  A refusal is reported without a position, and its message
names none.  A malformed text is reported alike, unless characters trail a value that is no
size: then that value is refused. -/
theorem readSize_agrees (t : List Char) :
    (∀ s, (readSize t).result = .ok s ↔ ofText t = .ok s) ∧
      (∀ r, ofText t = .error (.refused r) →
        FailsWith (readSize t).result r.message none .data ∧ ¬ StatesPlace r.message) ∧
      ∀ m, ofText t = .error (.malformed m) →
        (∀ r, m.cause = .trailingCharacters → StartsRefused t r →
          FailsWith (readSize t).result r.message none .data ∧ ¬ StatesPlace r.message) ∧
        ((m.cause = .trailingCharacters → ∀ r, ¬ StartsRefused t r) →
          FailsWith (readSize t).result m.message (some m.position) (.ofCause m.cause)) := by
  refine ⟨fun s => readSize_eq_ok_iff, ?_, ?_⟩
  · intro r h
    obtain ⟨v, rest, hvalue, hv⟩ := exists_value_of_refused h
    exact failsWith_of_refused hvalue hv
  · intro m h
    constructor
    · intro r hcause hr
      obtain ⟨v, rest, hvalue⟩ := exists_value_of_trailing h hcause
      exact failsWith_of_refused hvalue ((startsRefused_iff hvalue).1 hr)
    · exact failsWith_of_malformed h

end LayerSize.Document
