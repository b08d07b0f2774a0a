import LayerSize.PixelSize.Text
import LayerSize.Proofs.Json.Reading

/-!
# Which texts hold a size

A text is malformed exactly when the grammar does not have it.  Any other text holds what the
value holds that the grammar gives it.
-/

namespace LayerSize.PixelSize

open Json

variable {t : List Char} {v : Value}

theorem ofText_of_documentText (h : DocumentText t v) :
    ofText t = (ofValue v).mapError .refused := by
  have hread : (Json.document t).mapError (fun fault => TextError.malformed (.ofFault t fault)) =
      .ok v := by
    rw [document_eq_ok_iff.2 h]
    rfl
  rw [ofText, hread]
  rfl

/-- A fault in the JSON is the only way to be malformed: a value that is refused is none. -/
theorem ofText_eq_malformed_iff {m : Malformed} :
    ofText t = .error (.malformed m) ↔ ∃ fault, Json.document t = .error fault ∧
      m = .ofFault t fault := by
  unfold ofText
  cases Json.document t with
  | error fault => simp [Except.mapError, bind, Except.bind, eq_comm]
  | ok v =>
    cases hv : ofValue v <;> simp [Except.mapError, bind, Except.bind, hv]

theorem exists_malformed_iff :
    (∃ m, ofText t = .error (.malformed m)) ↔ ¬ ∃ v, DocumentText t v := by
  constructor
  · rintro ⟨m, hm⟩ ⟨v, hv⟩
    obtain ⟨fault, hfault, -⟩ := ofText_eq_malformed_iff.1 hm
    rw [document_eq_ok_iff.2 hv] at hfault
    cases hfault
  · intro hnone
    cases hread : Json.document t with
    | error fault => exact ⟨_, ofText_eq_malformed_iff.2 ⟨fault, hread, rfl⟩⟩
    | ok v => exact absurd ⟨v, document_eq_ok_iff.1 hread⟩ hnone

/-- What is not malformed is in the grammar. -/
theorem exists_documentText (h : ∀ m, ofText t ≠ .error (.malformed m)) :
    ∃ v, DocumentText t v := by
  by_contra hnone
  obtain ⟨m, hm⟩ := exists_malformed_iff.2 hnone
  exact h m hm

/-- The grammar decides what a text holds: a text that it does not have is malformed, and the
one value of a text that it has decides the size or the refusal. -/
theorem ofText_by_grammar (t : List Char) :
    ((∃ m, ofText t = .error (.malformed m)) ↔ ¬ ∃ v, DocumentText t v) ∧
      ∀ v, DocumentText t v →
        (∀ v', DocumentText t v' → v' = v) ∧ ofText t = (ofValue v).mapError .refused := by
  refine ⟨exists_malformed_iff, ?_⟩
  intro v hv
  exact ⟨fun v' hv' => hv'.unique hv, ofText_of_documentText hv⟩

end LayerSize.PixelSize
