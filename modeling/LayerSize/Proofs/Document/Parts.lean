import LayerSize.Document.Reader
import LayerSize.Proofs.Json.Joined
import LayerSize.Proofs.PixelSize.Text

/-!
# Sizes inside documents

A text of a size reads the same alone and inside a document, where one pair of brackets is
open around it.

* `ofText_of_isJson`: what the text holds by itself;
* `innerSize_spaced`: what is read where the text stands in a document;
* `opened`: the text of a document, put together from the texts of its entries;
* `RefusedWith`: how the refusal of a part is reported.
-/

namespace LayerSize.Document

open Json (Blanks Fault IsJson NoLiteral Reads Spaced Value ValueText)
open PixelSize (ofText ofValue)

variable {a t cs rest : List Char} {v : Value} {s : PixelSize} {r : Refusal}

/-! ## Texts by themselves -/

/-- The value of a text decides what it holds. -/
theorem ofText_of_spaced {room : Nat} (hroom : room ≤ 127) (h : Spaced (ValueText room) t v) :
    ofText t = (ofValue v).mapError .refused :=
  PixelSize.ofText_of_documentText (h.mono fun h => h.mono hroom)

theorem ofText_of_isJson (h : IsJson innerDepth t) :
    ∃ v, Spaced (ValueText innerDepth) t v ∧ ofText t = (ofValue v).mapError .refused := by
  obtain ⟨v, hv⟩ := h
  exact ⟨v, hv, ofText_of_spaced (by decide) hv⟩

theorem mapError_eq_ok_iff {ε ε' α : Type} {f : ε → ε'} {x : Except ε α} {a : α} :
    x.mapError f = .ok a ↔ x = .ok a := by
  cases x <;> simp [Except.mapError]

theorem mapError_eq_error_iff {ε ε' α : Type} {f : ε → ε'} {x : Except ε α} {e : ε'} :
    x.mapError f = .error e ↔ ∃ e₀, f e₀ = e ∧ x = .error e₀ := by
  cases x <;> simp [Except.mapError]

/-! ## Texts inside a document -/

/-- The value is read to its end and then looked at as a size.  Its refusal is reported at a
place that does not depend on blanks. -/
theorem innerSize_spaced {settle : List Char → List Char}
    (hsettle : ∀ bs cs, Blanks bs → settle (bs ++ cs) = settle cs)
    (h : Spaced (ValueText innerDepth) t v) (hrest : NoLiteral rest) :
    ∃ bs, Blanks bs ∧ innerSize settle (t ++ rest) =
      match ofValue v with
      | .error r => .error (.here (.refused r) (settle rest))
      | .ok size => .ok (size, bs ++ rest) := by
  obtain ⟨a, u, bs, rfl, ha, hu, hbs⟩ := h
  have hread : malformed (Json.value innerDepth (a ++ (u ++ (bs ++ rest)))) =
      .ok (v, bs ++ rest) := by
    rw [(Json.valueReader innerDepth).complete ha hu fun _ => hbs.noLiteral hrest]
    rfl
  refine ⟨bs, hbs, ?_⟩
  rw [List.append_assoc, List.append_assoc, innerSize, hread, ← hsettle bs rest hbs]
  rfl

/-- The text of a document up to the end of its entries. -/
def opened (bracket : Char) (a b : List Char) (ts : List (List Char)) : List Char :=
  a ++ bracket :: (b ++ [','].intercalate ts)

theorem skipBlanks_opened {bracket : Char} (ha : Blanks a) (hb : Json.isBlank bracket = false)
    (b : List Char) (ts : List (List Char)) (rest : List Char) :
    Json.skipBlanks (opened bracket a b ts ++ rest) =
      bracket :: (b ++ ([','].intercalate ts ++ rest)) := by
  have happ : opened bracket a b ts ++ rest =
      a ++ bracket :: (b ++ ([','].intercalate ts ++ rest)) := by simp [opened]
  rw [happ, Json.skipBlanks_append_cons ha hb]

/-- After each entry comes a comma, or what comes after all of them. -/
theorem exists_opened_append (bracket : Char) (a b : List Char) (pre : List (List Char))
    (t : List Char) (post : List (List Char)) (rest : List Char) :
    ∃ rest', opened bracket a b (pre ++ t :: post) ++ rest =
        opened bracket a b (pre ++ [t]) ++ rest' ∧ ((∃ cs, rest' = ',' :: cs) ∨ rest' = rest) := by
  obtain ⟨rest', hrest, hstart⟩ := Json.exists_intercalate_append t post rest
  refine ⟨rest', ?_, hstart⟩
  simp [opened, Json.intercalate_append_cons, hrest]

/-! ## Results -/

section

variable {α : Type} {document : List Char} {result : α}

/-- The reading fails with a message that is placed in the text, because the text is JSON but
not what is asked for. -/
def RefusedWith (result : Except Error α) (message : String) : Prop :=
  ∃ e place, result = .error e ∧ e.message = messageAt message place ∧
    e.position = some place ∧ e.problem.category = .data

theorem refusedWith_ofFault (fault : Fault Problem) (h : fault.cause.category = .data) :
    RefusedWith (.error (.ofFault document fault) : Except Error α) fault.cause.message :=
  ⟨_, _, rfl, rfl, rfl, h⟩

theorem close_of_blanks (h : Blanks cs) : close document result (.ok cs) = .ok result := by
  have hfinish : Json.finish cs = .ok () := Json.finish_eq_ok_iff.2 h
  simp [close, hfinish, Except.mapError, bind, Except.bind, pure, Except.pure]

theorem close_of_error (fault : Fault Problem) :
    close document result (.error fault) = .error (.ofFault document fault) := rfl

end

end LayerSize.Document
