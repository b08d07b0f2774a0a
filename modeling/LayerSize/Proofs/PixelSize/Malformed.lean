import LayerSize.Proofs.Json.Objects
import LayerSize.Proofs.Json.PromptValues
import LayerSize.Proofs.PixelSize.Text

/-!
# What a fault says about a text

Where a text is found to be malformed, and what may come after that place.  A text that merely
ends too early, or that ends in a number that is too large, may be the start of a good one; every
other fault is settled by the bytes before its place.

* `ofText_fault_settled`: the place of a fault, and the texts that have the same one;
* `ofText_of_start`: the faults of the starts of a good text.
-/

namespace LayerSize.PixelSize

open Json (Blanks Cause CutsNumber DocumentText Fault OpensObject)
open Text (Agree)

variable {t t' d u rest : List Char} {m : Malformed} {j k : Nat}

/-! ## The place of a fault -/

/-- What whole texts make of a fault that shows after so many bytes. -/
theorem ofFault_after (cause : Cause) (hj : j ≤ Text.byteCount t) :
    Malformed.ofFault t (.after cause j t) =
      ⟨cause, Position.after ((Text.bytes t).take j)⟩ := by
  rw [Malformed.ofFault, Fault.position, Fault.after, Nat.sub_sub_self hj]

theorem ofText_of_whole_error {fault : Fault Cause} (h : Json.whole t = .error fault) :
    ofText t = .error (.malformed (.ofFault t fault)) :=
  ofText_eq_malformed_iff.2 ⟨fault, Json.document_error_iff.2 h, rfl⟩

/-- What is wrong with a malformed text: it ends too early, or ends in a number that is too large,
or else its first bytes show the fault, whatever comes after them. -/
theorem malformed_cases (h : ofText t = .error (.malformed m)) :
    Category.ofCause m.cause = .truncated ∨
      (∃ k, k ≤ Text.byteCount t ∧ m.position = Position.after ((Text.bytes t).take k) ∧
        ∀ t', Agree k t t' → ofText t' = .error (.malformed m)) ∨
      m.cause = .numberOutOfRange ∧ Json.CutShort Json.whole t := by
  obtain ⟨fault, hfault, rfl⟩ := ofText_eq_malformed_iff.1 h
  have hprompt := (Json.promptAt_whole t).error (Json.document_error_iff.1 hfault)
  rcases hprompt with hend | ⟨j, -, hle, hj⟩ | hcut
  · exact .inl (if_pos hend)
  · right
    left
    have hself : fault = .after fault.cause j t := by
      have heq := hj t (.refl hle)
      rw [Json.document_error_iff.1 hfault] at heq
      exact Except.error.inj heq
    have hm : Malformed.ofFault t fault =
        ⟨fault.cause, Position.after ((Text.bytes t).take j)⟩ := by
      rw [hself]
      exact ofFault_after fault.cause hle
    refine ⟨j, hle, by rw [hm], fun t' ht' => ?_⟩
    rw [ofText_of_whole_error (hj t' ht'), hm, ofFault_after fault.cause ht'.le, ht'.2]
  · exact .inr (.inr hcut)

/-- The place of a fault is one of the text, and no other place has its line and column.  Unless
the text ends too early or a number is too large, all texts with the same bytes before the place
have the same fault, with the same line and column. -/
theorem ofText_fault_settled (h : ofText t = .error (.malformed m)) :
    (∃! k, k ≤ Text.byteCount t ∧ Designates m.position (Text.bytes t) k) ∧
      (Category.ofCause m.cause = .malformed → m.cause.message ≠ "number out of range" →
        ∀ k, k ≤ Text.byteCount t → Designates m.position (Text.bytes t) k →
          ∀ t', (Text.bytes t').take k = (Text.bytes t).take k →
            ofText t' = .error (.malformed m)) := by
  have hunique : ∀ {k k'}, k ≤ Text.byteCount t → Designates m.position (Text.bytes t) k →
      k' ≤ Text.byteCount t → Designates m.position (Text.bytes t) k' → k = k' := by
    intro k k' hk hdes hk' hdes'
    rw [← Text.length_bytes] at hk hk'
    exact hdes.unique hdes' hk hk'
  constructor
  · obtain ⟨fault, -, rfl⟩ := ofText_eq_malformed_iff.1 h
    refine ⟨Text.byteCount t - fault.left, ⟨Nat.sub_le .., designates_after _ _⟩, ?_⟩
    rintro k ⟨hk, hdes⟩
    exact hunique hk hdes (Nat.sub_le ..) (designates_after _ _)
  · intro hcategory hmessage k hk hdes t' ht'
    rcases malformed_cases h with hend | ⟨j, hj, hposition, hsame⟩ | ⟨hcause, -⟩
    · rw [hend] at hcategory
      cases hcategory
    · obtain rfl : k = j := hunique hk hdes hj (by rw [hposition]; exact designates_after _ _)
      exact hsame t' ⟨hk, ht'.symm⟩
    · rw [hcause] at hmessage
      exact absurd rfl hmessage

/-- A comma before a bracket, and what may come after it. -/
theorem ofText_fault_settled_comma :
    let t := "\x7b\n\"width\":[1,] \x7d".toList
    let t' := "\x7b\n\"width\":[1,]1,\"height\":".toList
    let m : Malformed := ⟨.trailingComma, ⟨2, 12⟩⟩
    ofText t = .error (.malformed m) ∧ Designates m.position (Text.bytes t) 14 ∧
      ofText t' = .error (.malformed m) := by
  intro t t' m
  have h : ofText t = .error (.malformed m) := by decide +kernel
  have hdes : Designates m.position (Text.bytes t) 14 := designates_iff.2 (by decide +kernel)
  refine ⟨h, hdes, ?_⟩
  exact (ofText_fault_settled h).2 rfl (by decide) 14 (by decide) hdes t' (by decide +kernel)

/-! ## The starts of a good text -/

/-- The start of a text that is not malformed may be malformed itself, but then it merely ends too
early, or it ends in a number that is too large without the whole of its negative exponent.  If
the text is an object, every start of it without the closing brace is malformed. -/
theorem ofText_of_start (hd : ∀ m, ofText d ≠ .error (.malformed m)) :
    (∀ t u m, d = t ++ u → ofText t = .error (.malformed m) →
        Category.ofCause m.cause = .truncated ∨
          m.cause.message = "number out of range" ∧ CutsNumber t u) ∧
      (OpensObject d → ∃ body b, d = body ++ '}' :: b ∧ Blanks b ∧
        ∀ t, t <+: body → ∃ m, ofText t = .error (.malformed m)) := by
  obtain ⟨v, hv⟩ := exists_documentText hd
  constructor
  · rintro t u m rfl ht
    rcases malformed_cases ht with hend | ⟨j, hj, -, hsame⟩ | ⟨hcause, -, hcut⟩
    · exact .inl hend
    · exact absurd (hsame _ (.append_right hj u)) (hd m)
    · obtain ⟨rest, hread⟩ := Json.exists_whole_of_document (Json.document_eq_ok_iff.2 hv)
      exact .inr ⟨by rw [hcause]; rfl, hcut u v rest hread⟩
  · intro hopens
    obtain ⟨ms, hms⟩ := Json.exists_objectText hv hopens
    obtain ⟨body, b, rfl, hb⟩ := hms.exists_brace
    refine ⟨body, b, rfl, hb, ?_⟩
    rintro t ⟨r, rfl⟩
    refine exists_malformed_iff.2 ?_
    rintro ⟨v', hv'⟩
    rw [List.append_assoc] at hopens hv
    have hblanks := Json.DocumentText.blanks_of_append hopens hv hv'
    have hbrace := hblanks '}' (by simp)
    simp at hbrace

/-- An object that is cut inside a name, and a number that is cut before its exponent. -/
theorem ofText_of_start_cut :
    let t := "\x7b\"width\":1,\"hei".toList
    let u := "ght\":2\x7d ".toList
    let t' := '1' :: List.replicate 309 '0'
    let u' := "e-309".toList
    ofText (t ++ u) = .ok ⟨1, 2⟩ ∧ (∃ m, ofText t = .error (.malformed m)) ∧
      ofText (t' ++ u') = .error (.refused (.notAnObject .number)) ∧
      ofText t' = .error (.malformed ⟨.numberOutOfRange, ⟨1, 310⟩⟩) ∧ CutsNumber t' u' := by
  intro t u t' u'
  have hd : ofText (t ++ u) = .ok ⟨1, 2⟩ := by decide +kernel
  have hd' : ofText (t' ++ u') = .error (.refused (.notAnObject .number)) := by decide +kernel
  have ht' : ofText t' = .error (.malformed ⟨.numberOutOfRange, ⟨1, 310⟩⟩) := by decide +kernel
  refine ⟨hd, ?_, hd', ht', ?_⟩
  · have hopens : OpensObject (t ++ u) := ⟨[], _, .nil, rfl⟩
    obtain ⟨body, b, hbody, -, hstarts⟩ := (ofText_of_start (by simp [hd])).2 hopens
    rcases List.append_eq_append_iff.1 hbody with ⟨more, rfl, -⟩ | ⟨more, hmore, hbrace⟩
    · exact hstarts t ⟨more, rfl⟩
    · cases more with
      | nil => exact hstarts t ⟨[], by rw [hmore, List.append_nil, List.append_nil]⟩
      | cons c more =>
        obtain ⟨rfl, -⟩ := List.cons.inj hbrace
        have hmem : '}' ∈ t := by simp [hmore]
        exact absurd hmem (by decide)
  · have hcuts := (ofText_of_start (by simp [hd'])).1 t' u' _ rfl ht'
    exact (hcuts.resolve_left (by decide)).2

end LayerSize.PixelSize
