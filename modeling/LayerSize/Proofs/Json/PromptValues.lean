import LayerSize.Proofs.Json.PromptBrackets
import LayerSize.Proofs.Json.PromptNumbers
import LayerSize.Proofs.Json.PromptStrings
import LayerSize.Proofs.Json.Reading

/-!
# Values and whole texts are read promptly

Every fault of a text is shown by the bytes before its place, but for a text that ends too early
and for a number at its end that is too large.

* `promptAt_value`: values, by induction on the depth;
* `promptAt_whole`: whole texts.
-/

namespace LayerSize.Json

open Text (Agree Alike)

variable {c d : Char} {cs rest : List Char} {room : Nat}

/-! ## Scalars -/

theorem promptAt_word_value {ws : List Char} (h : ∀ w ∈ ws, w.toNat < 128) (v : Value)
    (cs : List Char) : PromptAt (fun cs => word ws cs >>= fun rest => .ok (v, rest)) cs :=
  (promptAt_word h cs).bind_rest fun rest _ => promptAt_ok v rest

theorem scalar_of_ne (hq : c ≠ '"') (hn : c ≠ 'n') (ht : c ≠ 't') (hf : c ≠ 'f')
    (hnumber : ¬ (c = '-' ∨ c.isDigit = true)) (cs : List Char) :
    scalar (c :: cs) = .error (.next .expectedValue (c :: cs)) := by
  unfold scalar
  split
  · contradiction
  · next heq => exact absurd (List.cons.inj heq).1 hq
  · next heq => exact absurd (List.cons.inj heq).1 hn
  · next heq => exact absurd (List.cons.inj heq).1 ht
  · next heq => exact absurd (List.cons.inj heq).1 hf
  · next heq =>
    obtain ⟨rfl, rfl⟩ := List.cons.inj heq
    rw [if_neg hnumber]

theorem promptAt_scalar (c : Char) (cs : List Char) : PromptAt scalar (c :: cs) := by
  by_cases hq : c = '"'
  · subst hq
    exact .cons _ ((promptAt_string cs).map Value.string)
  · by_cases hn : c = 'n'
    · subst hn
      exact .cons _ (promptAt_word_value (by simp) .null cs)
    · by_cases ht : c = 't'
      · subst ht
        exact .cons _ (promptAt_word_value (by simp) (.boolean true) cs)
      · by_cases hf : c = 'f'
        · subst hf
          exact .cons _ (promptAt_word_value (by simp) (.boolean false) cs)
        · by_cases hnumber : c = '-' ∨ c.isDigit = true
          · refine PromptAt.congr ?_ (Literal.promptAt_readNumber (c :: cs))
            intro d r halike
            refine scalar_number ?_ r
            rcases hnumber with rfl | hdigit
            · exact .inl (halike.eq_of_lt (by decide))
            · exact .inr (by rw [Literal.isDigit_of_alike halike, hdigit])
          · refine promptAt_unexpected .expectedValue ?_ cs
            intro d r halike
            refine scalar_of_ne (halike.ne hq (by decide)) (halike.ne hn (by decide))
              (halike.ne ht (by decide)) (halike.ne hf (by decide)) ?_ r
            rw [not_or] at hnumber ⊢
            exact ⟨halike.ne hnumber.1 (by decide),
              by rw [Literal.isDigit_of_alike halike]; exact hnumber.2⟩

/-! ## Arrays and objects -/

section

variable {value : List Char → Reads (Value × List Char)} {Inner : List Char → Value → Prop}

theorem promptAt_item (hvalue : ∀ cs, PromptAt value cs) (vs : List Value) (cs : List Char) :
    PromptAt (item value vs) cs := (hvalue cs).map (· :: vs)

theorem promptAt_member (hvalue : ∀ cs, PromptAt value cs) (ms : List (String × Value)) (c : Char)
    (cs : List Char) : PromptAt (member value ms) (c :: cs) := by
  refine (promptAt_name c cs).bind ?_
  intro name rest _
  refine (promptAt_colon rest).bind_rest ?_
  intro rest' _
  exact (hvalue rest').map fun v => Members.insert name v ms

theorem promptAt_array (h : ValueReader value Inner) (hvalue : ∀ cs, PromptAt value cs)
    (cs : List Char) : PromptAt (array value) cs := by
  have heq : array value = fun cs => reached (Brackets.array.fold id (item value) [] cs) >>=
      fun x => .ok (.array x.1.reverse, x.2) := by
    funext cs
    exact (reached_bind (fun vs : List Value => Value.array vs.reverse) _).symm
  rw [heq]
  refine PromptAt.map ?_ fun vs : List Value => Value.array vs.reverse
  exact (itemReader h).promptAt_fold (fun vs cs _ => promptAt_item hvalue vs cs) [] cs

theorem promptAt_object (h : ValueReader value Inner) (hvalue : ∀ cs, PromptAt value cs)
    (cs : List Char) : PromptAt (object value) cs := by
  have heq : object value = fun cs => reached (Brackets.object.fold id (member value) [] cs) >>=
      fun x => .ok (.object x.1, x.2) := by
    funext cs
    exact (reached_bind Value.object _).symm
  rw [heq]
  refine PromptAt.map ?_ Value.object
  refine (memberReader h).promptAt_fold ?_ [] cs
  rintro ms _ ⟨c, cs, rfl, -⟩
  exact promptAt_member hvalue ms c cs

end

/-! ## Values -/

/-- The opening brackets aside, a value is told from its first character. -/
theorem promptAt_value_of_open (harray : ∀ cs, PromptAt (value room) ('[' :: cs))
    (hobject : ∀ cs, PromptAt (value room) ('{' :: cs)) (cs : List Char) :
    PromptAt (value room) cs := by
  have hnil : value room [] = scalar [] := by
    cases room <;> rfl
  refine promptAt_blanks (fun bs cs hbs => value_blanks_append hbs) (promptAt_end hnil rfl) ?_ cs
  intro c rest hblank
  by_cases hbracket : c = '['
  · subst hbracket
    exact harray rest
  · by_cases hbrace : c = '{'
    · subst hbrace
      exact hobject rest
    · refine PromptAt.congr ?_ (promptAt_scalar c rest)
      intro d r halike
      exact value_eq_scalar (skipBlanks_of_alike halike hblank r)
        (halike.ne hbracket (by decide)) (halike.ne hbrace (by decide))

/-- Induction on how many more brackets may be open. -/
theorem promptAt_value (room : Nat) (cs : List Char) : PromptAt (value room) cs := by
  induction room generalizing cs with
  | zero =>
    have htooDeep : ∀ c, (c = '[' ∨ c = '{') → ∀ cs, PromptAt (value 0) (c :: cs) := by
      intro c hc cs
      refine promptAt_unexpected .nestedTooDeeply ?_ cs
      intro d r halike
      rcases hc with rfl | rfl
      · rw [halike.eq_of_lt (by decide)]
        rfl
      · rw [halike.eq_of_lt (by decide)]
        rfl
    exact promptAt_value_of_open (htooDeep _ (.inl rfl)) (htooDeep _ (.inr rfl)) cs
  | succ room ih =>
    refine promptAt_value_of_open ?_ ?_ cs
    · exact fun cs => .cons _ (promptAt_array (valueReader room) ih cs)
    · exact fun cs => .cons _ (promptAt_object (valueReader room) ih cs)

/-- What is read as a value is the longest text of a value that stands there. -/
theorem length_le_of_value {u u' rest' : List Char} {v v' : Value}
    (h : value room (u ++ rest) = .ok (v, rest)) (hu' : ValueText room u' v')
    (happ : u ++ rest = u' ++ rest') : u'.length ≤ u.length := by
  obtain ⟨taken, htaken, hsame⟩ := (promptAt_value room (u ++ rest)).ok h
  obtain rfl : u = taken := List.append_cancel_right htaken
  rcases List.append_eq_append_iff.1 happ with ⟨more, rfl, hmore⟩ | ⟨more, rfl, -⟩
  · cases more with
    | nil => simp
    | cons c more =>
      -- the reader stops before `c`, and would do so if the text ended with the longer value
      have hstop := hsame (c :: more) ⟨c, _, c, _, hmore, rfl, .refl c⟩
      have hwhole : value room ([] ++ ((u ++ c :: more) ++ [])) = .ok (v', []) :=
        (valueReader room).complete .nil hu' fun _ => by simp [NoLiteral]
      rw [List.nil_append, List.append_nil, hstop] at hwhole
      cases hwhole
  · simp

/-! ## Whole texts -/

theorem promptAt_finish (v : Value) (cs : List Char) :
    PromptAt (fun cs => finish cs >>= fun _ => .ok (v, [])) cs := by
  refine promptAt_blanks ?_ (promptAt_of_eq_ok_nil rfl) ?_ cs
  · intro bs cs hbs
    unfold finish
    rw [skipBlanks_of_blanks hbs]
  · intro c rest hblank
    refine promptAt_unexpected .trailingCharacters ?_ rest
    intro d r halike
    rw [finish, skipBlanks_of_alike halike hblank]
    rfl

/-- The value that a whole text is; nothing is left. -/
def whole (cs : List Char) : Reads (Value × List Char) :=
  value maxDepth cs >>= fun x => finish x.2 >>= fun _ => .ok (x.1, [])

theorem promptAt_whole (cs : List Char) : PromptAt whole cs :=
  (promptAt_value maxDepth cs).bind fun v rest _ => promptAt_finish v rest

theorem document_eq (cs : List Char) : document cs = (whole cs).map Prod.fst := by
  unfold document whole
  cases value maxDepth cs with
  | error fault => rfl
  | ok read =>
    show (finish read.2 >>= _) = (finish read.2 >>= _).map _
    cases finish read.2 <;> rfl

theorem document_error_iff {fault : Fault Cause} :
    document cs = .error fault ↔ whole cs = .error fault := by
  rw [document_eq]
  cases whole cs <;> simp [Except.map]

theorem exists_whole_of_document {v : Value} (h : document cs = .ok v) :
    ∃ rest, whole cs = .ok (v, rest) := by
  rw [document_eq] at h
  cases hread : whole cs with
  | error fault => rw [hread] at h; cases h
  | ok read =>
    rw [hread] at h
    cases h
    exact ⟨read.2, rfl⟩

end LayerSize.Json
