import LayerSize.Proofs.Json.Brackets
import LayerSize.Proofs.Json.Members
import LayerSize.Proofs.Json.Strings

/-!
# Reading values

The reader of values against the grammar: a whole text is read as a value exactly when the
grammar has it, and then as the value that the grammar gives it.

* `ValueReader`: a reader that agrees with a grammar of values;
* `valueReader`: `value` agrees with `ValueText`, by induction on the depth;
* `spaced_valueText_iff`, `document_eq_ok_iff`: whole texts.
-/

namespace LayerSize.Json

variable {a t cs rest : List Char} {v : Value} {room : Nat}

/-! ## Scalars -/

theorem starts_literal {l : Literal} (h : LiteralText t l) :
    ∃ c t', t = c :: t' ∧ (c = '-' ∨ c.isDigit = true) := by
  cases h with
  | @mk sign f e _ hs hw hf he =>
    obtain ⟨⟨hne, hdigits⟩, -⟩ := hw
    cases hn : l.negative with
    | true => exact ⟨'-', _, by rw [hs, hn]; rfl, .inl rfl⟩
    | false =>
      obtain ⟨d, ds, hd⟩ := List.exists_cons_of_ne_nil hne
      refine ⟨d, _, by rw [hs, hn, hd]; rfl, .inr (hdigits d ?_)⟩
      rw [hd]
      exact List.mem_cons_self ..

/-- A minus or a digit is neither a blank nor a bracket. -/
theorem ne_of_starts_literal {c : Char} (h : c = '-' ∨ c.isDigit = true) :
    isBlank c = false ∧ c ≠ '[' ∧ c ≠ ']' ∧ c ≠ '{' ∧ c ≠ '}' := by
  have hmem : c ∉ [' ', '\n', '\t', '\r', '[', ']', '{', '}'] := by
    intro hmem
    simp only [List.mem_cons, List.not_mem_nil, or_false] at hmem
    rcases hmem with rfl | rfl | rfl | rfl | rfl | rfl | rfl | rfl <;> simp at h
  simpa [isBlank, and_assoc] using hmem

/-- A minus or a digit begins nothing but a number. -/
theorem scalar_number {c : Char} (h : c = '-' ∨ c.isDigit = true) (cs : List Char) :
    scalar (c :: cs) = (do
      let (literal, rest) ← Literal.scan .endOfValue (c :: cs)
      let n ← literal.number rest
      return (.number n, rest)) := by
  unfold scalar
  split
  · contradiction
  all_goals
    next heq =>
      obtain ⟨rfl, rfl⟩ := List.cons.inj heq
      first
      | simp at h
      | rw [if_pos h]

theorem scalar_sound (h : scalar cs = .ok (v, rest)) : ∃ t, cs = t ++ rest ∧ ScalarText t v := by
  unfold scalar at h
  split at h
  · cases h
  · next cs =>
    obtain ⟨⟨s, rest'⟩, hs, hv⟩ := bind_eq_ok_iff.1 h
    cases hv
    obtain ⟨q, s', rfl, rfl, hq⟩ := string_eq_ok_iff.1 hs
    exact ⟨_, by simp, .string hq⟩
  · obtain ⟨rest', hw, hv⟩ := bind_eq_ok_iff.1 h
    cases hv
    exact ⟨_, congrArg _ (word_eq_ok_iff.1 hw), .null⟩
  · obtain ⟨rest', hw, hv⟩ := bind_eq_ok_iff.1 h
    cases hv
    exact ⟨_, congrArg _ (word_eq_ok_iff.1 hw), .true⟩
  · obtain ⟨rest', hw, hv⟩ := bind_eq_ok_iff.1 h
    cases hv
    exact ⟨_, congrArg _ (word_eq_ok_iff.1 hw), .false⟩
  · split at h
    · obtain ⟨⟨l, rest'⟩, hl, h⟩ := bind_eq_ok_iff.1 h
      obtain ⟨n, hn, hv⟩ := bind_eq_ok_iff.1 h
      cases hv
      obtain ⟨t, ht, hlit⟩ := Literal.scan_sound hl
      exact ⟨t, ht, .number hlit (Literal.number_eq_ok_iff.1 hn)⟩
    · cases h

/-- After a number the text must not go on as one; after any other scalar it may go on
anyhow. -/
theorem scalar_complete (h : ScalarText t v) (hr : v.kind = .number → NoLiteral rest) :
    scalar (t ++ rest) = .ok (v, rest) := by
  cases h with
  | null => rfl
  | true => rfl
  | false => rfl
  | number ht hn =>
    obtain ⟨c, t', rfl, hc⟩ := starts_literal ht
    rw [List.cons_append, scalar_number hc, ← List.cons_append]
    have hl : Literal.scan .endOfValue (c :: t' ++ rest) = .ok (_, rest) :=
      Literal.scan_complete ht (hr rfl)
    exact bind_eq_ok_iff.2 ⟨_, hl, bind_eq_ok_iff.2 ⟨_, Literal.number_eq_ok_iff.2 hn, rfl⟩⟩
  | @string q s hq =>
    have hs : string (q ++ '"' :: rest) = .ok (String.ofList s, rest) :=
      string_eq_ok_iff.2 ⟨q, s, rfl, rfl, hq⟩
    have happ : '"' :: (q ++ ['"']) ++ rest = '"' :: (q ++ '"' :: rest) := by simp
    rw [happ, scalar]
    exact bind_eq_ok_iff.2 ⟨_, hs, rfl⟩

/-! ## Readers of values -/

/-- The text starts with a value: with neither a blank nor a closing bracket. -/
def StartsValue (cs : List Char) : Prop := ∀ b : Brackets, b.Starts cs

/-- A reader of values agrees with a grammar of values, blanks before the value set aside. -/
structure ValueReader (value : List Char → Reads (Value × List Char))
    (Inner : List Char → Value → Prop) : Prop where
  sound : ∀ {cs v rest}, value cs = .ok (v, rest) → ∃ a t, cs = a ++ (t ++ rest) ∧ Blanks a ∧ Inner t v
  complete : ∀ {a t v rest}, Blanks a → Inner t v → (v.kind = .number → NoLiteral rest) →
    value (a ++ (t ++ rest)) = .ok (v, rest)
  starts : ∀ {t v}, Inner t v → StartsValue t

theorem startsValue_cons {c : Char} (h : isBlank c = false) (h' : c ≠ ']') (h'' : c ≠ '}') :
    StartsValue (c :: t) := by
  intro b
  refine ⟨c, t, rfl, h, ?_⟩
  cases b
  · exact h'
  · exact h''

theorem startsValue_scalar (h : ScalarText t v) : StartsValue t := by
  cases h with
  | null | true | false | string => exact startsValue_cons rfl (by decide) (by decide)
  | number ht hn =>
    obtain ⟨c, t', rfl, hc⟩ := starts_literal ht
    obtain ⟨hblank, -, hbracket, -, hbrace⟩ := ne_of_starts_literal hc
    exact startsValue_cons hblank hbracket hbrace

theorem startsValue_nested {Inner : List Char → Value → Prop} (h : NestedText Inner t v) :
    StartsValue t := by
  cases h with
  | scalar h => exact startsValue_scalar h
  | emptyArray | array | emptyObject | object =>
    exact startsValue_cons rfl (by decide) (by decide)

/-! ## Entries of arrays and objects -/

/-- No blanks stand before the start of an entry. -/
theorem eq_nil_of_starts {b : Brackets} (h : b.Starts (a ++ t)) (ha : Blanks a) : a = [] := by
  cases a with
  | nil => rfl
  | cons c a =>
    obtain ⟨c', cs, heq, hc, -⟩ := h
    obtain ⟨rfl, -⟩ := List.cons.inj heq
    rw [isBlank_iff.2 (ha c (List.mem_cons_self ..))] at hc
    cases hc

theorem colon_eq_ok_iff : colon cs = .ok rest ↔ ∃ bs, Blanks bs ∧ cs = bs ++ ':' :: rest := by
  constructor
  · intro h
    unfold colon at h
    split at h
    · cases h
    · next cs' hcs =>
      cases h
      obtain ⟨bs, hbs, heq, -⟩ := skipBlanks_eq_cons_iff.1 hcs
      exact ⟨bs, hbs, heq⟩
    · cases h
  · rintro ⟨bs, hbs, rfl⟩
    rw [colon, skipBlanks_append_cons hbs rfl]
    rfl

theorem name_eq_ok_iff {n : String} :
    name cs = .ok (n, rest) ↔
      ∃ q s, cs = '"' :: (q ++ '"' :: rest) ∧ n = String.ofList s ∧ QuotedText q s := by
  constructor
  · intro h
    obtain ⟨cs', hquote, hs⟩ := bind_eq_ok_iff.1 h
    unfold nameQuote at hquote
    split at hquote
    · cases hquote
      obtain ⟨q, s, rfl, hn, hq⟩ := string_eq_ok_iff.1 hs
      exact ⟨q, s, rfl, hn, hq⟩
    · cases hquote
  · rintro ⟨q, s, rfl, hn, hq⟩
    exact bind_eq_ok_iff.2 ⟨_, rfl, string_eq_ok_iff.2 ⟨q, s, rfl, hn, hq⟩⟩

section

variable {value : List Char → Reads (Value × List Char)} {Inner : List Char → Value → Prop}

theorem itemReader (h : ValueReader value Inner) :
    EntryReader .array (item value) Inner fun vs v => v :: vs where
  sound := by
    intro vs vs' cs rest hcs hread
    obtain ⟨⟨v, rest'⟩, hv, heq⟩ := bind_eq_ok_iff.1 hread
    cases heq
    obtain ⟨a, t, rfl, ha, ht⟩ := h.sound hv
    obtain rfl := eq_nil_of_starts hcs ha
    exact ⟨t, v, rfl, ht, rfl⟩
  complete := by
    intro t v rest vs ht hr
    exact bind_eq_ok_iff.2 ⟨_, h.complete .nil ht fun _ => hr, rfl⟩
  starts ht := h.starts ht _

theorem memberReader (h : ValueReader value Inner) :
    EntryReader .object (member value) (MemberText Inner)
      fun ms m => Members.insert m.1 m.2 ms where
  sound := by
    intro ms ms' cs rest hcs hread
    obtain ⟨⟨n, cs₁⟩, hn, hread⟩ := bind_eq_ok_iff.1 hread
    obtain ⟨cs₂, hcolon, hread⟩ := bind_eq_ok_iff.1 hread
    obtain ⟨⟨v, cs₃⟩, hv, heq⟩ := bind_eq_ok_iff.1 hread
    cases heq
    obtain ⟨q, s, rfl, rfl, hq⟩ := name_eq_ok_iff.1 hn
    obtain ⟨a, ha, rfl⟩ := colon_eq_ok_iff.1 hcolon
    obtain ⟨b, t, rfl, hb, ht⟩ := h.sound hv
    exact ⟨_, _, by simp, .mk hq ha hb ht, rfl⟩
  complete := by
    intro t m rest ms hm hr
    cases hm with
    | @mk q s a b t v hq ha hb ht =>
      have hn : name ('"' :: (q ++ '"' :: (a ++ ':' :: (b ++ (t ++ rest))))) =
          .ok (String.ofList s, a ++ ':' :: (b ++ (t ++ rest))) :=
        name_eq_ok_iff.2 ⟨q, s, rfl, rfl, hq⟩
      have hcolon : colon (a ++ ':' :: (b ++ (t ++ rest))) = .ok (b ++ (t ++ rest)) :=
        colon_eq_ok_iff.2 ⟨a, ha, rfl⟩
      have hv := h.complete hb ht fun _ => hr
      have happ : '"' :: (q ++ '"' :: (a ++ ':' :: (b ++ t))) ++ rest =
          '"' :: (q ++ '"' :: (a ++ ':' :: (b ++ (t ++ rest)))) := by simp
      rw [happ]
      exact bind_eq_ok_iff.2 ⟨_, hn, bind_eq_ok_iff.2 ⟨_, hcolon, bind_eq_ok_iff.2 ⟨_, hv, rfl⟩⟩⟩
  starts hm := by
    cases hm
    exact startsValue_cons rfl (by decide) (by decide) _

/-- The state that the entries lead to becomes the value once the brackets are closed. -/
theorem map_fold_eq_ok_iff {σ : Type} {read : σ × Reads (List Char)} {f : σ → Value} :
    (read.2.map fun rest => (f read.1, rest)) = .ok (v, rest) ↔
      ∃ s, read = (s, .ok rest) ∧ v = f s := by
  obtain ⟨s, _ | rest'⟩ := read
  · simp [Except.map]
  · simp [Except.map, and_comm, eq_comm]

theorem array_eq_ok_iff (h : ValueReader value Inner) :
    array value cs = .ok (v, rest) ↔
      (∃ bs, Blanks bs ∧ cs = bs ++ ']' :: rest ∧ v = .array []) ∨
        ∃ ts vs, Entries Inner ts vs ∧ cs = ts ++ ']' :: rest ∧ v = .array vs := by
  simp only [array, map_fold_eq_ok_iff (f := fun vs : List Value => .array vs.reverse),
    (itemReader h).fold_eq_ok_iff]
  constructor
  · rintro ⟨_, ⟨bs, hbs, hcs, rfl⟩ | ⟨ts, vs, hts, hcs, rfl⟩, rfl⟩
    · exact .inl ⟨bs, hbs, hcs, rfl⟩
    · exact .inr ⟨ts, vs, hts, hcs, by simp⟩
  · rintro (⟨bs, hbs, hcs, rfl⟩ | ⟨ts, vs, hts, hcs, rfl⟩)
    · exact ⟨_, .inl ⟨bs, hbs, hcs, rfl⟩, rfl⟩
    · exact ⟨_, .inr ⟨ts, vs, hts, hcs, rfl⟩, by simp⟩

theorem object_eq_ok_iff (h : ValueReader value Inner) :
    object value cs = .ok (v, rest) ↔
      (∃ bs, Blanks bs ∧ cs = bs ++ '}' :: rest ∧ v = .object []) ∨
        ∃ ts ms, Entries (MemberText Inner) ts ms ∧ cs = ts ++ '}' :: rest ∧
          v = .object (Members.ofList ms) := by
  simp only [object, map_fold_eq_ok_iff (f := fun ms => .object ms),
    (memberReader h).fold_eq_ok_iff]
  constructor
  · rintro ⟨_, ⟨bs, hbs, hcs, rfl⟩ | ⟨ts, ms, hts, hcs, rfl⟩, rfl⟩
    · exact .inl ⟨bs, hbs, hcs, rfl⟩
    · exact .inr ⟨ts, ms, hts, hcs, rfl⟩
  · rintro (⟨bs, hbs, hcs, rfl⟩ | ⟨ts, ms, hts, hcs, rfl⟩)
    · exact ⟨_, .inl ⟨bs, hbs, hcs, rfl⟩, rfl⟩
    · exact ⟨_, .inr ⟨ts, ms, hts, hcs, rfl⟩, rfl⟩

end

/-! ## Values -/

theorem value_blanks_append (ha : Blanks a) : value room (a ++ cs) = value room cs := by
  rw [value.eq_def, skipBlanks_of_blanks ha, ← value.eq_def]

theorem value_eq_scalar {c : Char} (h : skipBlanks cs = c :: rest) (hc : c ≠ '[') (hc' : c ≠ '{') :
    value room cs = scalar (c :: rest) := by
  unfold value
  rw [h]
  split <;> simp_all

theorem value_scalar (h : ScalarText t v) : value room (t ++ rest) = scalar (t ++ rest) := by
  cases h with
  | null | true | false | string => exact value_eq_scalar rfl (by decide) (by decide)
  | number ht hn =>
    obtain ⟨c, t', rfl, hc⟩ := starts_literal ht
    obtain ⟨hblank, hbracket, -, hbrace, -⟩ := ne_of_starts_literal hc
    exact value_eq_scalar (skipBlanks_append_cons .nil hblank) hbracket hbrace

theorem valueReader_zero : ValueReader (value 0) ScalarText where
  sound := by
    intro cs v rest h
    obtain ⟨a, ha, hcs⟩ := exists_blanks cs
    unfold value at h
    split at h
    · cases h
    · cases h
    · contradiction
    · contradiction
    · obtain ⟨t, ht, hv⟩ := scalar_sound h
      exact ⟨a, t, by rw [← ht, ← hcs], ha, hv⟩
  complete := by
    intro a t v rest ha ht hr
    rw [value_blanks_append ha, value_scalar ht]
    exact scalar_complete ht hr
  starts := startsValue_scalar

/-- One more bracket may be open around what the reader agrees on. -/
theorem ValueReader.succ (h : ValueReader (value room) (ValueText room)) :
    ValueReader (value (room + 1)) (NestedText (ValueText room)) where
  sound := by
    intro cs v rest hread
    obtain ⟨a, ha, hcs⟩ := exists_blanks cs
    unfold value at hread
    split at hread
    · contradiction
    · contradiction
    · next heq hskip =>
      obtain rfl := Nat.succ.inj heq
      rw [hskip] at hcs
      rcases (array_eq_ok_iff h).1 hread with ⟨bs, hbs, rfl, rfl⟩ | ⟨ts, vs, hts, rfl, rfl⟩
      · exact ⟨a, _, by simp [hcs], ha, .emptyArray hbs⟩
      · exact ⟨a, _, by simp [hcs], ha, .array hts⟩
    · next heq hskip =>
      obtain rfl := Nat.succ.inj heq
      rw [hskip] at hcs
      rcases (object_eq_ok_iff h).1 hread with ⟨bs, hbs, rfl, rfl⟩ | ⟨ts, ms, hts, rfl, rfl⟩
      · exact ⟨a, _, by simp [hcs], ha, .emptyObject hbs⟩
      · exact ⟨a, _, by simp [hcs], ha, .object hts (Members.merged_iff.2 rfl)⟩
    · obtain ⟨t, ht, hv⟩ := scalar_sound hread
      exact ⟨a, t, by rw [← ht, ← hcs], ha, .scalar hv⟩
  complete := by
    intro a t v rest ha ht hr
    rw [value_blanks_append ha]
    cases ht with
    | scalar hs =>
      rw [value_scalar hs]
      exact scalar_complete hs hr
    | emptyArray hbs => exact (array_eq_ok_iff h).2 (.inl ⟨_, hbs, by simp, rfl⟩)
    | array hts => exact (array_eq_ok_iff h).2 (.inr ⟨_, _, hts, by simp, rfl⟩)
    | emptyObject hbs => exact (object_eq_ok_iff h).2 (.inl ⟨_, hbs, by simp, rfl⟩)
    | object hts hk =>
      exact (object_eq_ok_iff h).2 (.inr ⟨_, _, hts, by simp, by rw [Members.merged_iff.1 hk]⟩)
  starts := startsValue_nested

theorem valueReader (room : Nat) : ValueReader (value room) (ValueText room) := by
  induction room with
  | zero => exact valueReader_zero
  | succ room ih => exact ih.succ

/-! ## Whole texts -/

/-- An entry with blanks around it. -/
def Spaced {α : Type} (Entry : List Char → α → Prop) (t : List Char) (x : α) : Prop :=
  ∃ a u b, t = a ++ (u ++ b) ∧ Blanks a ∧ Entry u x ∧ Blanks b

/-- A value with blanks around it is read, and nothing is left after it. -/
theorem spaced_valueText_iff :
    Spaced (ValueText room) cs v ↔ ∃ rest, value room cs = .ok (v, rest) ∧ finish rest = .ok () := by
  constructor
  · rintro ⟨a, t, b, rfl, ha, ht, hb⟩
    have hr : NoLiteral b := by
      rw [← List.append_nil b]
      exact hb.noLiteral (by simp [NoLiteral])
    exact ⟨b, (valueReader room).complete ha ht fun _ => hr, finish_eq_ok_iff.2 hb⟩
  · rintro ⟨b, hv, hb⟩
    obtain ⟨a, t, rfl, ha, ht⟩ := (valueReader room).sound hv
    exact ⟨a, t, b, rfl, ha, ht, finish_eq_ok_iff.1 hb⟩

theorem document_eq_ok_iff : document cs = .ok v ↔ DocumentText cs v := by
  have hspaced : DocumentText cs v ↔
      ∃ rest, value maxDepth cs = .ok (v, rest) ∧ finish rest = .ok () := spaced_valueText_iff
  rw [hspaced]
  constructor
  · intro h
    obtain ⟨⟨v', rest⟩, hv, h⟩ := bind_eq_ok_iff.1 h
    obtain ⟨⟨⟩, hfinish, heq⟩ := bind_eq_ok_iff.1 h
    cases heq
    exact ⟨rest, hv, hfinish⟩
  · rintro ⟨rest, hv, hfinish⟩
    exact bind_eq_ok_iff.2 ⟨_, hv, bind_eq_ok_iff.2 ⟨_, hfinish, rfl⟩⟩

/-- A text denotes at most one value. -/
theorem DocumentText.unique {v' : Value} (h : DocumentText cs v) (h' : DocumentText cs v') :
    v = v' := by
  rw [← document_eq_ok_iff] at h h'
  rw [h] at h'
  exact Except.ok.inj h'

end LayerSize.Json
