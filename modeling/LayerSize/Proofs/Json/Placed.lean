import LayerSize.Proofs.Json.Conversion
import LayerSize.Proofs.Json.Joined
import LayerSize.Proofs.Json.Objects

/-!
# Texts in the place of a value

An object in which any text stands where one member has its value.  If the text is that of a
value, the object has this member between the others; if it is a number literal that denotes no
number, the whole text is no JSON, whatever the members before it and after it are.

* `NamedText`: a member with a text in the place of its value;
* `ObjectWith`: an object with such a member;
* `ObjectWith.objectText`, `ObjectWith.document_error`: the two cases.
-/

namespace LayerSize.Json

variable {a b c m t u rest : List Char} {ts : List (List Char)} {name : String} {v : Value}
  {pre post : List (String × Value)} {l : Literal} {room : Nat}

/-! ## Members -/

/-- A member of the name, with blanks around its parts, and with the text `u` in the place of its
value. -/
def NamedText (name : String) (u m : List Char) : Prop :=
  ∃ a q b c d, m = a ++ '"' :: (q ++ '"' :: (b ++ ':' :: (c ++ (u ++ d)))) ∧ Blanks a ∧
    QuotedText q name.toList ∧ Blanks b ∧ Blanks c ∧ Blanks d

theorem NamedText.spaced {Inner : List Char → Value → Prop} (h : NamedText name u m)
    (hu : Inner u v) : Spaced (MemberText Inner) m (name, v) := by
  obtain ⟨a, q, b, c, d, rfl, ha, hq, hb, hc, hd⟩ := h
  have hm : MemberText Inner ('"' :: (q ++ '"' :: (b ++ ':' :: (c ++ u)))) (name, v) := by
    have hm := MemberText.mk hq hb hc hu
    rwa [String.ofList_toList] at hm
  exact ⟨a, _, d, by simp, ha, hm, hd⟩

/-! ## A literal that denotes no number -/

section

variable (hu : LiteralText u l) (hn : ¬ ∃ n, l.Denotes n)

include hu hn

theorem value_of_not_denotes (hrest : NoLiteral rest) :
    ∃ fault, value room (u ++ rest) = .error fault := by
  cases hread : value room (u ++ rest) with
  | error fault => exact ⟨fault, rfl⟩
  | ok read =>
    obtain ⟨c, u', rfl, hc⟩ := starts_literal hu
    obtain ⟨hblank, hbracket, -, hbrace, -⟩ := ne_of_starts_literal hc
    have hskip : skipBlanks (c :: u' ++ rest) = c :: (u' ++ rest) :=
      skipBlanks_append_cons .nil hblank
    rw [value_eq_scalar hskip hbracket hbrace, scalar_number hc] at hread
    obtain ⟨⟨l', rest'⟩, hl, hread⟩ := bind_eq_ok_iff.1 hread
    have hl' : Literal.scan .endOfValue (c :: u' ++ rest) = .ok (l, rest) :=
      Literal.scan_complete hu hrest
    rw [List.cons_append, hl] at hl'
    cases hl'
    obtain ⟨n, hnumber, -⟩ := bind_eq_ok_iff.1 hread
    exact absurd ⟨n, Literal.number_eq_ok_iff.1 hnumber⟩ hn

/-- The member is found, and its value is not. -/
theorem NamedText.member_error (h : NamedText name u m) (hrest : NoLiteral rest) :
    ∃ cs, Brackets.object.first (m ++ rest) = .ok (.entry cs) ∧
      ∀ ms, ∃ fault, member (value room) ms cs = .error fault := by
  obtain ⟨a, q, b, c, d, rfl, ha, hq, hb, hc, hd⟩ := h
  obtain ⟨fault, hvalue⟩ : ∃ fault, value room (u ++ (d ++ rest)) = .error fault :=
    value_of_not_denotes hu hn (hd.noLiteral hrest)
  have hname : Json.name ('"' :: (q ++ '"' :: (b ++ ':' :: (c ++ (u ++ (d ++ rest)))))) =
      .ok (name, b ++ ':' :: (c ++ (u ++ (d ++ rest)))) :=
    name_eq_ok_iff.2 ⟨q, name.toList, rfl, String.ofList_toList.symm, hq⟩
  have hcolon : colon (b ++ ':' :: (c ++ (u ++ (d ++ rest)))) = .ok (c ++ (u ++ (d ++ rest))) :=
    colon_eq_ok_iff.2 ⟨b, hb, rfl⟩
  refine ⟨'"' :: (q ++ '"' :: (b ++ ':' :: (c ++ (u ++ (d ++ rest))))), ?_, fun ms => ⟨fault, ?_⟩⟩
  · rw [Brackets.first_eq_entry_iff]
    exact ⟨a, ha, by simp, startsValue_cons rfl (by decide) (by decide) _⟩
  · rw [member, hname]
    show (colon _ >>= _) = _
    rw [hcolon]
    show (value room _ >>= _) = _
    rw [value_blanks_append hc, hvalue]
    rfl

end

/-! ## Objects -/

/-- The text is an object with blanks around it, in which the text `u` stands in the place of the
value of a member of the name, after some members and before others. -/
def ObjectWith (name : String) (u : List Char) (pre post : List (String × Value))
    (t : List Char) : Prop :=
  ∃ a ts m ts' b, t = a ++ '{' :: ([','].intercalate (ts ++ m :: ts') ++ '}' :: b) ∧ Blanks a ∧
    List.Forall₂ (Spaced (MemberText (ValueText 126))) ts pre ∧ NamedText name u m ∧
    List.Forall₂ (Spaced (MemberText (ValueText 126))) ts' post ∧ Blanks b

theorem ObjectWith.objectText (h : ObjectWith name u pre post t) (hu : ValueText 126 u v) :
    ObjectText t (pre ++ (name, v) :: post) := by
  obtain ⟨a, ts, m, ts', b, rfl, ha, hpre, hm, hpost, hb⟩ := h
  have hall : List.Forall₂ (Spaced (MemberText (ValueText 126))) (ts ++ m :: ts')
      (pre ++ (name, v) :: post) := List.rel_append hpre (.cons (hm.spaced hu) hpost)
  exact .members ha (entries_intercalate hall (by simp)) hb

/-- Induction on the members. -/
theorem EntryReader.takesAll {σ κ α : Type} {b : Brackets}
    {entry : σ → List Char → Except (Fault κ) (σ × List Char)} {Entry : List Char → α → Prop}
    {put : σ → α → σ} {xs : List α} (h : EntryReader b entry Entry put)
    (hts : List.Forall₂ (Spaced Entry) ts xs) (s : σ) :
    TakesAll b entry s ts (xs.foldl put s) := by
  induction hts generalizing s with
  | nil => exact .nil
  | cons ht hts ih =>
    obtain ⟨a, u, c, rfl, ha, hu, hc⟩ := ht
    exact .cons (h.takes ha hu hc s) (ih _)

theorem document_of_fold {fault : Fault Cause} {cs : List Char} (ha : Blanks a)
    (h : (Brackets.object.fold id (member (value 126)) [] cs).2 = .error fault) :
    document (a ++ '{' :: cs) = .error fault := by
  have hvalue : value maxDepth (a ++ '{' :: cs) = .error fault := by
    rw [value_blanks_append ha]
    show object (value 126) cs = _
    rw [object, h]
    rfl
  rw [document, hvalue]
  rfl

theorem ObjectWith.document_error (h : ObjectWith name u pre post t) (hu : LiteralText u l)
    (hn : ¬ ∃ n, l.Denotes n) : ∃ fault, document t = .error fault := by
  obtain ⟨a, ts, m, ts', b, rfl, ha, hpre, hm, hpost, hb⟩ := h
  obtain ⟨rest, hrest, hcases⟩ := exists_intercalate_append m ts' ('}' :: b)
  have hnoLiteral : NoLiteral rest := by
    rcases hcases with ⟨cs, rfl⟩ | rfl
    · simp [NoLiteral]
    · simp [NoLiteral]
  obtain ⟨cs, hfirst, hmember⟩ : ∃ cs, Brackets.object.first (m ++ rest) = .ok (.entry cs) ∧
      ∀ ms, ∃ fault, member (value 126) ms cs = .error fault := hm.member_error hu hn hnoLiteral
  obtain ⟨fault, hfault⟩ := hmember (pre.foldl (fun ms m => Members.insert m.1 m.2 ms) [])
  have htaken := (memberReader (valueReader 126)).takesAll hpre []
  have hfold : Brackets.object.fold id (member (value 126)) []
      ([] ++ (withCommas ts ++ (m ++ rest))) = (_, .error fault) :=
    htaken.fold_stopped .nil hfirst hfault
  refine ⟨fault, document_of_fold ha ?_⟩
  rw [intercalate_append_cons, List.append_assoc, hrest]
  exact congrArg Prod.snd hfold

end LayerSize.Json
