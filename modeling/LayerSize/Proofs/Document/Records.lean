import LayerSize.Proofs.Document.Parts
import LayerSize.Proofs.Json.Skipping
import LayerSize.Proofs.PixelSize.Outcomes

/-!
# Reading records

A record is read for its member `size`.  The members of other names need the form of a member
and are passed over; the size reads as it does by itself.

* `takesAll_others`: members of other names change nothing;
* `readRecord_found`, `readRecord_refused`: a record with one size;
* `readRecord_missing`, `readRecord_duplicate`: records with none, or with several;
* `readRecord_embeds`: the outcomes of a record.
-/

namespace LayerSize.Document

open Json (Blanks Entries Fault IsJson MemberText NoLiteral QuotedText Spaced Takes TakesAll Value
  ValueText WellFormed)
open PixelSize (TextError ofText ofValue)

variable {a b c t m cs rest : List Char} {pre post ms : List (List Char)} {v : Value}
  {s : PixelSize} {r : Refusal} {name : String} {found : Option PixelSize}

/-! ## Members -/

/-- A member of the given name, with blanks around its parts.  What comes after the colon is the
text of its value. -/
def Labelled (name : String) (t m : List Char) : Prop :=
  ∃ a q b, m = a ++ '"' :: (q ++ '"' :: (b ++ ':' :: t)) ∧ Blanks a ∧
    QuotedText q name.toList ∧ Blanks b

/-- A member of another name than `size`, which has the form of a member. -/
def OtherMember (m : List Char) : Prop :=
  ∃ name t, Labelled name t m ∧ name ≠ "size" ∧ WellFormed t

/-- The name and the colon of a member are read, wherever the member stands. -/
theorem Labelled.read (h : Labelled name t m) (rest : List Char) :
    ∃ u cs, Json.Brackets.object.first (m ++ rest) = .ok (.entry u) ∧
      malformed (Json.name u) = .ok (name, cs) ∧ malformed (Json.colon cs) = .ok (t ++ rest) := by
  obtain ⟨a, q, b, rfl, ha, hq, hb⟩ := h
  have hname : Json.name ('"' :: (q ++ '"' :: (b ++ ':' :: (t ++ rest)))) =
      .ok (name, b ++ ':' :: (t ++ rest)) :=
    Json.name_eq_ok_iff.2 ⟨q, name.toList, rfl, String.ofList_toList.symm, hq⟩
  have hcolon : Json.colon (b ++ ':' :: (t ++ rest)) = .ok (t ++ rest) :=
    Json.colon_eq_ok_iff.2 ⟨b, hb, rfl⟩
  refine ⟨'"' :: (q ++ '"' :: (b ++ ':' :: (t ++ rest))), b ++ ':' :: (t ++ rest), ?_, ?_, ?_⟩
  · have happ : a ++ '"' :: (q ++ '"' :: (b ++ ':' :: t)) ++ rest =
        a ++ '"' :: (q ++ '"' :: (b ++ ':' :: (t ++ rest))) := by simp
    rw [happ]
    exact Json.Brackets.first_eq_entry_iff.2
      ⟨a, ha, rfl, Json.startsValue_cons rfl (by decide) (by decide) _⟩
  · rw [hname]
    rfl
  · rw [hcolon]
    rfl

theorem takes_other (h : OtherMember m) (found : Option PixelSize) :
    Takes .object recordMember found m found := by
  obtain ⟨name, t, hm, hname, ht⟩ := h
  intro rest hrest
  obtain ⟨u, cs, hfirst, hu, hcs⟩ := hm.read rest
  obtain ⟨bs, hbs, hskip⟩ := Json.skipValue_append ht hrest
  refine ⟨u, bs, hfirst, ?_, hbs⟩
  rw [recordMember, hu]
  show (if name = "size" then _ else _) = _
  rw [if_neg hname, hcs]
  show (malformed (Json.skipValue (t ++ rest)) >>= _) = _
  rw [hskip]
  rfl

/-- Induction on the members. -/
theorem takesAll_others (h : ∀ m ∈ ms, OtherMember m) (found : Option PixelSize) :
    TakesAll .object recordMember found ms found := by
  induction ms with
  | nil => exact .nil
  | cons m ms ih =>
    have htail := ih fun m' hm' => h m' (List.mem_cons_of_mem _ hm')
    exact .cons (takes_other (h m (List.mem_cons_self ..)) found) htail

/-- Where no size was found before, the size is looked for in the value of the member. -/
theorem recordMember_size (h : Labelled "size" t m) (ht : Spaced (ValueText innerDepth) t v)
    (hrest : NoLiteral rest) :
    ∃ u bs, Blanks bs ∧ Json.Brackets.object.first (m ++ rest) = .ok (.entry u) ∧
      recordMember none u = match ofValue v with
        | .error r => .error (.here (.refused r) (settleInRecord rest))
        | .ok s => .ok (some s, bs ++ rest) := by
  have hsettle : ∀ bs cs, Blanks bs → settleInRecord (bs ++ cs) = settleInRecord cs := by
    intro bs cs hbs
    unfold settleInRecord
    rw [Json.skipBlanks_of_blanks hbs]
  obtain ⟨u, cs, hfirst, hu, hcs⟩ := h.read rest
  obtain ⟨bs, hbs, hread⟩ := innerSize_spaced hsettle ht hrest
  refine ⟨u, bs, hbs, hfirst, ?_⟩
  rw [recordMember, hu]
  show (malformed (Json.colon cs) >>= _) = _
  rw [hcs]
  show (innerSize settleInRecord (t ++ rest) >>= _) = _
  rw [hread]
  cases ofValue v with
  | error r => rfl
  | ok s => rfl

theorem takes_size (h : Labelled "size" t m) (ht : IsJson innerDepth t) (hs : ofText t = .ok s) :
    Takes .object recordMember none m (some s) := by
  obtain ⟨v, hv, htext⟩ := ofText_of_isJson ht
  have hvalue : ofValue v = .ok s := mapError_eq_ok_iff.1 (htext ▸ hs)
  intro rest hrest
  obtain ⟨u, bs, hbs, hfirst, hread⟩ := recordMember_size h hv hrest
  refine ⟨u, bs, hfirst, ?_, hbs⟩
  rw [hread, hvalue]

/-- A second size is refused for its name already. -/
theorem recordMember_duplicate (h : Labelled "size" t m) (s : PixelSize) (rest : List Char) :
    ∃ u cs, Json.Brackets.object.first (m ++ rest) = .ok (.entry u) ∧
      recordMember (some s) u = .error (.here .duplicateSize (settleInRecord cs)) := by
  obtain ⟨u, cs, hfirst, hu, -⟩ := h.read rest
  refine ⟨u, cs, hfirst, ?_⟩
  rw [recordMember, hu]
  rfl

/-! ## Records -/

theorem readRecord_opened (ha : Blanks a) (rest : List Char) :
    (readRecord (opened '{' a b ms ++ rest)).result =
      let read := Json.Brackets.object.fold .malformed recordMember none
        (b ++ ([','].intercalate ms ++ rest))
      recordSize (opened '{' a b ms ++ rest) read.1 read.2 := by
  rw [readRecord, skipBlanks_opened ha rfl]
  rfl

/-- One member is a size. -/
theorem readRecord_found (ha : Blanks a) (hb : Blanks b) (hc : Blanks c)
    (hpre : ∀ m ∈ pre, OtherMember m) (hpost : ∀ m ∈ post, OtherMember m)
    (hm : Labelled "size" t m) (ht : IsJson innerDepth t) (hs : ofText t = .ok s) :
    (readRecord (opened '{' a b (pre ++ m :: post) ++ '}' :: c)).result = .ok s := by
  have hall : TakesAll .object recordMember none (pre ++ m :: post) (some s) :=
    (takesAll_others hpre none).append (.cons (takes_size hm ht hs) (takesAll_others hpost _))
  have hfold : Json.Brackets.object.fold .malformed recordMember none
      (b ++ ([','].intercalate (pre ++ m :: post) ++ '}' :: c)) = (some s, .ok c) :=
    hall.fold_closed hb c
  rw [readRecord_opened ha, hfold]
  exact close_of_blanks hc

/-- The member that should be a size is none. -/
theorem readRecord_refused (ha : Blanks a) (hb : Blanks b) (hpre : ∀ m ∈ pre, OtherMember m)
    (hm : Labelled "size" t m) (ht : Spaced (ValueText innerDepth) t v)
    (hr : ofValue v = .error r) (hrest : NoLiteral rest) :
    (readRecord (opened '{' a b (pre ++ [m]) ++ rest)).result =
      .error (.ofFault (opened '{' a b (pre ++ [m]) ++ rest)
        (.here (.refused r) (settleInRecord rest))) := by
  obtain ⟨u, bs, -, hfirst, hread⟩ := recordMember_size hm ht hrest
  rw [hr] at hread
  have hfold : Json.Brackets.object.fold .malformed recordMember none
      (b ++ ([','].intercalate (pre ++ [m]) ++ rest)) =
        (none, .error (.here (.refused r) (settleInRecord rest))) := by
    rw [Json.intercalate_concat, List.append_assoc]
    exact (takesAll_others hpre none).fold_stopped hb hfirst hread
  rw [readRecord_opened ha, hfold]
  rfl

/-- No member is a size. -/
theorem readRecord_missing (ha : Blanks a) (hb : Blanks b) (hms : ∀ m ∈ ms, OtherMember m)
    (c : List Char) :
    RefusedWith (readRecord (opened '{' a b ms ++ '}' :: c)).result "missing field `size`" := by
  have hfold : Json.Brackets.object.fold .malformed recordMember none
      (b ++ ([','].intercalate ms ++ '}' :: c)) = (none, .ok c) :=
    (takesAll_others hms none).fold_closed hb c
  rw [readRecord_opened ha, hfold]
  exact refusedWith_ofFault (.here .missingSize c) rfl

/-- A size is found, and then another member of its name. -/
theorem readRecord_duplicate {t' m' : List Char} (ha : Blanks a) (hb : Blanks b)
    (hpre : ∀ m ∈ pre, OtherMember m) (hpost : ∀ m ∈ post, OtherMember m)
    (hm : Labelled "size" t m) (ht : IsJson innerDepth t) (hs : ofText t = .ok s)
    (hm' : Labelled "size" t' m') (rest : List Char) :
    RefusedWith (readRecord (opened '{' a b (pre ++ m :: post ++ [m']) ++ rest)).result
      "duplicate field `size`" := by
  have hall : TakesAll .object recordMember none (pre ++ m :: post) (some s) :=
    (takesAll_others hpre none).append (.cons (takes_size hm ht hs) (takesAll_others hpost _))
  obtain ⟨u, cs, hfirst, hread⟩ := recordMember_duplicate hm' s rest
  have hfold : Json.Brackets.object.fold .malformed recordMember none
      (b ++ ([','].intercalate (pre ++ m :: post ++ [m']) ++ rest)) =
        (some s, .error (.here .duplicateSize (settleInRecord cs))) := by
    rw [Json.intercalate_concat, List.append_assoc]
    exact hall.fold_stopped hb hfirst hread
  rw [readRecord_opened ha, hfold]
  exact refusedWith_ofFault (.here .duplicateSize (settleInRecord cs)) rfl

/-- The last value of a name holds the component. -/
def LastHolds (name : String) (ms : List (String × Value)) (c : Int32) : Prop :=
  (Json.Members.get? name ms.reverse).bind PixelSize.component? = some c

/-- Where a width or a height is repeated inside a size, the last one counts. -/
theorem ofText_object {x us y : List Char} {ms : List (String × Value)} (hx : Blanks x)
    (hy : Blanks y) (h : Entries (MemberText (ValueText 125)) us ms) :
    ofText (x ++ '{' :: (us ++ '}' :: y)) = .ok s ↔
      LastHolds "width" ms s.width ∧ LastHolds "height" ms s.height := by
  have hobject : ValueText 126 ('{' :: (us ++ ['}'])) (.object (Json.Members.ofList ms)) :=
    .object h (Json.Members.merged_iff.2 rfl)
  have htext : Spaced (ValueText 126) (x ++ '{' :: (us ++ '}' :: y))
      (.object (Json.Members.ofList ms)) := ⟨x, _, y, by simp, hx, hobject, hy⟩
  rw [ofText_of_spaced (by decide) htext, LastHolds, LastHolds, ← Json.Members.get?_ofList,
    ← Json.Members.get?_ofList, ← PixelSize.ofValue_object_eq_ok_iff, mapError_eq_ok_iff]

section

variable (ha : Blanks a) (hb : Blanks b) (hpre : ∀ m ∈ pre, OtherMember m)
  (hpost : ∀ m ∈ post, OtherMember m) (hm : Labelled "size" t m) (ht : IsJson innerDepth t)

include ha hb hpre hm ht

theorem refusedWith_of_ofText {e : TextError} (post : List (List Char)) (c : List Char)
    (he : ofText t = .error e) :
    RefusedWith (readRecord (opened '{' a b (pre ++ m :: post) ++ '}' :: c)).result e.message := by
  obtain ⟨v, hv, htext⟩ := ofText_of_isJson ht
  obtain ⟨r, rfl, hr⟩ := mapError_eq_error_iff.1 (htext ▸ he)
  obtain ⟨rest, happ, hrest⟩ := exists_opened_append '{' a b pre m post ('}' :: c)
  have hliteral : NoLiteral rest := by
    rcases hrest with ⟨cs, rfl⟩ | rfl <;> simp [NoLiteral]
  rw [happ, readRecord_refused ha hb hpre hm hv hr hliteral]
  exact refusedWith_ofFault _ rfl

include hpost

/-- A record with one size is read exactly when the size is, and as the same size. -/
theorem readRecord_eq_ok_iff (hc : Blanks c) :
    (readRecord (opened '{' a b (pre ++ m :: post) ++ '}' :: c)).result = .ok s ↔
      ofText t = .ok s := by
  constructor
  · intro h
    cases htext : ofText t with
    | ok s' =>
      rw [readRecord_found ha hb hc hpre hpost hm ht htext] at h
      cases h
      rfl
    | error e =>
      obtain ⟨e', place, hresult, -⟩ := refusedWith_of_ofText ha hb hpre hm ht post c htext
      rw [hresult] at h
      cases h
  · exact readRecord_found ha hb hc hpre hpost hm ht

end

/-- A record with one size reads as the size does by itself, whatever its other members are.
Without a size it lacks a field, and after a size no second one may follow; a member of the
size, however, may be repeated, and the last one counts. -/
theorem readRecord_embeds (ha : Blanks a) (hb : Blanks b) (hc : Blanks c)
    (hpre : ∀ m ∈ pre, OtherMember m) (hpost : ∀ m ∈ post, OtherMember m) :
    (∀ t m, IsJson 126 t → Labelled "size" t m →
      (∀ s, (readRecord (opened '{' a b (pre ++ m :: post) ++ '}' :: c)).result = .ok s ↔
          ofText t = .ok s) ∧
        (∀ e, ofText t = .error e →
          RefusedWith (readRecord (opened '{' a b (pre ++ m :: post) ++ '}' :: c)).result
            e.message) ∧
        (∀ x us y ms, Blanks x → Blanks y → Entries (MemberText (ValueText 125)) us ms →
          t = x ++ '{' :: (us ++ '}' :: y) → ∀ s,
            ((readRecord (opened '{' a b (pre ++ m :: post) ++ '}' :: c)).result = .ok s ↔
              LastHolds "width" ms s.width ∧ LastHolds "height" ms s.height)) ∧
        ∀ s, ofText t = .ok s → ∀ t' m' post' rest, Labelled "size" t' m' →
          RefusedWith
            (readRecord (opened '{' a b (pre ++ m :: (post ++ m' :: post')) ++ rest)).result
            "duplicate field `size`") ∧
      RefusedWith (readRecord (opened '{' a b pre ++ '}' :: c)).result "missing field `size`" := by
  refine ⟨fun t m ht hm => ?_, readRecord_missing ha hb hpre c⟩
  have hiff : ∀ s, (readRecord (opened '{' a b (pre ++ m :: post) ++ '}' :: c)).result = .ok s ↔
      ofText t = .ok s := fun s => readRecord_eq_ok_iff ha hb hpre hpost hm ht hc
  refine ⟨hiff, fun e he => refusedWith_of_ofText ha hb hpre hm ht post c he, ?_, ?_⟩
  · rintro x us y ms hx hy hms rfl s
    rw [hiff s, ofText_object hx hy hms]
  · intro s hs t' m' post' rest hm'
    have hsplit : pre ++ m :: (post ++ m' :: post') = pre ++ m :: post ++ m' :: post' := by simp
    obtain ⟨rest', happ, -⟩ := exists_opened_append '{' a b (pre ++ m :: post) m' post' rest
    rw [hsplit, happ]
    exact readRecord_duplicate ha hb hpre hpost hm ht hs hm' rest'

/-- A record with members before and after its size, and with a repeated width. -/
theorem readRecord_repeated :
    (readRecord (opened '{' [' '] ['\n'] ["\"id\": [1, \x7b\"size\": 2.5\x7d]".toList,
      "\"size\":\x7b\"width\": 1, \"height\": 2, \"width\": \" 5 \"\x7d ".toList,
      "\"\": null".toList] ++ ['}', '\t'])).result = .ok ⟨5, 2⟩ := by
  have hone : Blanks [' '] := by simp [Blanks]
  have hnewline : Blanks ['\n'] := by simp [Blanks]
  have htab : Blanks ['\t'] := by simp [Blanks]
  have hpre : ∀ m ∈ ["\"id\": [1, \x7b\"size\": 2.5\x7d]".toList], OtherMember m := by
    intro m hm
    obtain rfl := List.mem_singleton.1 hm
    have htext : IsJson 126 " [1, \x7b\"size\": 2.5\x7d]".toList := by decide +kernel
    exact ⟨"id", _, ⟨[], ['i', 'd'], [], rfl, .nil, Json.quotedText_self (by simp), .nil⟩,
      by decide, htext.wellFormed⟩
  have hpost : ∀ m ∈ ["\"\": null".toList], OtherMember m := by
    intro m hm
    obtain rfl := List.mem_singleton.1 hm
    have htext : IsJson 126 " null".toList := by decide +kernel
    exact ⟨"", _, ⟨[], [], [], rfl, .nil, .nil, .nil⟩, by decide, htext.wellFormed⟩
  have hsize : Labelled "size" "\x7b\"width\": 1, \"height\": 2, \"width\": \" 5 \"\x7d ".toList
      "\"size\":\x7b\"width\": 1, \"height\": 2, \"width\": \" 5 \"\x7d ".toList :=
    ⟨[], ['s', 'i', 'z', 'e'], [], rfl, .nil, Json.quotedText_self (by simp), .nil⟩
  have hembeds := readRecord_embeds hone hnewline htab hpre hpost
  exact ((hembeds.1 _ _ (by decide +kernel) hsize).1 _).2 (by decide +kernel)

end LayerSize.Document
