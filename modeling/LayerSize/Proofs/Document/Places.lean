import LayerSize.Proofs.Document.Agreement
import LayerSize.Proofs.Document.Parts
import LayerSize.Proofs.Json.PromptValues

/-!
# Where a refusal is placed

When an item of a list is refused, the reader goes on a little before it reports the place: past
blanks and the closing bracket, or past blanks, one comma and blanks.  The place still tells which
item it was, whatever the rest of the text is.  The refusal of a document that is one size has no
place, and a document that is no list at all is refused for its kind, not for an item.

* `ItemAt`: where an item stands in a text, which may be malformed further on, so that the item is
  the longest value there;
* `ItemAt.later`: of two items in one text the later one comes after a comma;
* `readList_refused`: the item that a list is refused for;
* `ItemAt.locates`: the place is between that item and the next one;
* `refusals_placed`: lists and single sizes side by side.
-/

namespace LayerSize

theorem Text.byteCount_le_of_isSuffix {cs ds : List Char} (h : cs <:+ ds) :
    byteCount cs ≤ byteCount ds := by
  obtain ⟨p, rfl⟩ := h
  rw [byteCount_append]
  omega

namespace Document

open Json (Blanks Brackets Fault IsJson Spaced Value ValueText withCommas)
open PixelSize (ofText ofValue)

variable {a b d u u' before before' cs rest rest' : List Char}
  {earlier earlier' : List (List Char)} {v v' : Value} {c : Char} {e : Error}

/-! ## Items and where they stand -/

/-- What stands before an item of the list that a text starts with: blanks, the opening bracket,
the earlier items with a comma after each, and blanks. -/
def StandsBefore (before : List Char) (earlier : List (List Char)) : Prop :=
  (∀ t ∈ earlier, IsJson innerDepth t) ∧
    ∃ a b, Blanks a ∧ Blanks b ∧ before = a ++ '[' :: (withCommas earlier ++ b)

/-- Of the texts of values that `u ++ rest` starts with, `u` is the longest one. -/
structure LongestValue (u rest : List Char) (v : Value) : Prop where
  text : ValueText innerDepth u v
  longest : ∀ u' rest' v', u ++ rest = u' ++ rest' → ValueText innerDepth u' v' →
    u'.length ≤ u.length

/-- An item of the list that a text starts with.  Anything may come after it. -/
structure ItemAt (d : List Char) (earlier : List (List Char)) (before u rest : List Char) :
    Prop where
  text : d = before ++ (u ++ rest)
  stands : StandsBefore before earlier
  value : ∃ v, LongestValue u rest v

/-- The next item stands after this one, a comma and blanks. -/
theorem StandsBefore.next (h : StandsBefore before earlier) (hu : ValueText innerDepth u v)
    (ha : Blanks a) (hb : Blanks b) :
    ∃ t, Spaced (ValueText innerDepth) t v ∧
      StandsBefore (before ++ (u ++ (a ++ ',' :: b))) (earlier ++ [t]) := by
  obtain ⟨hjson, a', b', ha', hb', rfl⟩ := h
  have ht : Spaced (ValueText innerDepth) (b' ++ (u ++ a)) v := ⟨b', u, a, rfl, hb', hu, ha⟩
  have hjson' := List.forall_mem_append.2 ⟨hjson, List.forall_mem_singleton.2 ⟨v, ht⟩⟩
  exact ⟨_, ht, hjson', a', b, ha', hb, by simp [withCommas]⟩

theorem skipBlanks_value (ha : Blanks a) (hu : ValueText innerDepth u v) (rest : List Char) :
    Json.skipBlanks (a ++ (u ++ rest)) = u ++ rest := by
  obtain ⟨c, u', rfl, hc, -⟩ := (Json.valueReader innerDepth).starts hu .array
  exact Json.skipBlanks_append_cons ha hc

/-- What is read at the start of a text is the longest value there. -/
theorem longestValue_of_value (h : Json.value innerDepth (u ++ rest) = .ok (v, rest))
    (hu : ValueText innerDepth u v) : LongestValue u rest v :=
  ⟨hu, fun _ _ _ happ hu' => Json.length_le_of_value h hu' happ⟩

theorem LongestValue.unique (h : LongestValue u rest v) (h' : LongestValue u' rest' v')
    (happ : u ++ rest = u' ++ rest') : u = u' ∧ rest = rest' :=
  List.append_inj happ
    (Nat.le_antisymm (h'.longest u rest v happ.symm h.text) (h.longest u' rest' v' happ h'.text))

namespace ItemAt

/-- What stands between two items of one text. -/
theorem between (h : ItemAt d earlier before u rest) (h' : ItemAt d earlier' before' u' rest')
    (hle : earlier.length ≤ earlier'.length) :
    ∃ more a b, earlier' = earlier ++ more ∧ Blanks a ∧ Blanks b ∧
      a ++ (u ++ rest) = withCommas more ++ (b ++ (u' ++ rest')) := by
  obtain ⟨hjson, a, b, ha, hb, hbefore⟩ := h.stands
  obtain ⟨hjson', a', b', ha', hb', hbefore'⟩ := h'.stands
  have htext : a ++ '[' :: (withCommas earlier ++ (b ++ (u ++ rest))) =
      a' ++ '[' :: (withCommas earlier' ++ (b' ++ (u' ++ rest'))) := by
    have hd := h.text.symm.trans h'.text
    rw [hbefore, hbefore'] at hd
    simpa using hd
  have hskip := congrArg Json.skipBlanks htext
  rw [Json.skipBlanks_append_cons ha rfl, Json.skipBlanks_append_cons ha' rfl] at hskip
  obtain ⟨more, hmore, hrest⟩ := Json.withCommas_split hjson hjson' hle (List.cons.inj hskip).2
  exact ⟨more, b, b', hmore, hb, hb', hrest⟩

/-- Items with as many before them are the same one. -/
theorem unique (h : ItemAt d earlier before u rest) (h' : ItemAt d earlier' before' u' rest')
    (hlen : earlier.length = earlier'.length) : before = before' ∧ u = u' ∧ rest = rest' := by
  obtain ⟨more, a, b, hmore, ha, hb, htext⟩ := h.between h' (Nat.le_of_eq hlen)
  obtain rfl : more = [] := by
    rw [hmore, List.length_append] at hlen
    exact List.eq_nil_of_length_eq_zero (by omega)
  obtain ⟨v, hv⟩ := h.value
  obtain ⟨v', hv'⟩ := h'.value
  have hskip := congrArg Json.skipBlanks htext
  rw [Json.withCommas_nil, List.nil_append, skipBlanks_value ha hv.text,
    skipBlanks_value hb hv'.text] at hskip
  obtain ⟨rfl, rfl⟩ := hv.unique hv' hskip
  exact ⟨List.append_cancel_right (h.text.symm.trans h'.text), rfl, rfl⟩

/-- After an item that is not the last one comes a comma. -/
theorem later (h : ItemAt d earlier before u rest) (h' : ItemAt d earlier' before' u' rest')
    (hlt : earlier.length < earlier'.length) :
    ∃ bs more, Blanks bs ∧ rest = bs ++ ',' :: (more ++ (u' ++ rest')) := by
  obtain ⟨more, a, b, rfl, ha, hb, htext⟩ := h.between h' (Nat.le_of_lt hlt)
  cases more with
  | nil => simp at hlt
  | cons t ts =>
    obtain ⟨v, a', w, bs, rfl, ha', hw, hbs⟩ : IsJson innerDepth t := h'.stands.1 t (by simp)
    obtain ⟨v', hv'⟩ := h.value
    generalize htail : withCommas ts ++ (b ++ (u' ++ rest')) = tail
    have happ : withCommas ((a' ++ (w ++ bs)) :: ts) ++ (b ++ (u' ++ rest')) =
        a' ++ (w ++ (bs ++ ',' :: tail)) := by simp [← htail]
    have hskip := congrArg Json.skipBlanks (htext.trans happ)
    rw [skipBlanks_value ha hv'.text, skipBlanks_value ha' hw] at hskip
    -- both `u` and `w` are the longest text of a value at this place
    have hread : Json.value innerDepth (w ++ (bs ++ ',' :: tail)) = .ok (v, bs ++ ',' :: tail) :=
      (Json.valueReader innerDepth).complete .nil hw fun _ =>
        hbs.noLiteral (by simp [Json.NoLiteral])
    obtain ⟨-, hrest⟩ := hv'.unique (longestValue_of_value hread hw) hskip
    exact ⟨bs, withCommas ts ++ b, hbs, by rw [hrest, ← htail, List.append_assoc]⟩

end ItemAt

/-! ## The item that is refused -/

/-- The first item of a list that is refused; the earlier ones are sizes. -/
structure RefusedItem (d : List Char) (earlier : List (List Char)) (before u rest : List Char)
    (r : Refusal) : Prop extends ItemAt d earlier before u rest where
  sizes : ∀ t ∈ earlier, ∃ s, ofText t = .ok s
  refused : ofText u = .error (.refused r)

theorem category_malformed_ne (cause : Json.Cause) :
    (Problem.malformed cause).category ≠ .data := by
  change Category.ofCause cause ≠ .data
  unfold Category.ofCause
  split <;> simp

/-- An item is malformed, or the longest text of a value is taken and looked at as a size. -/
theorem listItem_cases (hcs : Brackets.array.Starts cs) (sizes : List PixelSize) :
    (∃ cause left, listItem sizes cs = .error ⟨.malformed cause, left⟩) ∨
      ∃ u rest v, cs = u ++ rest ∧ LongestValue u rest v ∧
        listItem sizes cs = match ofValue v with
          | .error r => .error (.here (.refused r) (settleInList rest))
          | .ok s => .ok (s :: sizes, rest) := by
  cases hread : Json.value innerDepth cs with
  | error fault =>
    left
    refine ⟨fault.cause, fault.left, ?_⟩
    rw [listItem, innerSize, hread]
    rfl
  | ok read =>
    right
    obtain ⟨v, rest⟩ := read
    obtain ⟨a, u, rfl, ha, hu⟩ := (Json.valueReader innerDepth).sound hread
    obtain rfl := Json.eq_nil_of_starts hcs ha
    rw [List.nil_append] at hread ⊢
    refine ⟨u, rest, v, rfl, longestValue_of_value hread hu, ?_⟩
    have hinner : innerSize settleInList (u ++ rest) = match ofValue v with
        | .error r => .error (.here (.refused r) (settleInList rest))
        | .ok s => .ok (s, rest) := by
      rw [innerSize, hread]
      rfl
    rw [listItem, hinner]
    cases ofValue v <;> rfl

/-- One item of a list that is refused in the end: it is the one, or it is a size, and the list
goes on after a comma. -/
theorem foldFrom_refused_cases {n : Nat} {sizes : List PixelSize} {fault : Fault Problem}
    (h : (Brackets.array.foldFrom .malformed listItem n sizes (.ok (.entry cs))).2 = .error fault)
    (hdata : fault.cause.category = .data) (hcs : Brackets.array.Starts cs) :
    ∃ n' u rest v, n = n' + 1 ∧ cs = u ++ rest ∧ LongestValue u rest v ∧
      ((∃ r, ofValue v = .error r ∧ fault = .here (.refused r) (settleInList rest)) ∨
        ∃ s a b cs', ofValue v = .ok s ∧ Blanks a ∧ Blanks b ∧ rest = a ++ ',' :: (b ++ cs') ∧
          Brackets.array.Starts cs' ∧
          (Brackets.array.foldFrom .malformed listItem n' (s :: sizes) (.ok (.entry cs'))).2 =
            .error fault) := by
  cases n with
  | zero =>
    cases h
    exact absurd hdata (category_malformed_ne _)
  | succ n =>
    unfold Brackets.foldFrom at h
    rcases listItem_cases hcs sizes with ⟨cause, left, hitem⟩ | ⟨u, rest, v, rfl, hu, hitem⟩
    · rw [hitem] at h
      cases h
      exact absurd hdata (category_malformed_ne _)
    · refine ⟨n, u, rest, v, rfl, rfl, hu, ?_⟩
      rw [hitem] at h
      cases hv : ofValue v with
      | error r =>
        rw [hv] at h
        cases h
        exact .inl ⟨r, rfl, rfl⟩
      | ok s =>
        rw [hv] at h
        dsimp only at h
        cases hnext : Brackets.array.following rest with
        | error fault' =>
          rw [hnext, Brackets.foldFrom] at h
          cases h
          exact absurd hdata (category_malformed_ne _)
        | ok next =>
          rw [hnext] at h
          cases next with
          | closed rest' =>
            rw [Brackets.foldFrom] at h
            cases h
          | entry cs' =>
            obtain ⟨a, b, ha, hb, hrest, hcs'⟩ := Brackets.following_eq_entry_iff.1 hnext
            exact .inr ⟨s, a, b, cs', rfl, ha, hb, hrest, hcs', h⟩

/-- Induction on the bound of the items: the items that have been read stand before the rest. -/
theorem refusedItem_of_foldFrom {n : Nat} {sizes : List PixelSize} {fault : Fault Problem}
    (h : (Brackets.array.foldFrom .malformed listItem n sizes (.ok (.entry cs))).2 = .error fault)
    (hdata : fault.cause.category = .data) (hcs : Brackets.array.Starts cs)
    (hbefore : StandsBefore before earlier) (hsizes : ∀ t ∈ earlier, ∃ s, ofText t = .ok s) :
    ∃ earlier' before' u rest r, RefusedItem (before ++ cs) earlier' before' u rest r ∧
      fault = .here (.refused r) (settleInList rest) := by
  induction n generalizing sizes earlier before cs with
  | zero =>
    obtain ⟨n', -, -, -, hn, -⟩ := foldFrom_refused_cases h hdata hcs
    cases hn
  | succ n ih =>
    obtain ⟨n', u, rest, v, hn, rfl, hu, ⟨r, hv, hfault⟩ |
      ⟨s, a, b, cs', hv, ha, hb, rfl, hcs', hnext⟩⟩ := foldFrom_refused_cases h hdata hcs
    · have hrefused : ofText u = .error (.refused r) := by
        rw [ofText_of_spaced (by decide) (.of_entry hu.text), hv]
        rfl
      exact ⟨earlier, before, u, rest, r, ⟨⟨rfl, hbefore, ⟨v, hu⟩⟩, hsizes, hrefused⟩, hfault⟩
    · obtain rfl : n = n' := Nat.succ.inj hn
      obtain ⟨t, ht, hbefore'⟩ := hbefore.next hu.text ha hb
      have hsize : ofText t = .ok s := by
        rw [ofText_of_spaced (by decide) ht, hv]
        rfl
      have hsizes' : ∀ t' ∈ earlier ++ [t], ∃ s, ofText t' = .ok s :=
        List.forall_mem_append.2 ⟨hsizes, List.forall_mem_singleton.2 ⟨s, hsize⟩⟩
      have happ : before ++ (u ++ (a ++ ',' :: (b ++ cs'))) =
          before ++ (u ++ (a ++ ',' :: b)) ++ cs' := by simp
      rw [happ]
      exact ih hnext hcs' hbefore' hsizes'

/-- What is wrong with a document besides its JSON is wrong between its brackets. -/
theorem close_refused {α : Type} {result : α} {ending : Except (Fault Problem) (List Char)}
    (h : close d result ending = .error e) (hdata : e.problem.category = .data) :
    ∃ fault, ending = .error fault ∧ fault.cause.category = .data ∧ e = .ofFault d fault := by
  cases ending with
  | error fault =>
    cases h
    exact ⟨fault, rfl, hdata, rfl⟩
  | ok rest =>
    have hfinish : ((Json.finish rest).mapError (Error.ofMalformed d) >>= fun _ => .ok result) =
        .error e := h
    cases hrest : Json.finish rest with
    | ok finished =>
      rw [hrest] at hfinish
      cases hfinish
    | error fault =>
      rw [hrest] at hfinish
      cases hfinish
      exact absurd hdata (category_malformed_ne _)

/-- Between the brackets of a list nothing but an item is refused. -/
theorem refusedItem_of_fold {fault : Fault Problem}
    (h : (Brackets.array.fold .malformed listItem [] cs).2 = .error fault)
    (hdata : fault.cause.category = .data) (ha : Blanks a) :
    ∃ earlier before u rest r, RefusedItem (a ++ '[' :: cs) earlier before u rest r ∧
      fault = .here (.refused r) (settleInList rest) := by
  unfold Brackets.fold at h
  cases hfirst : Brackets.array.first cs with
  | error fault' =>
    rw [hfirst, Brackets.foldFrom] at h
    cases h
    exact absurd hdata (category_malformed_ne _)
  | ok next =>
    rw [hfirst] at h
    cases next with
    | closed rest =>
      rw [Brackets.foldFrom] at h
      cases h
    | entry cs' =>
      obtain ⟨b, hb, rfl, hcs'⟩ := Brackets.first_eq_entry_iff.1 hfirst
      have hbefore : StandsBefore (a ++ '[' :: b) [] := ⟨by simp, a, b, ha, hb, rfl⟩
      obtain ⟨earlier, before, u, rest, r, hitem, hfault⟩ :=
        refusedItem_of_foldFrom h hdata hcs' hbefore (by simp)
      rw [List.append_assoc, List.cons_append] at hitem
      exact ⟨earlier, before, u, rest, r, hitem, hfault⟩

/-- A value of another kind is found, or one that is malformed. -/
theorem unexpected_cases (expected : Form) (cs : List Char) :
    (∃ cause, (unexpected expected cs).cause = .malformed cause) ∨
      ∃ found, (unexpected expected cs).cause = .unexpected found expected := by
  unfold unexpected
  split
  · next fault _ => exact .inl ⟨fault.cause, rfl⟩
  · next found rest _ => exact .inr ⟨found, rfl⟩

/-- A list is refused for one of its items, and a document that is no list for its kind. -/
theorem readList_refused (h : (readList d).result = .error e) (hdata : e.problem.category = .data) :
    (∃ earlier before u rest r, RefusedItem d earlier before u rest r ∧
      e = .ofFault d (.here (.refused r) (settleInList rest))) ∨
      (Json.skipBlanks d).head? ≠ some '[' ∧ ∃ found, e.problem = .unexpected found .list := by
  unfold readList at h
  split at h
  · next cs hskip =>
    obtain ⟨a, ha, rfl, -⟩ := Json.skipBlanks_eq_cons_iff.1 hskip
    obtain ⟨fault, hfold, hfault, rfl⟩ := close_refused h hdata
    obtain ⟨earlier, before, u, rest, r, hitem, rfl⟩ := refusedItem_of_fold hfold hfault ha
    exact .inl ⟨earlier, before, u, rest, r, hitem, rfl⟩
  · next hbracket =>
    have hhead : (Json.skipBlanks d).head? ≠ some '[' := by
      intro hhead
      obtain ⟨cs, hcs⟩ := List.head?_eq_some_iff.1 hhead
      exact hbracket cs hcs
    cases h
    rcases unexpected_cases .list (Json.skipBlanks d) with ⟨cause, hcause⟩ | hfound
    · have hproblem : (Error.ofFault d (unexpected .list (Json.skipBlanks d))).problem =
          .malformed cause := hcause
      rw [hproblem] at hdata
      exact absurd hdata (category_malformed_ne _)
    · exact .inr ⟨hhead, hfound⟩

/-! ## The place that is reported -/

theorem settleInList_isSuffix (cs : List Char) : settleInList cs <:+ cs := by
  have hskip : ∀ cs, Json.skipBlanks cs <:+ cs := fun cs => List.dropWhile_suffix _
  have hcs := hskip cs
  unfold settleInList
  split
  · next cs' heq =>
    rw [heq] at hcs
    exact (List.suffix_cons _ _).trans hcs
  · next cs' heq =>
    rw [heq] at hcs
    exact (hskip cs').trans ((List.suffix_cons _ _).trans hcs)
  · exact hcs

theorem settleInList_comma (ha : Blanks a) (cs : List Char) :
    settleInList (a ++ ',' :: cs) = Json.skipBlanks cs := by
  rw [settleInList, Json.skipBlanks_append_cons ha rfl]
  rfl

/-- No more than what comes before is passed over. -/
theorem isSuffix_skipBlanks (hc : Json.isBlank c = false) (p cs : List Char) :
    c :: cs <:+ Json.skipBlanks (p ++ c :: cs) := by
  induction p with
  | nil => rw [List.nil_append, Json.skipBlanks_cons, hc]; exact List.suffix_rfl
  | cons b p ih =>
    rw [List.cons_append, Json.skipBlanks_cons]
    split
    · exact ih
    · exact List.suffix_append (b :: p) _

/-- The place is in the text, not before the end of the item, and not after what follows the
comma after the item.  The item is the last one that ends before the place. -/
structure Locates (d : List Char) (earlier : List (List Char)) (before u rest : List Char)
    (k : Nat) : Prop where
  after : Text.byteCount (before ++ u) ≤ k
  upto : ∀ a b c cs, Blanks a → Blanks b → Json.isBlank c = false →
    rest = a ++ ',' :: (b ++ c :: cs) → k ≤ Text.byteCount (before ++ (u ++ (a ++ ',' :: b)))
  item : ∀ earlier' before' u' rest', ItemAt d earlier' before' u' rest' →
    (earlier'.length ≤ earlier.length ↔ Text.byteCount (before' ++ u') ≤ k)

theorem ItemAt.byteCount_eq (h : ItemAt d earlier before u rest) :
    Text.byteCount d = Text.byteCount before + (Text.byteCount u + Text.byteCount rest) := by
  rw [h.text, Text.byteCount_append, Text.byteCount_append]

theorem ItemAt.locates (h : ItemAt d earlier before u rest) :
    Locates d earlier before u rest (Text.byteCount d - Text.byteCount (settleInList rest)) := by
  have hd := h.byteCount_eq
  have hsettle := Text.byteCount_le_of_isSuffix (settleInList_isSuffix rest)
  refine ⟨?_, ?_, ?_⟩
  · rw [Text.byteCount_append]
    omega
  · rintro a b c cs ha hb hc rfl
    rw [settleInList_comma ha, Json.skipBlanks_append_cons hb hc]
    simp only [Text.byteCount_append, Text.byteCount_cons] at hd ⊢
    omega
  · intro earlier' before' u' rest' h'
    have hd' := h'.byteCount_eq
    rw [Text.byteCount_append]
    constructor
    · intro hle
      rcases Nat.lt_or_eq_of_le hle with hlt | heq
      · obtain ⟨bs, more, -, hrest'⟩ := h'.later h hlt
        have hrest := congrArg Text.byteCount hrest'
        simp only [Text.byteCount_append, Text.byteCount_cons] at hrest
        omega
      · obtain ⟨rfl, rfl, rfl⟩ := h'.unique h heq
        omega
    · intro hstop
      by_contra hlt
      obtain ⟨bs, more, hbs, rfl⟩ := h.later h' (Nat.lt_of_not_le hlt)
      obtain ⟨v, hv⟩ := h'.value
      obtain ⟨c, w, rfl, hc, -⟩ := (Json.valueReader innerDepth).starts hv.text .array
      -- the place is not after the start of the later item
      have hnext := Text.byteCount_le_of_isSuffix (isSuffix_skipBlanks hc more (w ++ rest'))
      have hpos := c.utf8Size_pos
      rw [settleInList_comma hbs] at hstop hsettle
      simp only [List.cons_append, Text.byteCount_append, Text.byteCount_cons] at *
      omega

/-! ## Lists and single sizes -/

/-- The line and the column that are shown of an error: zeros if it has no position. -/
def Error.place (e : Error) : Position := e.position.getD ⟨0, 0⟩

theorem readValue_refused (h : (readValue v).result = .error e) :
    ∃ r, ofValue v = .error r ∧ e = ⟨.refused r, none⟩ := by
  obtain ⟨r, rfl, hr⟩ := mapError_eq_error_iff.1 h
  exact ⟨r, hr, rfl⟩

theorem readSize_refused (h : (readSize d).result = .error e) (hdata : e.problem.category = .data) :
    ∃ v r, ofValue v = .error r ∧ e = ⟨.refused r, none⟩ := by
  cases hvalue : Json.value Json.maxDepth d with
  | error fault =>
    rw [readSize_of_fault hvalue] at h
    cases h
    exact absurd hdata (category_malformed_ne _)
  | ok read =>
    obtain ⟨v, rest⟩ := read
    cases hv : ofValue v with
    | error r =>
      rw [readSize_of_refused hvalue hv] at h
      cases h
      exact ⟨v, r, hv, rfl⟩
    | ok s =>
      cases hrest : Json.finish rest with
      | ok finished =>
        rw [readSize_of_finished hvalue hv hrest] at h
        cases h
      | error fault =>
        rw [readSize_of_trailing hvalue hv hrest] at h
        cases h
        exact absurd hdata (category_malformed_ne _)

/-- A list whose JSON is not malformed is refused for an item, and the line and the column of the
refusal tell which one; a document that is no list is refused for its kind.  A single size is
refused without a place, in a text or as a value that has been read before. -/
theorem refusals_placed :
    (∀ d e r, (readList d).result = .error e → e.problem = .refused r →
      ∃ earlier before u rest, RefusedItem d earlier before u rest r ∧
        StatesPlace e.message ∧ ¬ StatesPlace r.message ∧ 1 ≤ e.place.line ∧
        (∃ k, k ≤ Text.byteCount d ∧ Designates e.place (Text.bytes d) k) ∧
        ∀ k, k ≤ Text.byteCount d → Designates e.place (Text.bytes d) k →
          Locates d earlier before u rest k) ∧
      (∀ d e, (readList d).result = .error e → e.problem.category = .data →
        (∃ r, e.problem = .refused r) ∨
          (Json.skipBlanks d).head? ≠ some '[' ∧ ∃ found, e.problem = .unexpected found .list) ∧
      (∀ d e, (readSize d).result = .error e → e.problem.category = .data →
        e.place = ⟨0, 0⟩ ∧ ¬ StatesPlace e.message) ∧
      ∀ v e, (readValue v).result = .error e →
        e.problem.category = .data ∧ e.place = ⟨0, 0⟩ ∧ ¬ StatesPlace e.message := by
  refine ⟨?_, ?_, ?_, ?_⟩
  · intro d e r h hr
    have hdata : e.problem.category = .data := by rw [hr]; rfl
    rcases readList_refused h hdata with
      ⟨earlier, before, u, rest, r', hitem, rfl⟩ | ⟨-, found, hfound⟩
    · obtain rfl : r' = r := Problem.refused.inj hr
      obtain ⟨v, -, -, hv⟩ := exists_value_of_refused hitem.refused
      have hplace := designates_after (Text.bytes d)
        (Text.byteCount d - Text.byteCount (settleInList rest))
      refine ⟨earlier, before, u, rest, hitem, statesPlace_messageAt _ _,
        PixelSize.not_statesPlace_of_ofValue hv, Nat.le_add_right ..,
        ⟨_, Nat.sub_le .., hplace⟩, ?_⟩
      intro k hk hdes
      rw [← Text.length_bytes] at hk
      obtain rfl := hdes.unique hplace hk (by rw [Text.length_bytes]; exact Nat.sub_le ..)
      exact hitem.locates
    · rw [hr] at hfound
      cases hfound
  · intro d e h hdata
    rcases readList_refused h hdata with ⟨-, -, -, -, r, -, rfl⟩ | hkind
    · exact .inl ⟨r, rfl⟩
    · exact .inr hkind
  · intro d e h hdata
    obtain ⟨v, r, hv, rfl⟩ := readSize_refused h hdata
    exact ⟨rfl, PixelSize.not_statesPlace_of_ofValue hv⟩
  · intro v e h
    obtain ⟨r, hv, rfl⟩ := readValue_refused h
    exact ⟨rfl, rfl, PixelSize.not_statesPlace_of_ofValue hv⟩

/-- The second item is refused after the comma, although the third one is malformed. -/
theorem refusals_placed_before_malformed :
    let d := "[\x7b\"width\":1,\"height\":2\x7d ,\n7\n, nul".toList
    let r : Refusal := .notAnObject .number
    let e : Error := ⟨.refused r, some ⟨3, 2⟩⟩
    let e' : Error := ⟨.refused r, none⟩
    let number : Error := ⟨.unexpected (.number (.integer 7 (by decide))) .list, some ⟨1, 1⟩⟩
    (readList d).result = .error e ∧
      (∃ earlier before u rest, RefusedItem d earlier before u rest r ∧
        ∃ k ≤ Text.byteCount d,
          Designates ⟨3, 2⟩ (Text.bytes d) k ∧ Locates d earlier before u rest k) ∧
      (readList "7".toList).result = .error number ∧
      (Json.skipBlanks "7".toList).head? ≠ some '[' ∧
      (readSize "7 nul".toList).result = .error e' ∧
      (readValue (.number (.integer 7 (by decide)))).result = .error e' ∧ e'.place = ⟨0, 0⟩ ∧
      ¬ StatesPlace e'.message := by
  intro d r e e' number
  have hlist : (readList d).result = .error e := by decide +kernel
  have hnumber : (readList "7".toList).result = .error number := by decide +kernel
  have hsize : (readSize "7 nul".toList).result = .error e' := by decide +kernel
  have hvalue : (readValue (.number (.integer 7 (by decide)))).result = .error e' := by
    decide +kernel
  obtain ⟨hlists, hkinds, hsizes, hvalues⟩ := refusals_placed
  obtain ⟨earlier, before, u, rest, hitem, -, -, -, ⟨k, hk, hdes⟩, hlocates⟩ :=
    hlists d e r hlist rfl
  have hbracket : (Json.skipBlanks "7".toList).head? ≠ some '[' := by
    rcases hkinds _ number hnumber rfl with ⟨r', hr'⟩ | ⟨hbracket, -⟩
    · cases hr'
    · exact hbracket
  exact ⟨hlist, ⟨earlier, before, u, rest, hitem, k, hk, hdes, hlocates k hk hdes⟩, hnumber,
    hbracket, hsize, hvalue, (hsizes _ e' hsize rfl).1, (hvalues _ e' hvalue).2.2⟩

end Document

end LayerSize
