import LayerSize.Proofs.Document.Parts

/-!
# Reading lists

A list is read item by item, each as it reads by itself, and no further than to the first item
that is refused.

* `takesAll_listItem`: the items before that one;
* `readList_stopped`: the list from then on, which may be anything;
* `readList_elementwise`: the outcomes of a list.
-/

namespace LayerSize.Document

open Json (Blanks Fault IsJson NoLiteral Spaced Takes TakesAll Value ValueText)
open PixelSize (TextError ofText ofValue)

variable {a b c t rest : List Char} {ts pre : List (List Char)} {v : Value} {s : PixelSize}
  {sizes : List PixelSize} {r : Refusal}

/-! ## Items -/

/-- What may come after an item: a blank, a comma or the closing bracket. -/
def EndsItem (rest : List Char) : Prop :=
  ∀ c ∈ rest.head?, c ∈ [' ', '\n', '\t', '\r', ',', ']']

theorem EndsItem.noLiteral (h : EndsItem rest) : NoLiteral rest := by
  intro c hc
  have hmem := h c hc
  simp only [List.mem_cons, List.not_mem_nil, or_false] at hmem
  rcases hmem with rfl | rfl | rfl | rfl | rfl | rfl <;> decide

/-- Whatever follows a text of a value, the reader of items finds the value there. -/
theorem listItem_spaced (h : Spaced (ValueText innerDepth) t v) (hrest : NoLiteral rest) :
    ∃ u bs, Blanks bs ∧ Json.Brackets.array.first (t ++ rest) = .ok (.entry u) ∧
      ∀ sizes, listItem sizes u = match ofValue v with
        | .error r => .error (.here (.refused r) (settleInList rest))
        | .ok s => .ok (s :: sizes, bs ++ rest) := by
  obtain ⟨a, w, b, rfl, ha, hw, hb⟩ := h
  have hsettle : ∀ bs cs, Blanks bs → settleInList (bs ++ cs) = settleInList cs := by
    intro bs cs hbs
    unfold settleInList
    rw [Json.skipBlanks_of_blanks hbs]
  have hstarts : Json.Brackets.array.Starts w := (Json.valueReader innerDepth).starts hw _
  have hitem : Spaced (ValueText innerDepth) (w ++ b) v := ⟨[], w, b, rfl, .nil, hw, hb⟩
  obtain ⟨bs, hbs, hread⟩ := innerSize_spaced hsettle hitem hrest
  refine ⟨w ++ b ++ rest, bs, hbs, ?_, ?_⟩
  · rw [List.append_assoc, List.append_assoc]
    exact hstarts.first ha _
  · intro sizes
    rw [listItem, hread]
    cases ofValue v with
    | error r => rfl
    | ok s => rfl

theorem takes_listItem (h : IsJson innerDepth t) (hs : ofText t = .ok s)
    (sizes : List PixelSize) : Takes .array listItem sizes t (s :: sizes) := by
  obtain ⟨v, hv, htext⟩ := ofText_of_isJson h
  have hvalue : ofValue v = .ok s := mapError_eq_ok_iff.1 (htext ▸ hs)
  intro rest hrest
  obtain ⟨u, bs, hbs, hfirst, hread⟩ := listItem_spaced hv hrest
  refine ⟨u, bs, hfirst, ?_, hbs⟩
  rw [hread, hvalue]

/-- Induction on the items: each is put before the sizes read so far. -/
theorem takesAll_listItem (h : ∀ t ∈ ts, IsJson innerDepth t)
    (hsizes : ts.map ofText = sizes.map .ok) (before : List PixelSize) :
    TakesAll .array listItem before ts (sizes.reverse ++ before) := by
  induction ts generalizing sizes before with
  | nil =>
    obtain rfl : sizes = [] := by simpa using hsizes
    exact .nil
  | cons t ts ih =>
    cases sizes with
    | nil => simp at hsizes
    | cons s sizes =>
      obtain ⟨hs, hsizes⟩ : ofText t = .ok s ∧ ts.map ofText = sizes.map .ok := by
        simpa using hsizes
      have htail := ih (fun t' ht' => h t' (List.mem_cons_of_mem _ ht')) hsizes (s :: before)
      rw [List.reverse_cons, List.append_assoc]
      exact .cons (takes_listItem (h t (List.mem_cons_self ..)) hs before) htail

/-! ## Lists -/

theorem readList_opened (ha : Blanks a) (rest : List Char) :
    readList (opened '[' a b ts ++ rest) =
      let read := Json.Brackets.array.fold .malformed listItem []
        (b ++ ([','].intercalate ts ++ rest))
      ⟨close (opened '[' a b ts ++ rest) read.1.reverse read.2, read.1.reverse.map .read⟩ := by
  rw [readList, skipBlanks_opened ha rfl]
  rfl

/-- All items hold sizes. -/
theorem readList_closed (ha : Blanks a) (hb : Blanks b) (hc : Blanks c)
    (h : ∀ t ∈ ts, IsJson innerDepth t) (hsizes : ts.map ofText = sizes.map .ok) :
    readList (opened '[' a b ts ++ ']' :: c) = ⟨.ok sizes, sizes.map .read⟩ := by
  have hfold : Json.Brackets.array.fold .malformed listItem []
      (b ++ ([','].intercalate ts ++ ']' :: c)) = (sizes.reverse ++ [], .ok c) :=
    (takesAll_listItem h hsizes []).fold_closed hb c
  rw [readList_opened ha, hfold]
  simp [close_of_blanks hc]

/-- All items but the last one hold sizes, and that one is refused.  The reading does not go on
after it, so anything may follow. -/
theorem readList_stopped (ha : Blanks a) (hb : Blanks b) (hpre : ∀ t ∈ pre, IsJson innerDepth t)
    (hsizes : pre.map ofText = sizes.map .ok) (ht : Spaced (ValueText innerDepth) t v)
    (hr : ofValue v = .error r) (hrest : NoLiteral rest) :
    readList (opened '[' a b (pre ++ [t]) ++ rest) =
      ⟨.error (.ofFault (opened '[' a b (pre ++ [t]) ++ rest)
        (.here (.refused r) (settleInList rest))), sizes.map .read⟩ := by
  obtain ⟨u, bs, -, hfirst, hread⟩ := listItem_spaced ht hrest
  simp only [hr] at hread
  have hfold : Json.Brackets.array.fold .malformed listItem []
      (b ++ ([','].intercalate (pre ++ [t]) ++ rest)) =
        (sizes.reverse ++ [], .error (.here (.refused r) (settleInList rest))) := by
    rw [Json.intercalate_concat, List.append_assoc]
    exact (takesAll_listItem hpre hsizes []).fold_stopped hb hfirst (hread _)
  rw [readList_opened ha, hfold]
  simp [close_of_error]

/-- The list fails with a message, after these sizes were read. -/
def StopsWith (x : Logged (Except Error (List PixelSize))) (message : String)
    (sizes : List PixelSize) : Prop :=
  RefusedWith x.result message ∧ x.log = sizes.map .read

theorem stopsWith_of_refused {e : TextError} (ha : Blanks a) (hb : Blanks b)
    (hpre : ∀ t ∈ pre, IsJson innerDepth t) (hsizes : pre.map ofText = sizes.map .ok)
    (ht : IsJson innerDepth t) (he : ofText t = .error e) (hrest : EndsItem rest) :
    StopsWith (readList (opened '[' a b (pre ++ [t]) ++ rest)) e.message sizes := by
  obtain ⟨v, hv, htext⟩ := ofText_of_isJson ht
  obtain ⟨r, rfl, hr⟩ := mapError_eq_error_iff.1 (htext ▸ he)
  rw [readList_stopped ha hb hpre hsizes hv hr hrest.noLiteral]
  exact ⟨refusedWith_ofFault _ rfl, rfl⟩

/-- Either every text holds a size, or one is the first that holds none. -/
theorem sizes_or_first_error (ts : List (List Char)) :
    (∃ sizes : List PixelSize, ts.map ofText = sizes.map .ok) ∨
      ∃ pre t post, ∃ sizes : List PixelSize, ∃ e, ts = pre ++ t :: post ∧
        pre.map ofText = sizes.map .ok ∧ ofText t = .error e := by
  induction ts with
  | nil => exact .inl ⟨[], rfl⟩
  | cons t ts ih =>
    cases ht : ofText t with
    | error e => exact .inr ⟨[], t, ts, [], e, rfl, rfl, ht⟩
    | ok s =>
      rcases ih with ⟨sizes, hsizes⟩ | ⟨pre, t', post, sizes, e, rfl, hpre, he⟩
      · exact .inl ⟨s :: sizes, by simp [ht, hsizes]⟩
      · exact .inr ⟨t :: pre, t', post, s :: sizes, e, rfl, by simp [ht, hpre], he⟩

theorem map_ofText_ne_of_error {e : TextError} (ht : t ∈ ts) (he : ofText t = .error e)
    (sizes : List PixelSize) : ts.map ofText ≠ sizes.map .ok := by
  intro h
  have hmem : ofText t ∈ sizes.map Except.ok := by
    rw [← h]
    exact List.mem_map_of_mem ht
  rw [he] at hmem
  simp at hmem

theorem map_ok_inj {sizes' : List PixelSize} :
    (sizes.map .ok : List (Except TextError PixelSize)) = sizes'.map .ok ↔ sizes = sizes' :=
  List.map_inj_right fun _ _ h => Except.ok.inj h

theorem endsItem_of_append (h : (∃ cs, rest = ',' :: cs) ∨ rest = ']' :: c) : EndsItem rest := by
  rcases h with ⟨cs, rfl⟩ | rfl <;> simp [EndsItem]

/-- A list is read when each of its items holds a size, and then has these sizes.  Otherwise the
first item that holds none decides: its message is that of the list, whatever comes after the
item, and only the sizes before it are reported. -/
theorem readList_elementwise (ha : Blanks a) (hb : Blanks b) (hc : Blanks c)
    (hts : ∀ t ∈ ts, IsJson 126 t) :
    (∀ sizes, (readList (opened '[' a b ts ++ ']' :: c)).result = .ok sizes ↔
        ts.map ofText = sizes.map .ok) ∧
      ((∃ sizes : List PixelSize, ts.map ofText = sizes.map .ok ∧
          (readList (opened '[' a b ts ++ ']' :: c)).log = sizes.map .read) ∨
        ∃ pre t post, ∃ sizes : List PixelSize, ∃ e, ts = pre ++ t :: post ∧
          pre.map ofText = sizes.map .ok ∧ ofText t = .error e ∧
          StopsWith (readList (opened '[' a b ts ++ ']' :: c)) e.message sizes ∧
          ∀ rest, EndsItem rest →
            StopsWith (readList (opened '[' a b (pre ++ [t]) ++ rest)) e.message sizes) := by
  rcases sizes_or_first_error ts with ⟨sizes, hsizes⟩ | ⟨pre, t, post, sizes, e, rfl, hpre, he⟩
  · rw [readList_closed ha hb hc hts hsizes, hsizes]
    refine ⟨fun sizes' => ?_, .inl ⟨sizes, rfl, rfl⟩⟩
    rw [map_ok_inj, Except.ok.injEq]
  · have hpre' : ∀ t' ∈ pre, IsJson 126 t' := fun t' ht' => hts t' (List.mem_append_left _ ht')
    have ht : IsJson 126 t := hts t (by simp)
    have hstops : ∀ rest, EndsItem rest →
        StopsWith (readList (opened '[' a b (pre ++ [t]) ++ rest)) e.message sizes :=
      fun rest hrest => stopsWith_of_refused ha hb hpre' hpre ht he hrest
    obtain ⟨rest, happ, hrest⟩ := exists_opened_append '[' a b pre t post (']' :: c)
    have hlist := hstops rest (endsItem_of_append hrest)
    rw [← happ] at hlist
    refine ⟨fun sizes' => ?_, .inr ⟨pre, t, post, sizes, e, rfl, hpre, he, hlist, hstops⟩⟩
    obtain ⟨⟨e', place, hresult, -⟩, -⟩ := hlist
    rw [hresult]
    constructor
    · intro h
      cases h
    · intro h
      exact absurd h (map_ofText_ne_of_error (by simp) he sizes')

/-- A list of two sizes, one of them with a repeated member, a fraction and quotes. -/
theorem readList_pair :
    (readList (opened '[' [' '] ['\n'] ["\x7b\"width\": 1, \"height\": 2\x7d ".toList,
      " \x7b\"height\": null, \"height\": \"4.5\", \"width\": -3\x7d".toList] ++
        [']', '\t'])).result = .ok [⟨1, 2⟩, ⟨-3, 4⟩] := by
  have hone : Blanks [' '] := by simp [Blanks]
  have hnewline : Blanks ['\n'] := by simp [Blanks]
  have htab : Blanks ['\t'] := by simp [Blanks]
  exact ((readList_elementwise hone hnewline htab (by decide +kernel)).1 _).2 (by decide +kernel)

end LayerSize.Document
