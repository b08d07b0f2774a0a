import LayerSize.Proofs.Json.Joined
import LayerSize.Proofs.Json.NumberText

/-!
# The compact texts of values

The compact text of a value is a text of that value, where all numbers are integers.  A double
is not meant: it is written with the fewest digits, and a literal is not converted to the double
nearest to it.

* `quotedText_flatMap_escaped`: strings, in the shortest escapes;
* `valueText_text`: values, by induction on the depth;
* `ValueText.nesting_le`, `ValueText.kept`: what is read satisfies what that asks for;
* `DocumentText.compact`: a text and the compact text of its value.
-/

namespace LayerSize.Json

variable {t s : List Char} {u v : Value} {room : Nat}

/-! ## Strings -/

theorem hexDigit_digitChar : ∀ n < 16, HexDigit (Nat.digitChar n) n := by decide

/-- A control character is written as its code. -/
theorem hexCode_hexPair {n : Nat} (h : n < 0x20) : HexCode ('0' :: '0' :: hexPair n) n := by
  have hcode := HexCode.mk (hexDigit_digitChar 0 (by decide)) (hexDigit_digitChar 0 (by decide))
    (hexDigit_digitChar (n / 16) (by omega)) (hexDigit_digitChar (n % 16) (by omega))
  have hn : 0 * 16 ^ 3 + 0 * 16 ^ 2 + n / 16 * 16 + n % 16 = n := by omega
  rwa [hn] at hcode

theorem quotedText_escaped (h : QuotedText t s) (c : Char) : QuotedText (escaped c ++ t) (c :: s) := by
  unfold escaped
  split
  all_goals try exact .escaped (.letter (by decide)) h
  next hq hb _ _ _ _ _ =>
    split
    · next hc =>
      exact .escaped (.code (hexCode_hexPair hc)) h
    · next hc => exact .plain hq hb (Nat.le_of_not_lt hc) h

/-- What a string is written as denotes the string. -/
theorem quotedText_flatMap_escaped (s : List Char) : QuotedText (s.flatMap escaped) s := by
  induction s with
  | nil => exact .nil
  | cons c s ih =>
    rw [List.flatMap_cons]
    exact quotedText_escaped ih c

/-! ## Numbers -/

theorem denotes_integer (n : Int) (range : -2 ^ 63 ≤ n ∧ n < 2 ^ 64) :
    Literal.Denotes ⟨decide (n < 0), naturalText n.natAbs, none, none⟩ (.integer n range) := by
  have hsigned : signed (decide (n < 0)) (digitsValue (naturalText n.natAbs)) = n := by
    rw [digitsValue_naturalText, signed_natAbs]
  have hzero : ¬ (decide (n < 0) = true ∧ digitsValue (naturalText n.natAbs) = 0) := by
    rw [digitsValue_naturalText, decide_eq_true_eq]
    omega
  refine .integer ⟨rfl, rfl, hzero, ?_⟩ hsigned.symm
  rw [hsigned]
  exact range

/-! ## Parts of values -/

mutual

/-- How many arrays and objects are open at once in a value. -/
def Value.nesting : Value → Nat
  | .null | .boolean _ | .number _ | .string _ => 0
  | .array items => itemsNesting items + 1
  | .object members => membersNesting members + 1

/-- The largest nesting of the items of an array. -/
def itemsNesting : List Value → Nat
  | [] => 0
  | v :: vs => max v.nesting (itemsNesting vs)

/-- The largest nesting of the members of an object. -/
def membersNesting : List (String × Value) → Nat
  | [] => 0
  | (_, v) :: ms => max v.nesting (membersNesting ms)

end

theorem itemsNesting_le_iff {items : List Value} {n : Nat} :
    itemsNesting items ≤ n ↔ ∀ v ∈ items, v.nesting ≤ n := by
  induction items with
  | nil => simp [itemsNesting]
  | cons v items ih => simp [itemsNesting, ih]

theorem membersNesting_le_iff {members : List (String × Value)} {n : Nat} :
    membersNesting members ≤ n ↔ ∀ m ∈ members, m.2.nesting ≤ n := by
  induction members with
  | nil => simp [membersNesting]
  | cons m members ih =>
    rw [membersNesting, max_le_iff, ih, List.forall_mem_cons]

/-- The value itself, or a part of one of its items or members. -/
inductive Part : Value → Value → Prop where
  | self {v : Value} : Part v v
  | item {u v : Value} {items : List Value} (hv : v ∈ items) (h : Part u v) :
      Part u (.array items)
  | member {u : Value} {m : String × Value} {members : List (String × Value)} (hm : m ∈ members)
      (h : Part u m.2) : Part u (.object members)

section

variable {items : List Value} {members : List (String × Value)}

theorem part_array_iff : Part u (.array items) ↔ u = .array items ∨ ∃ v ∈ items, Part u v := by
  constructor
  · intro h
    cases h with
    | self => exact .inl rfl
    | item hv h => exact .inr ⟨_, hv, h⟩
  · rintro (rfl | ⟨v, hv, h⟩)
    · exact .self
    · exact .item hv h

theorem part_object_iff :
    Part u (.object members) ↔ u = .object members ∨ ∃ m ∈ members, Part u m.2 := by
  constructor
  · intro h
    cases h with
    | self => exact .inl rfl
    | member hm h => exact .inr ⟨_, hm, h⟩
  · rintro (rfl | ⟨m, hm, h⟩)
    · exact .self
    · exact .member hm h

end

/-- All numbers in the value are integers. -/
def Value.Integral (v : Value) : Prop :=
  ∀ n, Part (.number n) v → ∃ i range, n = .integer i range

/-- All objects in the value keep their members in order, one of each name. -/
def Value.Kept (v : Value) : Prop := ∀ members, Part (.object members) v → Members.Ascending members

section

variable {items : List Value} {members : List (String × Value)} {m : String × Value}

theorem Value.Integral.item (h : (Value.array items).Integral) (hv : v ∈ items) : v.Integral :=
  fun n hn => h n (.item hv hn)

theorem Value.Integral.member (h : (Value.object members).Integral) (hm : m ∈ members) :
    m.2.Integral :=
  fun n hn => h n (.member hm hn)

theorem Value.Kept.item (h : (Value.array items).Kept) (hv : v ∈ items) : v.Kept :=
  fun ms hms => h ms (.item hv hms)

theorem Value.Kept.member (h : (Value.object members).Kept) (hm : m ∈ members) : m.2.Kept :=
  fun ms hms => h ms (.member hm hms)

end

/-! ## Members in order -/

namespace Members

variable {α : Type} {ms : List (String × α)} {m : String × α} {name : String} {value : α}

/-- Where every name is there once, the first and the last value of a name are the same. -/
theorem get?_reverse (h : Ascending ms) (name : String) : get? name ms.reverse = get? name ms := by
  induction ms with
  | nil => rfl
  | cons m ms ih =>
    obtain ⟨hm, hms⟩ := List.pairwise_cons.1 h
    have hlast : get? name [m] = if name = m.1 then some m.2 else none := rfl
    rw [List.reverse_cons, get?_append, ih hms, hlast, get?]
    by_cases hname : name = m.1
    · rw [if_pos hname, if_pos hname, hname, get?_eq_none_of_lt hm, Option.none_or]
    · rw [if_neg hname, if_neg hname, Option.or_none]

theorem merged_self {ms : List (String × Value)} (h : Ascending ms) : Merged ms ms :=
  ⟨h, fun name => (get?_reverse h name).symm⟩

theorem mem_of_get? (h : get? name ms = some value) : (name, value) ∈ ms := by
  induction ms with
  | nil => cases h
  | cons m ms ih =>
    rw [get?] at h
    split at h
    · next hname =>
      cases h
      rw [hname]
      exact List.mem_cons_self ..
    · exact List.mem_cons_of_mem _ (ih h)

theorem get?_of_mem (h : Ascending ms) (hm : m ∈ ms) : get? m.1 ms = some m.2 := by
  induction ms with
  | nil => cases hm
  | cons m' ms ih =>
    obtain ⟨hlt, hms⟩ := List.pairwise_cons.1 h
    rw [get?]
    rcases List.mem_cons.1 hm with rfl | hm
    · rw [if_pos rfl]
    · rw [if_neg (ne_of_gt (hlt m hm)), ih hms hm]

end Members

/-! ## Values that are read -/

theorem Entries.exists_of_mem {α : Type} {Entry : List Char → α → Prop} {ts : List Char}
    {xs : List α} {x : α} (h : Entries Entry ts xs) (hx : x ∈ xs) : ∃ t, Entry t x := by
  induction h with
  | last _ ht _ =>
    obtain rfl := List.mem_singleton.1 hx
    exact ⟨_, ht⟩
  | cons _ ht _ _ ih =>
    rcases List.mem_cons.1 hx with rfl | hx
    · exact ⟨_, ht⟩
    · exact ih hx

/-- A member that is kept is one that was given. -/
theorem Entries.exists_of_mem_kept {Inner : List Char → Value → Prop} {ts : List Char}
    {ms kept : List (String × Value)} {m : String × Value}
    (h : Entries (MemberText Inner) ts ms) (hk : Merged ms kept) (hm : m ∈ kept) :
    ∃ t, Inner t m.2 := by
  obtain ⟨name, v⟩ := m
  have hlast : Members.get? name ms.reverse = some v :=
    (hk.2 name).symm.trans (Members.get?_of_mem hk.1 hm)
  obtain ⟨t, ht⟩ := h.exists_of_mem (List.mem_reverse.1 (Members.mem_of_get? hlast))
  cases ht with
  | mk _ _ _ ht => exact ⟨_, ht⟩

theorem ScalarText.nesting_eq_zero (h : ScalarText t v) : v.nesting = 0 := by
  cases h <;> rfl

/-- Induction on the depth: no more brackets are open in the value than in its text. -/
theorem ValueText.nesting_le (h : ValueText room t v) : v.nesting ≤ room := by
  induction room generalizing t v with
  | zero => exact le_of_eq (ScalarText.nesting_eq_zero h)
  | succ room ih =>
    cases h with
    | scalar h => simp [h.nesting_eq_zero]
    | emptyArray h => simp [Value.nesting, itemsNesting]
    | emptyObject h => simp [Value.nesting, membersNesting]
    | array h =>
      rw [Value.nesting, Nat.succ_le_succ_iff, itemsNesting_le_iff]
      intro v hv
      obtain ⟨t, ht⟩ := h.exists_of_mem hv
      exact ih ht
    | object h hk =>
      rw [Value.nesting, Nat.succ_le_succ_iff, membersNesting_le_iff]
      intro m hm
      obtain ⟨t, ht⟩ := h.exists_of_mem_kept hk hm
      exact ih ht

theorem ScalarText.kept (h : ScalarText t v) : v.Kept := by
  intro members hpart
  cases h <;> cases hpart

/-- Induction on the depth: a value that has a text keeps its members in order. -/
theorem ValueText.kept (h : ValueText room t v) : v.Kept := by
  induction room generalizing t v with
  | zero => exact ScalarText.kept h
  | succ room ih =>
    intro members hpart
    cases h with
    | scalar h => exact h.kept members hpart
    | emptyArray h =>
      cases hpart with
      | item hv _ => cases hv
    | array h =>
      cases hpart with
      | item hv hpart =>
        obtain ⟨t, ht⟩ := h.exists_of_mem hv
        exact ih ht members hpart
    | emptyObject h =>
      cases hpart with
      | self => exact List.Pairwise.nil
      | member hm _ => cases hm
    | object h hk =>
      cases hpart with
      | self => exact hk.1
      | member hm hpart =>
        obtain ⟨t, ht⟩ := h.exists_of_mem_kept hk hm
        exact ih ht members hpart

/-! ## Compact texts -/

theorem itemTexts_eq_map (vs : List Value) : itemTexts vs = vs.map Value.text := by
  induction vs with
  | nil => rfl
  | cons v vs ih => rw [itemTexts, ih, List.map_cons]

theorem memberTexts_eq_map (ms : List (String × Value)) :
    memberTexts ms = ms.map fun m => quote m.1 ++ ':' :: m.2.text := by
  induction ms with
  | nil => rfl
  | cons m ms ih => rw [memberTexts, ih, List.map_cons]

theorem scalarText_text (hn : v.nesting = 0) (hv : v.Integral) : ScalarText v.text v := by
  cases v with
  | null => exact .null
  | boolean b =>
    cases b with
    | true => exact .true
    | false => exact .false
  | number n =>
    obtain ⟨i, range, rfl⟩ := hv n .self
    exact .number (literalText_integerText i) (denotes_integer i range)
  | string s =>
    have hs : ScalarText (quote s) (.string (String.ofList s.toList)) :=
      .string (quotedText_flatMap_escaped s.toList)
    rwa [String.ofList_toList] at hs
  | array items => simp [Value.nesting] at hn
  | object members => simp [Value.nesting] at hn

theorem memberText_text {Inner : List Char → Value → Prop} (name : String) (h : Inner t v) :
    MemberText Inner (quote name ++ ':' :: t) (name, v) := by
  have hm := MemberText.mk (a := []) (b := []) (quotedText_flatMap_escaped name.toList) .nil .nil h
  rw [String.ofList_toList] at hm
  simpa [quote] using hm

/-- Induction on the depth. -/
theorem valueText_text (hn : v.nesting ≤ room) (hv : v.Integral) (hk : v.Kept) :
    ValueText room v.text v := by
  induction room generalizing v with
  | zero => exact scalarText_text (Nat.le_zero.1 hn) hv
  | succ room ih =>
    cases v with
    | null | boolean | number | string => exact .scalar (scalarText_text rfl hv)
    | array items =>
      cases items with
      | nil => exact .emptyArray .nil
      | cons w ws =>
        rw [Value.nesting, Nat.succ_le_succ_iff, itemsNesting_le_iff] at hn
        have hitems : List.Forall₂ (Spaced (ValueText room)) (itemTexts (w :: ws)) (w :: ws) := by
          rw [itemTexts_eq_map, List.forall₂_map_left_iff, List.forall₂_same]
          intro v hmem
          exact .of_entry (ih (hn v hmem) (hv.item hmem) (hk.item hmem))
        exact .array (entries_intercalate hitems (by simp [itemTexts]))
    | object members =>
      cases members with
      | nil => exact .emptyObject .nil
      | cons m ms =>
        rw [Value.nesting, Nat.succ_le_succ_iff, membersNesting_le_iff] at hn
        have hmembers : List.Forall₂ (Spaced (MemberText (ValueText room)))
            (memberTexts (m :: ms)) (m :: ms) := by
          rw [memberTexts_eq_map, List.forall₂_map_left_iff, List.forall₂_same]
          intro m' hmem
          exact .of_entry
            (memberText_text m'.1 (ih (hn m' hmem) (hv.member hmem) (hk.member hmem)))
        exact .object (entries_intercalate hmembers (by simp [memberTexts_eq_map]))
          (Members.merged_self (hk _ .self))

/-- The compact text of a value is a text of it. -/
theorem documentText_text (hn : v.nesting ≤ 127) (hv : v.Integral) (hk : v.Kept) :
    DocumentText v.text v :=
  Spaced.of_entry (valueText_text hn hv hk)

/-- Any text can be replaced by the compact one of its value. -/
theorem DocumentText.compact (h : DocumentText t v) (hv : v.Integral) : DocumentText v.text v := by
  obtain ⟨a, u, b, -, -, hu, -⟩ := h
  exact documentText_text hu.nesting_le hv hu.kept

end LayerSize.Json
