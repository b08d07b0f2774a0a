import LayerSize.Proofs.Json.Reading

/-!
# The members of an object text

A whole text that is an object, and its members in the order in which they are written: repeated
names are all there, and a name is the one that its escapes decode to.

* `ObjectText`: the members that a text has;
* `members_eq_ok_iff`: reading them, so that a text has them in one way only;
* `exists_objectText`: every JSON text that opens with a brace has them;
* `SameLast`: two lists of members give a name the same value, if any.
-/

namespace LayerSize.Json

variable {a b cs t rest : List Char} {v : Value} {name : String} {ms ms' kept : List (String × Value)}

/-! ## Texts of objects -/

/-- The text is an object with blanks around it, and has these members in this order. -/
inductive ObjectText : List Char → List (String × Value) → Prop where
  | empty {a bs b : List Char} (ha : Blanks a) (hbs : Blanks bs) (hb : Blanks b) :
      ObjectText (a ++ '{' :: (bs ++ '}' :: b)) []
  | members {a ts b : List Char} {ms : List (String × Value)} (ha : Blanks a)
      (hts : Entries (MemberText (ValueText 126)) ts ms) (hb : Blanks b) :
      ObjectText (a ++ '{' :: (ts ++ '}' :: b)) ms

/-- The text is the object of the last member of each name. -/
theorem ObjectText.documentText (h : ObjectText t ms) : DocumentText t (.ofMembers ms) := by
  cases h with
  | @empty a bs b ha hbs hb => exact ⟨a, '{' :: (bs ++ ['}']), b, by simp, ha, .emptyObject hbs, hb⟩
  | @members a ts b ms ha hts hb =>
    exact ⟨a, '{' :: (ts ++ ['}']), b, by simp, ha, .object hts (Members.merged_iff.2 rfl), hb⟩

/-- The first character that is no blank opens an object. -/
def OpensObject (t : List Char) : Prop := ∃ a rest, Blanks a ∧ t = a ++ '{' :: rest

theorem opensObject_iff : OpensObject t ↔ ∃ rest, skipBlanks t = '{' :: rest := by
  constructor
  · rintro ⟨a, rest, ha, rfl⟩
    exact ⟨rest, skipBlanks_append_cons ha rfl⟩
  · rintro ⟨rest, h⟩
    obtain ⟨a, ha, rfl, -⟩ := skipBlanks_eq_cons_iff.1 h
    exact ⟨a, rest, ha, rfl⟩

/-- No scalar opens with a brace. -/
theorem ScalarText.head?_ne_brace (h : ScalarText t v) : t.head? ≠ some '{' := by
  cases h with
  | null | true | false | string => simp
  | number ht hn =>
    obtain ⟨c, t', rfl, hc⟩ := starts_literal ht
    simpa using (ne_of_starts_literal hc).2.2.2.1

/-- The value of a text that opens with a brace opens with it. -/
theorem OpensObject.head? {u b : List Char} (ht : OpensObject (a ++ (u ++ b))) (ha : Blanks a)
    (hu : ValueText 127 u v) : u.head? = some '{' := by
  obtain ⟨rest, hskip⟩ := opensObject_iff.1 ht
  obtain ⟨c, u', rfl, hc, -⟩ := (valueReader 127).starts hu .array
  rw [List.cons_append, skipBlanks_append_cons ha hc] at hskip
  rw [(List.cons.inj hskip).1]
  rfl

/-- A JSON text that opens with a brace has the members of an object. -/
theorem exists_objectText (h : DocumentText t v) (ht : OpensObject t) : ∃ ms, ObjectText t ms := by
  obtain ⟨a, u, b, rfl, ha, hu, hb⟩ := h
  have hhead := ht.head? ha hu
  cases hu with
  | scalar hs => exact absurd hhead hs.head?_ne_brace
  | emptyArray | array => simp at hhead
  | @emptyObject bs hbs => exact ⟨[], by simpa using ObjectText.empty ha hbs hb⟩
  | @object ts ms kept hts hk => exact ⟨ms, by simpa using ObjectText.members ha hts hb⟩

/-- An object text ends with its closing brace, blanks aside. -/
theorem ObjectText.exists_brace (h : ObjectText t ms) :
    ∃ body b, t = body ++ '}' :: b ∧ Blanks b := by
  cases h with
  | @empty a bs b ha hbs hb => exact ⟨a ++ '{' :: bs, b, by simp, hb⟩
  | @members a ts b ms ha hts hb => exact ⟨a ++ '{' :: ts, b, by simp, hb⟩

/-- If a text that opens with a brace starts with a whole text, then nothing but blanks follows
that one. -/
theorem DocumentText.blanks_of_append {v' : Value} (ht : OpensObject (t ++ rest))
    (h : DocumentText (t ++ rest) v) (h' : DocumentText t v') : Blanks rest := by
  obtain ⟨a, u, b, rfl, ha, hu, hb⟩ := h'
  have happ : a ++ (u ++ b) ++ rest = a ++ (u ++ (b ++ rest)) := by simp
  rw [happ] at ht h
  have hkind : v'.kind ≠ .number := by
    have hhead := ht.head? ha hu
    cases hu with
    | scalar hs => exact absurd hhead hs.head?_ne_brace
    | emptyArray | array | emptyObject | object => simp [Value.kind]
  have hread : value 127 (a ++ (u ++ (b ++ rest))) = .ok (v', b ++ rest) :=
    (valueReader 127).complete ha hu fun hnumber => absurd hnumber hkind
  obtain ⟨rest', hread', hfinish⟩ := spaced_valueText_iff.1 h
  rw [hread] at hread'
  cases hread'
  intro c hc
  exact finish_eq_ok_iff.1 hfinish c (List.mem_append_right b hc)

/-! ## Reading the members -/

/-- A member, put after the members read so far. -/
def listedMember (ms : List (String × Value)) (cs : List Char) :
    Reads (List (String × Value) × List Char) := do
  let (one, rest) ← member (value 126) [] cs
  return (ms ++ one, rest)

/-- The members of a whole text that is an object. -/
def members (t : List Char) : Reads (List (String × Value)) :=
  match skipBlanks t with
  | '{' :: cs => do
    let read := Brackets.object.fold id listedMember [] cs
    let rest ← read.2
    finish rest
    return read.1
  | cs => .error (.next .expectedValue cs)

theorem listedMemberReader :
    EntryReader .object listedMember (MemberText (ValueText 126)) fun ms m => ms ++ [m] where
  sound := by
    intro ms ms' cs rest hcs hread
    obtain ⟨⟨one, rest'⟩, hone, heq⟩ := bind_eq_ok_iff.1 hread
    cases heq
    obtain ⟨t, m, ht, hm, rfl⟩ := (memberReader (valueReader 126)).sound hcs hone
    exact ⟨t, m, ht, hm, rfl⟩
  complete := by
    intro t m rest ms hm hr
    exact bind_eq_ok_iff.2 ⟨_, (memberReader (valueReader 126)).complete [] hm hr, rfl⟩
  starts := (memberReader (valueReader 126)).starts

theorem foldl_append_singleton {α : Type} (xs ys : List α) :
    xs.foldl (fun acc x => acc ++ [x]) ys = ys ++ xs := by
  induction xs generalizing ys with
  | nil => simp
  | cons x xs ih => simp [ih]

/-- Between the braces there are the members, and after them nothing but blanks. -/
theorem fold_listedMember_iff :
    (∃ b, Brackets.object.fold id listedMember [] cs = (ms, .ok b) ∧ Blanks b) ↔
      (∃ bs b, Blanks bs ∧ Blanks b ∧ cs = bs ++ '}' :: b ∧ ms = []) ∨
        ∃ ts b, Entries (MemberText (ValueText 126)) ts ms ∧ Blanks b ∧ cs = ts ++ '}' :: b := by
  simp only [listedMemberReader.fold_eq_ok_iff, foldl_append_singleton, List.nil_append]
  constructor
  · rintro ⟨b, ⟨bs, hbs, hcs, hms⟩ | ⟨ts, xs, hts, hcs, rfl⟩, hb⟩
    · exact .inl ⟨bs, b, hbs, hb, hcs, hms⟩
    · exact .inr ⟨ts, b, hts, hb, hcs⟩
  · rintro (⟨bs, b, hbs, hb, hcs, hms⟩ | ⟨ts, b, hts, hb, hcs⟩)
    · exact ⟨b, .inl ⟨bs, hbs, hcs, hms⟩, hb⟩
    · exact ⟨b, .inr ⟨ts, ms, hts, hcs, rfl⟩, hb⟩

theorem members_of_brace (ha : Blanks a) :
    members (a ++ '{' :: cs) = .ok ms ↔
      ∃ b, Brackets.object.fold id listedMember [] cs = (ms, .ok b) ∧ Blanks b := by
  have hskip : skipBlanks (a ++ '{' :: cs) = '{' :: cs := skipBlanks_append_cons ha rfl
  rw [members, hskip]
  show ((Brackets.object.fold id listedMember [] cs).2 >>= _) = _ ↔ _
  rw [bind_eq_ok_iff]
  constructor
  · rintro ⟨b, hread, h⟩
    obtain ⟨⟨⟩, hb, heq⟩ := bind_eq_ok_iff.1 h
    exact ⟨b, Prod.ext (Except.ok.inj heq) hread, finish_eq_ok_iff.1 hb⟩
  · rintro ⟨b, hread, hb⟩
    rw [hread]
    exact ⟨b, rfl, bind_eq_ok_iff.2 ⟨(), finish_eq_ok_iff.2 hb, rfl⟩⟩

theorem members_eq_ok_iff : members t = .ok ms ↔ ObjectText t ms := by
  constructor
  · intro h
    obtain ⟨cs, hskip⟩ : ∃ cs, skipBlanks t = '{' :: cs := by
      unfold members at h
      split at h
      · next cs hskip => exact ⟨cs, hskip⟩
      · cases h
    obtain ⟨a, ha, rfl, -⟩ := skipBlanks_eq_cons_iff.1 hskip
    rw [members_of_brace ha, fold_listedMember_iff] at h
    rcases h with ⟨bs, b, hbs, hb, rfl, rfl⟩ | ⟨ts, b, hts, hb, rfl⟩
    · exact .empty ha hbs hb
    · exact .members ha hts hb
  · intro h
    cases h with
    | empty ha hbs hb =>
      exact (members_of_brace ha).2 (fold_listedMember_iff.2 (.inl ⟨_, _, hbs, hb, rfl, rfl⟩))
    | members ha hts hb =>
      exact (members_of_brace ha).2 (fold_listedMember_iff.2 (.inr ⟨_, _, hts, hb, rfl⟩))

/-- A text has its members in one way only. -/
theorem ObjectText.unique (h : ObjectText t ms) (h' : ObjectText t ms') : ms = ms' := by
  rw [← members_eq_ok_iff] at h h'
  rw [h] at h'
  exact Except.ok.inj h'

/-! ## The last member of a name -/

/-- No member has the name. -/
def Lacks (name : String) (ms : List (String × Value)) : Prop := ∀ m ∈ ms, m.1 ≠ name

/-- The last member of the name has the value. -/
def IsLast (name : String) (v : Value) (ms : List (String × Value)) : Prop :=
  ∃ pre post, ms = pre ++ (name, v) :: post ∧ Lacks name post

/-- The name is missing on both sides, or its last members have the same value. -/
def SameLast (name : String) (ms ms' : List (String × Value)) : Prop :=
  Lacks name ms ∧ Lacks name ms' ∨ ∃ v, IsLast name v ms ∧ IsLast name v ms'

namespace Members

theorem get?_of_lacks (h : Lacks name ms) : get? name ms = none := by
  induction ms with
  | nil => rfl
  | cons m ms ih =>
    rw [get?, if_neg (Ne.symm (h m (List.mem_cons_self ..)))]
    exact ih fun m' hm' => h m' (List.mem_cons_of_mem _ hm')

theorem get?_ofList_of_lacks (h : Lacks name ms) : get? name (ofList ms) = none := by
  rw [get?_ofList]
  exact get?_of_lacks fun m hm => h m (List.mem_reverse.1 hm)

theorem get?_ofList_of_isLast (h : IsLast name v ms) : get? name (ofList ms) = some v := by
  obtain ⟨pre, post, rfl, hpost⟩ := h
  have hnone : get? name post.reverse = none :=
    get?_of_lacks fun m hm => hpost m (List.mem_reverse.1 hm)
  rw [get?_ofList, List.reverse_append, List.reverse_cons, List.append_assoc, get?_append, hnone]
  simp [get?]

/-- Members of other names do not count. -/
theorem get?_ofList_of_ne {name' : String} (h : name' ≠ name) (pre post : List (String × Value)) :
    get? name' (ofList (pre ++ (name, v) :: post)) = get? name' (ofList (pre ++ post)) := by
  rw [get?_ofList, get?_ofList]
  simp [get?_append, get?, h]

theorem get?_ofList_of_sameLast (h : SameLast name ms ms') :
    get? name (ofList ms) = get? name (ofList ms') := by
  rcases h with ⟨h, h'⟩ | ⟨v, h, h'⟩
  · rw [get?_ofList_of_lacks h, get?_ofList_of_lacks h']
  · rw [get?_ofList_of_isLast h, get?_ofList_of_isLast h']

end Members

end LayerSize.Json
