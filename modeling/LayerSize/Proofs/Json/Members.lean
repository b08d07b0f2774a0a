import Mathlib.Data.String.Basic
import LayerSize.Proofs.Json.Grammar

/-!
# The members of an object

Members that are inserted one after the other are kept in the ascending order of their names,
the last value of each name.

* `get?_ofList`: the value kept for a name is the last one given;
* `merged_iff`: there is one way to keep a list of members, and it is `Members.ofList`.
-/

namespace LayerSize.Json.Members

variable {α : Type}

theorem get?_append (name : String) (ms ms' : List (String × α)) :
    get? name (ms ++ ms') = (get? name ms).or (get? name ms') := by
  induction ms with
  | nil => rfl
  | cons m ms ih =>
    rw [List.cons_append, get?, get?]
    split
    · rfl
    · exact ih

theorem get?_foldl_insert (name : String) (ms kept : List (String × α)) :
    get? name (ms.foldl (fun acc m => insert m.1 m.2 acc) kept) =
      (get? name ms.reverse).or (get? name kept) := by
  induction ms generalizing kept with
  | nil => rfl
  | cons m ms ih =>
    rw [List.foldl_cons, ih, get?_insert, List.reverse_cons, get?_append, Option.or_assoc]
    congr 1
    rw [get?]
    split <;> rfl

/-- The value of a name is the last one that is given. -/
theorem get?_ofList (name : String) (ms : List (String × α)) :
    get? name (ofList ms) = get? name ms.reverse := by
  rw [ofList, get?_foldl_insert]
  exact Option.or_none

/-- The names are in ascending order, so there is one member of each name. -/
def Ascending (ms : List (String × α)) : Prop := ms.Pairwise fun m m' => m.1 < m'.1

theorem mem_insert {name : String} {value : α} {ms : List (String × α)} {m : String × α}
    (h : m ∈ insert name value ms) : m = (name, value) ∨ m ∈ ms := by
  induction ms with
  | nil => exact .inl (by simpa [insert] using h)
  | cons m' ms ih =>
    rw [insert] at h
    split at h
    · rcases List.mem_cons.1 h with h | h
      · exact .inl h
      · exact .inr h
    · split at h
      · rcases List.mem_cons.1 h with h | h
        · exact .inl h
        · exact .inr (List.mem_cons_of_mem _ h)
      · rcases List.mem_cons.1 h with h | h
        · exact .inr (h ▸ List.mem_cons_self ..)
        · rcases ih h with h | h
          · exact .inl h
          · exact .inr (List.mem_cons_of_mem _ h)

theorem ascending_insert {name : String} {value : α} {ms : List (String × α)}
    (h : Ascending ms) : Ascending (insert name value ms) := by
  induction ms with
  | nil => simp [insert, Ascending]
  | cons m ms ih =>
    obtain ⟨hm, hms⟩ := List.pairwise_cons.1 h
    rw [insert]
    split
    · next hlt =>
      refine List.pairwise_cons.2 ⟨?_, h⟩
      intro m' hm'
      rcases List.mem_cons.1 hm' with rfl | hm'
      · exact hlt
      · exact lt_trans hlt (hm m' hm')
    · next hge =>
      split
      · next heq =>
        refine List.pairwise_cons.2 ⟨?_, hms⟩
        intro m' hm'
        exact heq ▸ hm m' hm'
      · next hne =>
        refine List.pairwise_cons.2 ⟨?_, ih hms⟩
        intro m' hm'
        rcases mem_insert hm' with rfl | hm'
        · exact lt_of_le_of_ne (not_lt.1 hge) (Ne.symm hne)
        · exact hm m' hm'

theorem ascending_ofList (ms : List (String × α)) : Ascending (ofList ms) := by
  have h : ∀ kept : List (String × α), Ascending kept →
      Ascending (ms.foldl (fun acc m => insert m.1 m.2 acc) kept) := by
    induction ms with
    | nil => exact fun _ h => h
    | cons m ms ih => exact fun kept hk => ih _ (ascending_insert hk)
  exact h [] List.Pairwise.nil

theorem get?_eq_none_of_lt {name : String} {ms : List (String × α)}
    (h : ∀ m ∈ ms, name < m.1) : get? name ms = none := by
  induction ms with
  | nil => rfl
  | cons m ms ih =>
    rw [get?, if_neg (ne_of_lt (h m (List.mem_cons_self ..)))]
    exact ih fun m' hm' => h m' (List.mem_cons_of_mem _ hm')

section

variable {m m' : String × α} {ms ms' : List (String × α)} (h' : Ascending (m' :: ms'))
  (hget : ∀ name, get? name (m :: ms) = get? name (m' :: ms'))

include h' hget

/-- The lesser of two first names would be missing on the other side. -/
theorem not_lt_of_get?_eq : ¬ m.1 < m'.1 := by
  intro hlt
  have hnone : get? m.1 (m' :: ms') = none := by
    apply get?_eq_none_of_lt
    intro m'' hm''
    rcases List.mem_cons.1 hm'' with rfl | hm''
    · exact hlt
    · exact lt_trans hlt ((List.pairwise_cons.1 h').1 m'' hm'')
  have := hget m.1
  rw [hnone] at this
  simp [get?] at this

theorem head_eq_of_get?_eq (h : Ascending (m :: ms)) : m = m' := by
  have hname : m.1 = m'.1 := by
    apply le_antisymm
    · exact not_lt.1 (not_lt_of_get?_eq h fun name => (hget name).symm)
    · exact not_lt.1 (not_lt_of_get?_eq h' hget)
  have hvalue := hget m.1
  rw [get?, get?, if_pos rfl, if_pos hname, Option.some.injEq] at hvalue
  exact Prod.ext hname hvalue

end

/-- In ascending order, members are determined by the values of the names. -/
theorem eq_of_get?_eq {ms ms' : List (String × α)} (h : Ascending ms) (h' : Ascending ms')
    (hget : ∀ name, get? name ms = get? name ms') : ms = ms' := by
  induction ms generalizing ms' with
  | nil =>
    cases ms' with
    | nil => rfl
    | cons m' ms' =>
      have := hget m'.1
      simp [get?] at this
  | cons m ms ih =>
    cases ms' with
    | nil =>
      have := hget m.1
      simp [get?] at this
    | cons m' ms' =>
      obtain rfl := head_eq_of_get?_eq h' hget h
      obtain ⟨hm, hms⟩ := List.pairwise_cons.1 h
      obtain ⟨hm', hms'⟩ := List.pairwise_cons.1 h'
      rw [ih hms hms']
      intro name
      by_cases hname : name = m.1
      · rw [hname, get?_eq_none_of_lt hm, get?_eq_none_of_lt hm']
      · have := hget name
        simpa [get?, hname] using this

/-- There is one way to keep members. -/
theorem merged_iff {ms kept : List (String × Value)} : Merged ms kept ↔ kept = ofList ms := by
  constructor
  · rintro ⟨hsorted, hget⟩
    refine eq_of_get?_eq hsorted (ascending_ofList ms) fun name => ?_
    rw [hget, get?_ofList]
  · rintro rfl
    exact ⟨ascending_ofList ms, fun name => get?_ofList name ms⟩

end LayerSize.Json.Members
