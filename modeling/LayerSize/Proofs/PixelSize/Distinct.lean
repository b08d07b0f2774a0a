import Std.Data.HashSet.Lemmas
import Mathlib.Data.List.Perm.Subperm
import LayerSize.PixelSize.Distinct

/-!
# The first of equal sizes

A size is kept when no equal one is in the set, and the set holds exactly the sizes that came
before it.  So the sizes that are kept are those of the list, each once and where it comes first.

* `mem_distinctFrom_iff`, `distinctFrom_eq_filter`: what the set that one starts with leaves out;
* `distinctFrom_append`: lists one after the other;
* `distinct_keepsFirst`: the sizes that are kept.
-/

namespace LayerSize.PixelSize

variable {s : PixelSize} {xs pre post : List PixelSize} {seen seen' : Std.HashSet PixelSize}

/-! ## Starting from any set -/

theorem distinctFrom_of_mem (h : s ∈ seen) (xs : List PixelSize) :
    distinctFrom seen (s :: xs) = distinctFrom seen xs :=
  if_pos (Std.HashSet.mem_iff_contains.1 h)

theorem distinctFrom_of_notMem (h : s ∉ seen) (xs : List PixelSize) :
    distinctFrom seen (s :: xs) = s :: distinctFrom (seen.insert s) xs :=
  if_neg (mt Std.HashSet.mem_iff_contains.2 h)

/-- The set and the sizes that are kept have nothing in common, and together they are all that
has come. -/
theorem mem_distinctFrom_iff : s ∈ distinctFrom seen xs ↔ s ∈ xs ∧ s ∉ seen := by
  induction xs generalizing seen with
  | nil => simp [distinctFrom]
  | cons x xs ih =>
    by_cases hx : x ∈ seen
    · rw [distinctFrom_of_mem hx, ih, List.mem_cons]
      constructor
      · rintro ⟨hs, hseen⟩
        exact ⟨.inr hs, hseen⟩
      · rintro ⟨rfl | hs, hseen⟩
        · exact absurd hx hseen
        · exact ⟨hs, hseen⟩
    · rw [distinctFrom_of_notMem hx, List.mem_cons, List.mem_cons, ih, Std.HashSet.mem_insert,
        beq_iff_eq]
      by_cases hs : s = x
      · subst hs
        simp [hx]
      · simp [hs, Ne.symm hs]

theorem distinctFrom_sublist (seen : Std.HashSet PixelSize) (xs : List PixelSize) :
    (distinctFrom seen xs).Sublist xs := by
  induction xs generalizing seen with
  | nil => exact .slnil
  | cons x xs ih =>
    by_cases hx : x ∈ seen
    · rw [distinctFrom_of_mem hx]
      exact (ih seen).cons x
    · rw [distinctFrom_of_notMem hx]
      exact (ih _).cons_cons x

theorem distinctFrom_nodup (seen : Std.HashSet PixelSize) (xs : List PixelSize) :
    (distinctFrom seen xs).Nodup := by
  induction xs generalizing seen with
  | nil => exact .nil
  | cons x xs ih =>
    by_cases hx : x ∈ seen
    · rw [distinctFrom_of_mem hx]
      exact ih seen
    · rw [distinctFrom_of_notMem hx]
      refine List.nodup_cons.2 ⟨fun hmem => ?_, ih _⟩
      exact (mem_distinctFrom_iff.1 hmem).2 Std.HashSet.mem_insert_self

/-- A larger set leaves out its members and nothing else. -/
theorem distinctFrom_eq_filter (h : ∀ s ∈ seen, s ∈ seen') (xs : List PixelSize) :
    distinctFrom seen' xs = (distinctFrom seen xs).filter (· ∉ seen') := by
  induction xs generalizing seen seen' with
  | nil => rfl
  | cons x xs ih =>
    by_cases hx' : x ∈ seen'
    · rw [distinctFrom_of_mem hx']
      by_cases hx : x ∈ seen
      · rw [distinctFrom_of_mem hx, ih h]
      · have hinsert : ∀ s ∈ seen.insert x, s ∈ seen' := by
          intro s hs
          rw [Std.HashSet.mem_insert, beq_iff_eq] at hs
          rcases hs with rfl | hs
          · exact hx'
          · exact h s hs
        rw [distinctFrom_of_notMem hx, List.filter_cons_of_neg (by simpa using hx'), ih hinsert]
    · have hx : x ∉ seen := mt (h x) hx'
      have hinsert : ∀ s ∈ seen.insert x, s ∈ seen'.insert x := by
        intro s hs
        rw [Std.HashSet.mem_insert] at hs ⊢
        exact hs.imp_right (h s)
      rw [distinctFrom_of_notMem hx', distinctFrom_of_notMem hx,
        List.filter_cons_of_pos (by simpa using hx'), ih hinsert]
      -- what is kept after `x` is not `x` again
      refine congrArg (x :: ·) (List.filter_congr fun s hs => ?_)
      have hne : ¬ x = s := by
        rintro rfl
        exact (mem_distinctFrom_iff.1 hs).2 Std.HashSet.mem_insert_self
      simp [hne]

/-! ## One list after the other -/

theorem distinctFrom_append (seen : Std.HashSet PixelSize) (xs ys : List PixelSize) :
    distinctFrom seen (xs ++ ys) =
      distinctFrom seen xs ++ (distinctFrom seen ys).filter (· ∉ xs) := by
  induction xs generalizing seen with
  | nil => simp [distinctFrom]
  | cons x xs ih =>
    rw [List.cons_append]
    by_cases hx : x ∈ seen
    · rw [distinctFrom_of_mem hx, distinctFrom_of_mem hx, ih]
      refine congrArg (_ ++ ·) (List.filter_congr fun s hs => ?_)
      have hne : ¬ s = x := by
        rintro rfl
        exact (mem_distinctFrom_iff.1 hs).2 hx
      simp [hne]
    · have hsub : ∀ s ∈ seen, s ∈ seen.insert x :=
        fun s hs => Std.HashSet.mem_insert.2 (.inr hs)
      rw [distinctFrom_of_notMem hx, distinctFrom_of_notMem hx, ih, distinctFrom_eq_filter hsub ys,
        List.filter_filter, List.cons_append]
      refine congrArg (fun kept => x :: (_ ++ kept)) (List.filter_congr fun s hs => ?_)
      have hseen : s ∉ seen := (mem_distinctFrom_iff.1 hs).2
      have hcomm : x = s ↔ s = x := eq_comm
      rw [← Bool.decide_and, decide_eq_decide, Std.HashSet.mem_insert, beq_iff_eq, List.mem_cons,
        hcomm]
      tauto

theorem distinct_append (xs ys : List PixelSize) :
    distinct (xs ++ ys) = distinct xs ++ (distinct ys).filter (· ∉ xs) :=
  distinctFrom_append ∅ xs ys

/-- A size that has not come before is kept after those kept of what came before. -/
theorem distinct_append_cons (h : s ∉ pre) (post : List PixelSize) :
    ∃ after, distinct (pre ++ s :: post) = distinct pre ++ s :: after ∧ after.Sublist post := by
  have hempty : s ∉ (∅ : Std.HashSet PixelSize) := Std.HashSet.not_mem_empty
  refine ⟨(distinctFrom (insert s ∅) post).filter (· ∉ pre), ?_,
    List.filter_sublist.trans (distinctFrom_sublist _ post)⟩
  rw [distinct_append]
  unfold distinct
  rw [distinctFrom_of_notMem hempty, List.filter_cons_of_pos (by simpa using h)]
  rfl

/-! ## The sizes that are kept -/

/-- Of each size in a list the first one is kept, where it stands, and no other. -/
structure KeepsFirst (xs kept : List PixelSize) : Prop where
  sublist : kept.Sublist xs
  nodup : kept.Nodup
  first : ∀ pre s post, xs = pre ++ s :: post → s ∉ pre →
    ∃ before after, kept = before ++ s :: after ∧ before.Sublist pre ∧ after.Sublist post

theorem mem_distinct_iff : s ∈ distinct xs ↔ s ∈ xs := by
  rw [distinct, mem_distinctFrom_iff]
  exact and_iff_left Std.HashSet.not_mem_empty

/-- Each size is kept where it comes first.  Of two lists the second adds the sizes that are not
in the first one.  Two sizes with the width and the height exchanged are different ones. -/
theorem distinct_keepsFirst (xs ys : List PixelSize) :
    KeepsFirst xs (distinct xs) ∧
      distinct (xs ++ ys) = distinct xs ++ (distinct ys).filter (· ∉ xs) ∧
      ∀ w h : Int32, w ≠ h → ⟨w, h⟩ ∈ xs → ⟨h, w⟩ ∈ xs →
        List.Subperm [⟨w, h⟩, ⟨h, w⟩] (distinct xs) := by
  refine ⟨⟨distinctFrom_sublist ∅ xs, distinctFrom_nodup ∅ xs, ?_⟩, distinct_append xs ys, ?_⟩
  · rintro pre s post rfl hs
    obtain ⟨after, hkept, hafter⟩ := distinct_append_cons hs post
    exact ⟨distinct pre, after, hkept, distinctFrom_sublist ∅ pre, hafter⟩
  · intro w h hne hmem hmem'
    have hnodup : [(⟨w, h⟩ : PixelSize), ⟨h, w⟩].Nodup := by simp [hne]
    refine hnodup.subperm fun s hs => mem_distinct_iff.2 ?_
    rcases List.mem_pair.1 hs with rfl | rfl
    · exact hmem
    · exact hmem'

/-- A size that comes again, after the one with its components exchanged. -/
theorem distinct_keepsFirst_exchanged :
    let xs : List PixelSize := [⟨-3, 1⟩, ⟨1, -3⟩, ⟨-3, 1⟩]
    (-3 : Int32) ≠ 1 ∧ List.Subperm [⟨-3, 1⟩, ⟨1, -3⟩] (distinct xs) ∧
      KeepsFirst xs (distinct xs) := by
  intro xs
  obtain ⟨hfirst, -, hexchanged⟩ := distinct_keepsFirst xs []
  exact ⟨by decide, hexchanged (-3) 1 (by decide) (by simp [xs]) (by simp [xs]), hfirst⟩

end LayerSize.PixelSize
