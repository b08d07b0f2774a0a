import Mathlib.Data.List.Forall2
import LayerSize.Proofs.Json.Reading

/-!
# Entries that are joined with commas

A text between brackets is put together from the texts of its entries.  Reading it takes them
one after the other, and what was taken does not depend on what follows.

* `IsJson`: a value with blanks around it and a limit on its brackets;
* `Leads`: a computation with a bound on its steps comes to another;
* `TakesAll.fold_closed`, `TakesAll.fold_stopped`: entries up to the closing bracket, or up to
  one that is faulty.
-/

namespace LayerSize.Json

/-! ## Entries with blanks around them -/

section Spaced

variable {α : Type} {Entry Entry' : List Char → α → Prop} {t : List Char} {x : α}

theorem Spaced.of_entry (h : Entry t x) : Spaced Entry t x :=
  ⟨[], t, [], by simp, .nil, h, .nil⟩

theorem Spaced.mono (hle : ∀ {t x}, Entry t x → Entry' t x) (h : Spaced Entry t x) :
    Spaced Entry' t x := by
  obtain ⟨a, u, b, rfl, ha, hu, hb⟩ := h
  exact ⟨a, u, b, rfl, ha, hle hu, hb⟩

theorem Entries.map {β : Type} {EntryOf : List Char → β → Prop} {f : α → β} {ts : List Char}
    {xs : List α} (hle : ∀ {t x}, Entry t x → EntryOf t (f x)) (h : Entries Entry ts xs) :
    Entries EntryOf ts (xs.map f) := by
  induction h with
  | last ha h hb => exact .last ha (hle h) hb
  | cons ha h hb _ ih => exact .cons ha (hle h) hb ih

theorem Entries.mono {ts : List Char} {xs : List α} (hle : ∀ {t x}, Entry t x → Entry' t x)
    (h : Entries Entry ts xs) : Entries Entry' ts xs := by
  have hmap : Entries Entry' ts (xs.map id) := h.map hle
  rwa [List.map_id] at hmap

end Spaced

/-! ## Fewer brackets -/

section

variable {room room' : Nat} {t : List Char} {v : Value} {Inner Inner' : List Char → Value → Prop}

theorem MemberText.mono {m : String × Value} (hle : ∀ {t v}, Inner t v → Inner' t v)
    (h : MemberText Inner t m) : MemberText Inner' t m := by
  cases h with
  | mk hq ha hb h => exact .mk hq ha hb (hle h)

theorem NestedText.mono (hle : ∀ {t v}, Inner t v → Inner' t v) (h : NestedText Inner t v) :
    NestedText Inner' t v := by
  cases h with
  | scalar h => exact .scalar h
  | emptyArray h => exact .emptyArray h
  | array h => exact .array (h.mono hle)
  | emptyObject h => exact .emptyObject h
  | object h hk => exact .object (h.mono fun hm => hm.mono hle) hk

theorem ValueText.succ (h : ValueText room t v) : ValueText (room + 1) t v := by
  induction room generalizing t v with
  | zero => exact .scalar h
  | succ room ih => exact h.mono ih

theorem ValueText.mono (hle : room ≤ room') (h : ValueText room t v) : ValueText room' t v := by
  induction hle with
  | refl => exact h
  | step _ ih => exact ih.succ

/-! ## Texts of values -/

/-- The text is a value, with blanks around it, and has at most so many brackets open at any
place. -/
def IsJson (room : Nat) (t : List Char) : Prop := ∃ v, Spaced (ValueText room) t v

theorem isJson_iff : IsJson room t ↔ (value room t >>= fun read => finish read.2) = .ok () := by
  rw [bind_eq_ok_iff, Prod.exists]
  exact exists_congr fun _ => spaced_valueText_iff

instance (room : Nat) (t : List Char) : Decidable (IsJson room t) :=
  decidable_of_iff _ isJson_iff.symm

end

/-! ## Computations with a bound -/

section Leads

variable {β : Type} {f g h : List Char → Nat → β} {cs cs' cs'' : List Char}

/-- A computation on a text, with a bound on its steps, comes to another on the rest of the
text.  It has taken no more steps than characters, whatever the bound was. -/
def Leads (f : List Char → Nat → β) (cs : List Char) (g : List Char → Nat → β)
    (cs' : List Char) : Prop :=
  ∃ k, k + cs'.length ≤ cs.length ∧ ∀ n, f cs (k + n) = g cs' n

namespace Leads

theorem of_eq (hf : ∀ n, f cs n = g cs' n) (hlen : cs'.length ≤ cs.length) : Leads f cs g cs' :=
  ⟨0, by omega, fun n => by rw [Nat.zero_add, hf]⟩

theorem of_step (hf : ∀ n, f cs (n + 1) = g cs' n) (hlen : cs'.length < cs.length) :
    Leads f cs g cs' :=
  ⟨1, by omega, fun n => by rw [Nat.add_comm, hf]⟩

theorem refl : Leads f cs f cs := of_eq (fun _ => rfl) le_rfl

theorem trans (h₁ : Leads f cs g cs') (h₂ : Leads g cs' h cs'') : Leads f cs h cs'' := by
  obtain ⟨k, hk, hf⟩ := h₁
  obtain ⟨l, hl, hg⟩ := h₂
  refine ⟨k + l, by omega, fun n => ?_⟩
  rw [Nat.add_assoc, hf, hg]

/-- A bound that is large enough for the text leaves one that is for its rest. -/
theorem exists_eq (h : Leads f cs g cs') {n : Nat} (hn : cs.length ≤ n) :
    ∃ m, cs'.length ≤ m ∧ f cs n = g cs' m := by
  obtain ⟨k, hk, hf⟩ := h
  refine ⟨n - k, by omega, ?_⟩
  rw [← hf, Nat.add_sub_cancel' (by omega)]

end Leads

end Leads

/-! ## Joining with commas -/

/-- Every text with a comma after it. -/
def withCommas (ts : List (List Char)) : List Char := ts.flatMap fun t => t ++ [',']

@[simp] theorem withCommas_nil : withCommas [] = [] := rfl

@[simp] theorem withCommas_cons (t : List Char) (ts : List (List Char)) :
    withCommas (t :: ts) = t ++ ',' :: withCommas ts := by
  simp [withCommas]

theorem intercalate_append_cons (ts : List (List Char)) (t : List Char) (ts' : List (List Char)) :
    [','].intercalate (ts ++ t :: ts') = withCommas ts ++ [','].intercalate (t :: ts') := by
  induction ts with
  | nil => rfl
  | cons t' ts ih =>
    rw [List.cons_append, List.intercalate_cons_of_ne_nil (by simp), ih]
    simp

theorem intercalate_concat (ts : List (List Char)) (t : List Char) :
    [','].intercalate (ts ++ [t]) = withCommas ts ++ t := by
  rw [intercalate_append_cons, List.intercalate_singleton]

/-- What comes after one of the texts is a comma, or what comes after all of them. -/
theorem exists_intercalate_append (t : List Char) (ts : List (List Char)) (rest : List Char) :
    ∃ rest', [','].intercalate (t :: ts) ++ rest = t ++ rest' ∧
      ((∃ cs, rest' = ',' :: cs) ∨ rest' = rest) := by
  cases ts with
  | nil => exact ⟨rest, by rw [List.intercalate_singleton], .inr rfl⟩
  | cons t' ts =>
    refine ⟨',' :: ([','].intercalate (t' :: ts) ++ rest), ?_, .inl ⟨_, rfl⟩⟩
    rw [List.intercalate_cons_cons]
    simp

/-- The text of a value ends at the comma after it, not at one inside it. -/
theorem IsJson.comma_inj {room : Nat} {t t' cs cs' : List Char} (h : IsJson room t)
    (h' : IsJson room t') (happ : t ++ ',' :: cs = t' ++ ',' :: cs') : t = t' ∧ cs = cs' := by
  obtain ⟨v, a, u, b, rfl, ha, hu, hb⟩ := h
  obtain ⟨v', a', u', b', rfl, ha', hu', hb'⟩ := h'
  have hread : ∀ {a u b v cs}, Blanks a → ValueText room u v → Blanks b →
      value room (a ++ (u ++ b) ++ ',' :: cs) = .ok (v, b ++ ',' :: cs) := by
    intro a u b v cs ha hu hb
    rw [List.append_assoc, List.append_assoc]
    exact (valueReader room).complete ha hu fun _ => hb.noLiteral (by simp [NoLiteral])
  have heq := (hread ha hu hb).symm.trans (happ ▸ hread ha' hu' hb')
  obtain ⟨-, hrest⟩ := Prod.mk.inj (Except.ok.inj heq)
  have hskip := congrArg skipBlanks hrest
  rw [skipBlanks_append_cons hb rfl, skipBlanks_append_cons hb' rfl] at hskip
  obtain rfl := (List.cons.inj hskip).2
  exact ⟨List.append_cancel_right happ, rfl⟩

/-- Of two ways to find values with commas after them at the start of a text, one goes on where
the other one stops. -/
theorem withCommas_split {room : Nat} {ts ts' : List (List Char)} {cs cs' : List Char}
    (h : ∀ t ∈ ts, IsJson room t) (h' : ∀ t ∈ ts', IsJson room t) (hle : ts.length ≤ ts'.length)
    (happ : withCommas ts ++ cs = withCommas ts' ++ cs') :
    ∃ more, ts' = ts ++ more ∧ cs = withCommas more ++ cs' := by
  induction ts generalizing ts' with
  | nil => exact ⟨ts', rfl, happ⟩
  | cons t ts ih =>
    cases ts' with
    | nil => simp at hle
    | cons t' ts' =>
      rw [withCommas_cons, withCommas_cons, List.append_assoc, List.append_assoc] at happ
      obtain ⟨rfl, htail⟩ := (h t (List.mem_cons_self ..)).comma_inj
        (h' t' (List.mem_cons_self ..)) happ
      obtain ⟨more, rfl, hcs⟩ := ih (fun t ht => h t (List.mem_cons_of_mem _ ht))
        (fun t ht => h' t (List.mem_cons_of_mem _ ht)) (by simpa using hle) htail
      exact ⟨more, rfl, hcs⟩

/-- Entries that are joined with commas are entries by the grammar. -/
theorem entries_intercalate {α : Type} {Entry : List Char → α → Prop} {ts : List (List Char)}
    {xs : List α} (h : List.Forall₂ (Spaced Entry) ts xs) (hne : ts ≠ []) :
    Entries Entry ([','].intercalate ts) xs := by
  induction h with
  | nil => exact absurd rfl hne
  | @cons t x ts xs ht hts ih =>
    obtain ⟨a, u, b, rfl, ha, hu, hb⟩ := ht
    cases hts with
    | nil =>
      rw [List.intercalate_singleton]
      exact .last ha hu hb
    | @cons t' x' ts xs ht' hts' =>
      have happ : [','].intercalate ((a ++ (u ++ b)) :: t' :: ts) =
          a ++ (u ++ (b ++ ',' :: [','].intercalate (t' :: ts))) := by
        rw [List.intercalate_cons_cons]
        simp
      rw [happ]
      exact .cons ha hu hb (ih (by simp))

/-! ## Taking entries one after the other -/

section TakesAll

variable {σ κ : Type} {b : Brackets} {lift : Cause → κ}
  {entry : σ → List Char → Except (Fault κ) (σ × List Char)} {s s' s'' : σ} {t : List Char}
  {ts ts' : List (List Char)} {bs cs rest : List Char}

/-- The texts are taken as entries one after the other. -/
inductive TakesAll (b : Brackets) (entry : σ → List Char → Except (Fault κ) (σ × List Char)) :
    σ → List (List Char) → σ → Prop where
  | nil {s : σ} : TakesAll b entry s [] s
  | cons {s s' s'' : σ} {t : List Char} {ts : List (List Char)} (h : Takes b entry s t s')
      (hs : TakesAll b entry s' ts s'') : TakesAll b entry s (t :: ts) s''

theorem TakesAll.append (h : TakesAll b entry s ts s') (h' : TakesAll b entry s' ts' s'') :
    TakesAll b entry s (ts ++ ts') s'' := by
  induction h with
  | nil => exact h'
  | cons ht _ ih => exact .cons ht (ih h')

theorem TakesAll.of_concat (h : TakesAll b entry s (ts ++ [t]) s'') :
    ∃ s', TakesAll b entry s ts s' ∧ Takes b entry s' t s'' := by
  induction ts generalizing s with
  | nil =>
    cases h with
    | cons ht hts =>
      cases hts
      exact ⟨s, .nil, ht⟩
  | cons t' ts ih =>
    cases h with
    | cons ht hts =>
      obtain ⟨s', hs', ht'⟩ := ih hts
      exact ⟨s', .cons ht hs', ht'⟩

/-- The computation of the entries that are left. -/
def Brackets.folding (b : Brackets) (lift : Cause → κ)
    (entry : σ → List Char → Except (Fault κ) (σ × List Char)) (s : σ) (cs : List Char) (n : Nat) :
    σ × Except (Fault κ) (List Char) :=
  b.foldFrom lift entry n s (b.first cs)

theorem Brackets.first_blanks (hbs : Blanks bs) (cs : List Char) :
    b.first (bs ++ cs) = b.first cs := by
  unfold first
  rw [skipBlanks_of_blanks hbs]

/-- Entries that are taken lead to the next entry. -/
theorem TakesAll.leads (h : TakesAll b entry s ts s') (hcs : b.first cs = .ok (.entry rest)) :
    Leads (b.folding lift entry s) (withCommas ts ++ cs) (b.folding lift entry s') cs ∧
      ∃ rest', b.first (withCommas ts ++ cs) = .ok (.entry rest') := by
  induction h with
  | nil => exact ⟨.refl, rest, hcs⟩
  | @cons s s' s'' t ts ht hts ih =>
    obtain ⟨hleads, rest', hrest'⟩ := ih
    have happ : withCommas (t :: ts) ++ cs = t ++ ',' :: (withCommas ts ++ cs) := by simp
    rw [happ]
    constructor
    · exact (Leads.of_step (ht.foldFrom_comma hrest') (by simp; omega)).trans hleads
    · obtain ⟨u, -, hu, -⟩ := ht (',' :: (withCommas ts ++ cs)) (by simp [NoLiteral])
      exact ⟨u, hu⟩

/-- Reading all entries is the computation with as many steps as characters. -/
theorem TakesAll.fold_eq (lift : Cause → κ) (h : TakesAll b entry s ts s') (hbs : Blanks bs)
    (hcs : b.first cs = .ok (.entry rest)) :
    ∃ n, b.fold lift entry s (bs ++ (withCommas ts ++ cs)) =
      b.foldFrom lift entry (n + 1) s' (b.first cs) := by
  have hne : cs ≠ [] := by
    rintro rfl
    cases hcs
  have hpos : 0 < cs.length := List.length_pos_iff.2 hne
  obtain ⟨m, hm, heq⟩ := (h.leads hcs).1.exists_eq (n := (bs ++ (withCommas ts ++ cs)).length)
    (by simp)
  refine ⟨m - 1, ?_⟩
  rw [Brackets.fold, Brackets.first_blanks hbs, Nat.sub_add_cancel (by omega)]
  exact heq

/-- All entries are taken, and then the brackets close. -/
theorem TakesAll.fold_closed (h : TakesAll b entry s ts s') (hbs : Blanks bs) (rest : List Char) :
    b.fold lift entry s (bs ++ ([','].intercalate ts ++ b.close :: rest)) = (s', .ok rest) := by
  rcases List.eq_nil_or_concat' ts with rfl | ⟨ts, t, rfl⟩
  · cases h
    have hclosed : b.first (bs ++ b.close :: rest) = .ok (.closed rest) :=
      Brackets.first_eq_closed_iff.2 ⟨bs, hbs, rfl⟩
    rw [List.intercalate_nil, List.nil_append, Brackets.fold, hclosed, Brackets.foldFrom]
  · obtain ⟨s₁, hts, ht⟩ := h.of_concat
    obtain ⟨u, -, hu, -⟩ := ht (b.close :: rest) Brackets.noLiteral_close
    obtain ⟨n, hn⟩ := hts.fold_eq lift hbs hu
    rw [intercalate_concat, List.append_assoc, hn, ht.foldFrom_close]

/-- The entries are taken up to one that is faulty. -/
theorem TakesAll.fold_stopped {fault : Fault κ} (h : TakesAll b entry s ts s') (hbs : Blanks bs)
    (hcs : b.first cs = .ok (.entry rest)) (hfault : entry s' rest = .error fault) :
    b.fold lift entry s (bs ++ (withCommas ts ++ cs)) = (s', .error fault) := by
  obtain ⟨n, hn⟩ := h.fold_eq lift hbs hcs
  rw [hn, hcs, Brackets.foldFrom, hfault]

end TakesAll

end LayerSize.Json
