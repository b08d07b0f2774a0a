import LayerSize.Proofs.Json.Literals

/-!
# Reading arrays and objects

The reader of brackets against the grammar of entries, for any reader of one entry: when one
entry is read exactly where the grammar has one, the entries up to the closing bracket are too.

* `Takes`: a text is read as one entry, up to a comma or to the closing bracket;
* `EntryReader`: a reader of one entry that agrees with the grammar of one entry;
* `EntryReader.fold_eq_ok_iff`: what is then read between brackets.
-/

namespace LayerSize.Json

variable {c : Char} {cs cs' rest bs : List Char} {b : Brackets}

/-! ## Blanks -/

theorem isBlank_iff : isBlank c = true ↔ c ∈ [' ', '\n', '\t', '\r'] := by
  simp [isBlank, or_assoc]

theorem Blanks.nil : Blanks [] := by
  intro c hc
  cases hc

theorem Blanks.append (h : Blanks bs) (h' : Blanks cs) : Blanks (bs ++ cs) := by
  intro c hc
  rcases List.mem_append.1 hc with hc | hc
  · exact h c hc
  · exact h' c hc

theorem skipBlanks_of_blanks (h : Blanks bs) (cs : List Char) :
    skipBlanks (bs ++ cs) = skipBlanks cs :=
  skipBlanks_append (fun b hb => isBlank_iff.2 (h b hb)) cs

/-- The text that is left after its first blanks is the text but for blanks. -/
theorem exists_blanks (cs : List Char) : ∃ bs, Blanks bs ∧ cs = bs ++ skipBlanks cs := by
  refine ⟨cs.takeWhile isBlank, ?_, (List.takeWhile_append_dropWhile ..).symm⟩
  intro b hb
  exact isBlank_iff.1 (List.all_eq_true.1 List.all_takeWhile b hb)

theorem skipBlanks_eq_cons_iff :
    skipBlanks cs = c :: rest ↔ ∃ bs, Blanks bs ∧ cs = bs ++ c :: rest ∧ isBlank c = false := by
  constructor
  · intro h
    obtain ⟨bs, hbs, hcs⟩ := exists_blanks cs
    exact ⟨bs, hbs, by rw [← h, ← hcs], isBlank_of_skipBlanks h⟩
  · rintro ⟨bs, hbs, rfl, hc⟩
    rw [skipBlanks_of_blanks hbs, skipBlanks_cons, hc]
    rfl

theorem skipBlanks_append_cons (h : Blanks bs) (hc : isBlank c = false) :
    skipBlanks (bs ++ c :: rest) = c :: rest :=
  skipBlanks_eq_cons_iff.2 ⟨bs, h, rfl, hc⟩

theorem skipBlanks_eq_nil_iff : skipBlanks cs = [] ↔ Blanks cs := by
  constructor
  · intro h
    obtain ⟨bs, hbs, hcs⟩ := exists_blanks cs
    rw [h, List.append_nil] at hcs
    rwa [hcs]
  · intro h
    rw [← List.append_nil cs, skipBlanks_of_blanks h, skipBlanks_nil]

theorem finish_eq_ok_iff : finish cs = .ok () ↔ Blanks cs := by
  rw [← skipBlanks_eq_nil_iff, finish]
  cases skipBlanks cs with
  | nil => simp
  | cons c cs => simp

/-- A number does not go on with blanks. -/
theorem Blanks.noLiteral (h : Blanks bs) (hr : NoLiteral rest) : NoLiteral (bs ++ rest) := by
  cases bs with
  | nil => exact hr
  | cons b bs =>
    have hb := h b (List.mem_cons_self ..)
    simp only [List.mem_cons, List.not_mem_nil, or_false] at hb
    rcases hb with rfl | rfl | rfl | rfl <;> simp [NoLiteral]

/-! ## What comes next -/

namespace Brackets

/-- The text starts with an entry: with something that is neither a blank nor the closing
bracket. -/
def Starts (b : Brackets) (cs : List Char) : Prop :=
  ∃ c rest, cs = c :: rest ∧ isBlank c = false ∧ c ≠ b.close

theorem isBlank_close : isBlank b.close = false := by
  cases b <;> rfl

theorem close_ne_comma : b.close ≠ ',' := by
  cases b <;> decide

/-- A number does not go on with a closing bracket. -/
theorem noLiteral_close : NoLiteral (b.close :: rest) := by
  cases b <;> simp [NoLiteral, close]

theorem first_eq_closed_iff :
    b.first cs = .ok (.closed rest) ↔ ∃ bs, Blanks bs ∧ cs = bs ++ b.close :: rest := by
  constructor
  · intro h
    unfold first at h
    split at h
    · cases h
    · next c cs' hc =>
      obtain ⟨bs, hbs, hcs, -⟩ := skipBlanks_eq_cons_iff.1 hc
      split at h
      · next hclose =>
        cases h
        exact ⟨bs, hbs, hclose ▸ hcs⟩
      · cases h
  · rintro ⟨bs, hbs, rfl⟩
    simp [first, skipBlanks_append_cons hbs isBlank_close]

theorem first_eq_entry_iff :
    b.first cs = .ok (.entry rest) ↔ ∃ bs, Blanks bs ∧ cs = bs ++ rest ∧ b.Starts rest := by
  constructor
  · intro h
    unfold first at h
    split at h
    · cases h
    · next c cs' hc =>
      obtain ⟨bs, hbs, hcs, hblank⟩ := skipBlanks_eq_cons_iff.1 hc
      split at h
      · cases h
      · next hclose =>
        cases h
        exact ⟨bs, hbs, hcs, c, cs', rfl, hblank, hclose⟩
  · rintro ⟨bs, hbs, rfl, c, cs', rfl, hblank, hclose⟩
    simp [first, skipBlanks_append_cons hbs hblank, hclose]

theorem afterComma_eq_ok_iff {next : Next} :
    b.afterComma cs = .ok next ↔ ∃ rest, next = .entry rest ∧ b.first cs = .ok (.entry rest) := by
  unfold afterComma first
  split
  · simp
  · next c cs' hc =>
    by_cases hclose : c = b.close
    · simp [hclose]
    · simp [hclose, eq_comm]

theorem following_eq_closed_iff :
    b.following cs = .ok (.closed rest) ↔ ∃ bs, Blanks bs ∧ cs = bs ++ b.close :: rest := by
  rw [← first_eq_closed_iff]
  unfold following first
  split
  · simp
  · next c cs' hc =>
    by_cases hclose : c = b.close
    · simp [hclose]
    · by_cases hcomma : c = ','
      · simp only [hcomma, close_ne_comma.symm, if_false, if_true]
        simp [afterComma_eq_ok_iff]
      · simp [hclose, hcomma]

theorem following_eq_entry_iff :
    b.following cs = .ok (.entry rest) ↔
      ∃ bs bs', Blanks bs ∧ Blanks bs' ∧ cs = bs ++ ',' :: (bs' ++ rest) ∧ b.Starts rest := by
  constructor
  · intro h
    unfold following at h
    split at h
    · cases h
    · next c cs' hc =>
      obtain ⟨bs, hbs, hcs, -⟩ := skipBlanks_eq_cons_iff.1 hc
      split at h
      · cases h
      · split at h
        · next hcomma =>
          obtain ⟨_, heq, hfirst⟩ := afterComma_eq_ok_iff.1 h
          cases heq
          obtain ⟨bs', hbs', hcs', hstarts⟩ := first_eq_entry_iff.1 hfirst
          exact ⟨bs, bs', hbs, hbs', by rw [hcs, hcomma, hcs'], hstarts⟩
        · cases h
  · rintro ⟨bs, bs', hbs, hbs', rfl, hstarts⟩
    have hfirst := first_eq_entry_iff.2 ⟨bs', hbs', rfl, hstarts⟩
    have hcomma : isBlank ',' = false := rfl
    simp only [following, skipBlanks_append_cons hbs hcomma, close_ne_comma.symm, if_false, if_true]
    exact afterComma_eq_ok_iff.2 ⟨rest, rfl, hfirst⟩

theorem following_comma (hbs : Blanks bs) (h : b.first cs = .ok (.entry rest)) :
    b.following (bs ++ ',' :: cs) = .ok (.entry rest) := by
  obtain ⟨bs', hbs', rfl, hstarts⟩ := first_eq_entry_iff.1 h
  exact following_eq_entry_iff.2 ⟨bs, bs', hbs, hbs', rfl, hstarts⟩

end Brackets

/-! ## Entries -/

section Entries

variable {α : Type} {Entry : List Char → α → Prop} {t ts : List Char} {x : α} {xs : List α}

/-- More blanks may stand before entries. -/
theorem Entries.blanks_append (hbs : Blanks bs) (h : Entries Entry ts xs) :
    Entries Entry (bs ++ ts) xs := by
  cases h with
  | last ha he hb =>
    rw [← List.append_assoc]
    exact .last (hbs.append ha) he hb
  | cons ha he hb hs =>
    rw [← List.append_assoc]
    exact .cons (hbs.append ha) he hb hs

theorem Brackets.Starts.first (ht : b.Starts t) (ha : Blanks bs) (rest : List Char) :
    b.first (bs ++ (t ++ rest)) = .ok (.entry (t ++ rest)) := by
  obtain ⟨c, t', rfl, hc⟩ := ht
  exact first_eq_entry_iff.2 ⟨bs, ha, rfl, c, t' ++ rest, rfl, hc⟩

/-- After blanks, entries start with one. -/
theorem Entries.starts (hentry : ∀ {t x}, Entry t x → b.Starts t) (h : Entries Entry ts xs)
    (rest : List Char) : ∃ cs, b.first (ts ++ rest) = .ok (.entry cs) := by
  cases h with
  | last ha he hb | cons ha he hb =>
    rw [List.append_assoc, List.append_assoc]
    exact ⟨_, (hentry he).first ha _⟩

/-- Every entry takes a character at least. -/
theorem Entries.length_le (hentry : ∀ {t x}, Entry t x → b.Starts t)
    (h : Entries Entry ts xs) : xs.length ≤ ts.length := by
  induction h with
  | last ha he hb =>
    obtain ⟨c, t', rfl, -⟩ := hentry he
    simp
    omega
  | cons ha he hb hs ih =>
    obtain ⟨c, t', rfl, -⟩ := hentry he
    simp
    omega

end Entries

/-! ## Taking one entry -/

section Takes

variable {σ κ : Type} {lift : Cause → κ} {entry : σ → List Char → Except (Fault κ) (σ × List Char)}
  {s s' : σ} {t : List Char}

/-- A text, blanks around it included, is taken as an entry that changes the state, wherever no
number goes on after it. -/
def Takes (b : Brackets) (entry : σ → List Char → Except (Fault κ) (σ × List Char)) (s : σ)
    (t : List Char) (s' : σ) : Prop :=
  ∀ rest, NoLiteral rest → ∃ u bs, b.first (t ++ rest) = .ok (.entry u) ∧
    entry s u = .ok (s', bs ++ rest) ∧ Blanks bs

theorem Takes.foldFrom_comma (h : Takes b entry s t s') (hcs : b.first cs = .ok (.entry rest))
    (n : Nat) :
    b.foldFrom lift entry (n + 1) s (b.first (t ++ ',' :: cs)) =
      b.foldFrom lift entry n s' (b.first cs) := by
  obtain ⟨u, bs, hfirst, hread, hbs⟩ := h (',' :: cs) (by simp [NoLiteral])
  rw [hfirst, Brackets.foldFrom, hread, hcs]
  dsimp only
  rw [Brackets.following_comma hbs hcs]

theorem Takes.foldFrom_close (h : Takes b entry s t s') (rest : List Char) (n : Nat) :
    b.foldFrom lift entry (n + 1) s (b.first (t ++ b.close :: rest)) = (s', .ok rest) := by
  obtain ⟨u, bs, hfirst, hread, hbs⟩ := h (b.close :: rest) Brackets.noLiteral_close
  have hnext : b.following (bs ++ b.close :: rest) = .ok (.closed rest) :=
    Brackets.following_eq_closed_iff.2 ⟨bs, hbs, rfl⟩
  rw [hfirst, Brackets.foldFrom, hread]
  dsimp only
  rw [hnext, Brackets.foldFrom]

end Takes

/-! ## Readers of entries -/

/-- A reader of entries agrees with the grammar of one entry: what it takes from a text is the
text of an entry, and it takes an entry wherever no number goes on after it.  The entry
changes the state by `put`. -/
structure EntryReader {σ κ α : Type} (b : Brackets)
    (entry : σ → List Char → Except (Fault κ) (σ × List Char))
    (Entry : List Char → α → Prop) (put : σ → α → σ) : Prop where
  sound : ∀ {s s' cs rest}, b.Starts cs → entry s cs = .ok (s', rest) →
    ∃ t x, cs = t ++ rest ∧ Entry t x ∧ s' = put s x
  complete : ∀ {t x rest} (s), Entry t x → NoLiteral rest → entry s (t ++ rest) = .ok (put s x, rest)
  starts : ∀ {t x}, Entry t x → b.Starts t

namespace EntryReader

variable {σ κ α : Type} {lift : Cause → κ}
  {entry : σ → List Char → Except (Fault κ) (σ × List Char)}
  {Entry : List Char → α → Prop} {put : σ → α → σ} {s s' : σ} {ts : List Char} {xs : List α}

/-- Induction on the bound of the entries: the first entry is followed by the closing bracket
or by a comma and fewer entries. -/
theorem foldFrom_sound (h : EntryReader b entry Entry put) {n : Nat} (hcs : b.Starts cs)
    (hread : b.foldFrom lift entry n s (.ok (.entry cs)) = (s', .ok rest)) :
    ∃ ts xs, Entries Entry ts xs ∧ cs = ts ++ b.close :: rest ∧ s' = xs.foldl put s := by
  induction n generalizing s cs with
  | zero => cases hread
  | succ n ih =>
    unfold Brackets.foldFrom at hread
    split at hread
    · cases hread
    · next s₁ rest₁ he =>
      obtain ⟨t, x, rfl, hx, rfl⟩ := h.sound hcs he
      cases hnext : b.following rest₁ with
      | error fault =>
        rw [hnext] at hread
        simp [Brackets.foldFrom] at hread
      | ok next =>
        rw [hnext] at hread
        cases next with
        | closed rest₂ =>
          simp only [Brackets.foldFrom, Prod.mk.injEq, Except.ok.injEq] at hread
          obtain ⟨rfl, rfl⟩ := hread
          obtain ⟨bs, hbs, rfl⟩ := Brackets.following_eq_closed_iff.1 hnext
          exact ⟨_, _, .last .nil hx hbs, by simp, rfl⟩
        | entry cs' =>
          obtain ⟨bs, bs', hbs, hbs', rfl, hcs'⟩ := Brackets.following_eq_entry_iff.1 hnext
          obtain ⟨ts, xs, hts, rfl, rfl⟩ := ih hcs' hread
          exact ⟨_, _, .cons .nil hx hbs (hts.blanks_append hbs'), by simp, rfl⟩

theorem takes (h : EntryReader b entry Entry put) {a t b' : List Char} {x : α} (ha : Blanks a)
    (hx : Entry t x) (hb : Blanks b') (s : σ) : Takes b entry s (a ++ (t ++ b')) (put s x) := by
  intro rest hrest
  refine ⟨t ++ (b' ++ rest), b', ?_, h.complete s hx (hb.noLiteral hrest), hb⟩
  rw [List.append_assoc, List.append_assoc]
  exact (h.starts hx).first ha _

/-- Induction on the entries. -/
theorem foldFrom_complete (h : EntryReader b entry Entry put) (hts : Entries Entry ts xs)
    {n : Nat} (hn : xs.length ≤ n) (s : σ) (rest : List Char) :
    b.foldFrom lift entry n s (b.first (ts ++ b.close :: rest)) = (xs.foldl put s, .ok rest) := by
  induction hts generalizing n s with
  | @last a t b' x ha hx hb =>
    obtain ⟨n, rfl⟩ : ∃ m, n = m + 1 := Nat.exists_eq_succ_of_ne_zero (by simp at hn; omega)
    exact (h.takes ha hx hb s).foldFrom_close rest n
  | @cons a t b' ts x xs ha hx hb hs ih =>
    obtain ⟨n, rfl⟩ : ∃ m, n = m + 1 := Nat.exists_eq_succ_of_ne_zero (by simp at hn; omega)
    have happ : a ++ (t ++ (b' ++ ',' :: ts)) ++ b.close :: rest =
        a ++ (t ++ b') ++ ',' :: (ts ++ b.close :: rest) := by simp
    obtain ⟨cs, hcs⟩ := hs.starts h.starts (b.close :: rest)
    rw [happ, (h.takes ha hx hb s).foldFrom_comma hcs]
    exact ih (by simpa using hn) (put s x)

/-- Between brackets there is nothing but blanks, or there are entries, which change the state
one after the other. -/
theorem fold_eq_ok_iff (h : EntryReader b entry Entry put) :
    b.fold lift entry s cs = (s', .ok rest) ↔
      (∃ bs, Blanks bs ∧ cs = bs ++ b.close :: rest ∧ s' = s) ∨
        ∃ ts xs, Entries Entry ts xs ∧ cs = ts ++ b.close :: rest ∧ s' = xs.foldl put s := by
  constructor
  · intro hread
    unfold Brackets.fold at hread
    cases hfirst : b.first cs with
    | error fault =>
      rw [hfirst] at hread
      simp [Brackets.foldFrom] at hread
    | ok next =>
      rw [hfirst] at hread
      cases next with
      | closed rest' =>
        simp only [Brackets.foldFrom, Prod.mk.injEq, Except.ok.injEq] at hread
        obtain ⟨rfl, rfl⟩ := hread
        obtain ⟨bs, hbs, rfl⟩ := Brackets.first_eq_closed_iff.1 hfirst
        exact .inl ⟨bs, hbs, rfl, rfl⟩
      | entry cs' =>
        obtain ⟨bs, hbs, rfl, hcs'⟩ := Brackets.first_eq_entry_iff.1 hfirst
        obtain ⟨ts, xs, hts, rfl, rfl⟩ := h.foldFrom_sound hcs' hread
        exact .inr ⟨bs ++ ts, xs, hts.blanks_append hbs, by simp, rfl⟩
  · rintro (⟨bs, hbs, rfl, rfl⟩ | ⟨ts, xs, hts, rfl, rfl⟩)
    · rw [Brackets.fold, Brackets.first_eq_closed_iff.2 ⟨bs, hbs, rfl⟩, Brackets.foldFrom]
    · have hlen := hts.length_le h.starts
      exact h.foldFrom_complete hts (by simp; omega) s rest

end EntryReader

end LayerSize.Json
