import LayerSize.Proofs.Json.Prompt

/-!
# Brackets are read promptly

What comes next between brackets is told from the first character after blanks, and after a comma
from the one after that.  If the entries are read promptly, so is the whole, entry by entry.

* `entriesFrom_eq`: the entries that are left, read one by one;
* `promptAt_fold`: everything up to the closing bracket.
-/

namespace LayerSize.Json

open Text (Agree Alike)

variable {b : Brackets} {c d : Char} {cs rest : List Char}

/-! ## What comes next -/

namespace Brackets

/-- Whether an entry comes next, and the text from there. -/
def andText : Next → Bool × List Char
  | .closed rest => (false, rest)
  | .entry rest => (true, rest)

theorem eq_entry_of_andText {next : Reads Next} (h : next.map andText = .ok (true, rest)) :
    next = .ok (.entry rest) := by
  cases next with
  | error fault => cases h
  | ok next => cases next <;> cases h; rfl

theorem close_lt (b : Brackets) : b.close.toNat < 128 := by
  cases b <;> decide

theorem isEnd_unfinished (b : Brackets) : b.unfinished.isEnd = true := by
  cases b <;> rfl

theorem Starts.alike (h : b.Starts (c :: cs)) (halike : Alike c d) (r : List Char) :
    b.Starts (d :: r) := by
  obtain ⟨c', cs', heq, hblank, hclose⟩ := h
  obtain ⟨rfl, rfl⟩ := List.cons.inj heq
  exact ⟨d, r, rfl, by rw [isBlank_of_alike halike, hblank], halike.ne hclose b.close_lt⟩

theorem first_close (b : Brackets) (cs : List Char) :
    b.first (b.close :: cs) = .ok (.closed cs) := first_eq_closed_iff.2 ⟨[], .nil, rfl⟩

theorem first_of_starts (h : b.Starts cs) : b.first cs = .ok (.entry cs) :=
  first_eq_entry_iff.2 ⟨[], .nil, rfl, h⟩

theorem promptAt_first (b : Brackets) (cs : List Char) :
    PromptAt (fun cs => (b.first cs).map andText) cs := by
  refine promptAt_blanks ?_ (promptAt_end rfl b.isEnd_unfinished) ?_ cs
  · intro bs cs hbs
    unfold first
    rw [skipBlanks_of_blanks hbs]
  · intro c rest hblank
    by_cases hc : c = b.close
    · subst hc
      refine .cons _ ?_
      simp only [first_close]
      exact promptAt_ok false rest
    · have hstarts : b.Starts (c :: rest) := ⟨c, rest, rfl, hblank, hc⟩
      refine promptAt_absent (a := true) ?_ rest
      intro d r halike
      rw [first_of_starts (hstarts.alike halike r)]
      rfl

theorem following_close (b : Brackets) (cs : List Char) :
    b.following (b.close :: cs) = .ok (.closed cs) := following_eq_closed_iff.2 ⟨[], .nil, rfl⟩

theorem following_comma_eq (b : Brackets) (cs : List Char) :
    b.following (',' :: cs) = b.afterComma cs := by
  have hskip : skipBlanks (',' :: cs) = ',' :: cs := rfl
  rw [following, hskip]
  simp [close_ne_comma.symm]

theorem promptAt_afterComma (b : Brackets) (cs : List Char) :
    PromptAt (fun cs => (b.afterComma cs).map andText) cs := by
  refine promptAt_blanks ?_ (promptAt_end rfl rfl) ?_ cs
  · intro bs cs hbs
    unfold afterComma
    rw [skipBlanks_of_blanks hbs]
  · intro c rest hblank
    by_cases hc : c = b.close
    · refine promptAt_unexpected .trailingComma ?_ rest
      intro d r halike
      obtain rfl : d = c := halike.eq_of_lt (hc ▸ b.close_lt)
      rw [afterComma, skipBlanks_of_alike halike hblank]
      simp [hc, Except.map]
    · have hstarts : b.Starts (c :: rest) := ⟨c, rest, rfl, hblank, hc⟩
      refine promptAt_absent (a := true) ?_ rest
      intro d r halike
      have hfirst := first_of_starts (hstarts.alike halike r)
      rw [afterComma_eq_ok_iff.2 ⟨_, rfl, hfirst⟩]
      rfl

theorem promptAt_following (b : Brackets) (cs : List Char) :
    PromptAt (fun cs => (b.following cs).map andText) cs := by
  refine promptAt_blanks ?_ (promptAt_end rfl b.isEnd_unfinished) ?_ cs
  · intro bs cs hbs
    unfold following
    rw [skipBlanks_of_blanks hbs]
  · intro c rest hblank
    by_cases hc : c = b.close
    · subst hc
      refine .cons _ ?_
      simp only [following_close]
      exact promptAt_ok false rest
    · by_cases hcomma : c = ','
      · subst hcomma
        refine .cons _ ?_
        simp only [following_comma_eq]
        exact b.promptAt_afterComma rest
      · refine promptAt_unexpected b.expected ?_ rest
        intro d r halike
        have hd : d ≠ b.close := halike.ne hc b.close_lt
        have hd' : d ≠ ',' := halike.ne hcomma (by decide)
        rw [following, skipBlanks_of_alike halike hblank]
        simp [hd, hd', Except.map]

end Brackets

/-! ## Entry by entry -/

section

variable {σ α : Type} {entry : σ → List Char → Reads (σ × List Char)}
  {Entry : List Char → α → Prop} {put : σ → α → σ} {s s' : σ} {m n : Nat}

/-- The state that is reached, and the text after the closing bracket. -/
def reached (read : σ × Reads (List Char)) : Reads (σ × List Char) :=
  read.2.map fun rest => (read.1, rest)

theorem reached_bind {β : Type} (f : σ → β) (read : σ × Reads (List Char)) :
    (reached read >>= fun x => .ok (f x.1, x.2)) = read.2.map fun rest => (f read.1, rest) := by
  obtain ⟨s, fault | rest⟩ := read
  · rfl
  · rfl

/-- The entries from the one that a text starts with. -/
def entriesFrom (b : Brackets) (entry : σ → List Char → Reads (σ × List Char)) (s : σ)
    (cs : List Char) : Reads (σ × List Char) :=
  reached (b.foldFrom id entry cs.length s (.ok (.entry cs)))

/-- An entry takes a character at least. -/
theorem EntryReader.length_lt (h : EntryReader b entry Entry put) (hcs : b.Starts cs)
    (hread : entry s cs = .ok (s', rest)) : rest.length < cs.length := by
  obtain ⟨t, x, rfl, hx, -⟩ := h.sound hcs hread
  obtain ⟨c, t', rfl, -⟩ := h.starts hx
  rw [List.length_append, List.length_cons]
  omega

theorem starts_of_following (h : b.following cs = .ok (.entry rest)) :
    b.Starts rest ∧ rest.length < cs.length := by
  obtain ⟨bs, bs', -, -, rfl, hstarts⟩ := Brackets.following_eq_entry_iff.1 h
  refine ⟨hstarts, ?_⟩
  simp only [List.length_append, List.length_cons]
  omega

/-- The bound on the entries does not matter where it is no less than the length of the text. -/
theorem EntryReader.foldFrom_bound (h : EntryReader b entry Entry put) (hcs : b.Starts cs)
    (hm : cs.length ≤ m) (hn : cs.length ≤ n) :
    b.foldFrom id entry m s (.ok (.entry cs)) = b.foldFrom id entry n s (.ok (.entry cs)) := by
  induction m generalizing n s cs with
  | zero =>
    obtain ⟨c, cs', rfl, -⟩ := hcs
    cases hm
  | succ m ih =>
    cases n with
    | zero =>
      obtain ⟨c, cs', rfl, -⟩ := hcs
      cases hn
    | succ n =>
      rw [Brackets.foldFrom, Brackets.foldFrom]
      cases hread : entry s cs with
      | error fault => rfl
      | ok read =>
        obtain ⟨s', rest⟩ := read
        have hlen := h.length_lt hcs hread
        dsimp only
        cases hnext : b.following rest with
        | error fault => rw [Brackets.foldFrom, Brackets.foldFrom]
        | ok next =>
          cases next with
          | closed rest' => rw [Brackets.foldFrom, Brackets.foldFrom]
          | entry cs' =>
            obtain ⟨hcs', hlen'⟩ := starts_of_following hnext
            exact ih hcs' (by omega) (by omega)

/-- What comes after an entry, told from whether there is another one. -/
def goOn (b : Brackets) (entry : σ → List Char → Reads (σ × List Char)) (s : σ)
    (next : Bool × List Char) : Reads (σ × List Char) :=
  if next.1 then entriesFrom b entry s next.2 else .ok (s, next.2)

theorem EntryReader.reached_foldFrom (h : EntryReader b entry Entry put) {next : Reads Next}
    (hnext : ∀ cs, next = .ok (.entry cs) → b.Starts cs ∧ cs.length ≤ n) :
    reached (b.foldFrom id entry n s next) = (next.map Brackets.andText >>= goOn b entry s) := by
  cases next with
  | error fault => cases n <;> rfl
  | ok next =>
    cases next with
    | closed rest => cases n <;> rfl
    | entry cs =>
      obtain ⟨hcs, hlen⟩ := hnext cs rfl
      rw [h.foldFrom_bound hcs hlen le_rfl]
      rfl

theorem EntryReader.entriesFrom_eq (h : EntryReader b entry Entry put) (hcs : b.Starts cs) :
    entriesFrom b entry s cs = entry s cs >>= fun x =>
      (b.following x.2).map Brackets.andText >>= goOn b entry x.1 := by
  obtain ⟨n, hn⟩ : ∃ n, cs.length = n + 1 := by
    obtain ⟨c, cs', rfl, -⟩ := hcs
    exact ⟨_, rfl⟩
  rw [entriesFrom, hn, Brackets.foldFrom]
  cases hread : entry s cs with
  | error fault => rfl
  | ok read =>
    obtain ⟨s', rest⟩ := read
    have hlen := h.length_lt hcs hread
    refine h.reached_foldFrom ?_
    intro cs' hnext
    obtain ⟨hcs', hlen'⟩ := starts_of_following hnext
    exact ⟨hcs', by omega⟩

/-- Induction on the length of the text: every entry takes some of it. -/
theorem EntryReader.promptAt_entriesFrom (h : EntryReader b entry Entry put)
    (hentry : ∀ s cs, b.Starts cs → PromptAt (entry s) cs) (hcs : b.Starts cs) (s : σ) :
    PromptAt (entriesFrom b entry s) cs := by
  induction hn : cs.length using Nat.strong_induction_on generalizing s cs with
  | _ n ih =>
    subst hn
    obtain ⟨c, cs', rfl, hc⟩ := hcs
    have hstarts : b.Starts (c :: cs') := ⟨c, cs', rfl, hc⟩
    refine PromptAt.congr (g := fun cs => entry s cs >>= fun x =>
      (b.following x.2).map Brackets.andText >>= goOn b entry x.1) ?_ ?_
    · intro d r halike
      exact h.entriesFrom_eq (hstarts.alike halike r)
    refine (hentry s _ hstarts).bind ?_
    intro s' rest hread
    have hlen := h.length_lt hstarts hread
    dsimp only
    refine (b.promptAt_following rest).bind ?_
    intro more rest' hnext
    cases more with
    | false => exact promptAt_ok s' rest'
    | true =>
      obtain ⟨hrest', hlen'⟩ := starts_of_following (Brackets.eq_entry_of_andText hnext)
      exact ih rest'.length (by omega) hrest' s' rfl

theorem EntryReader.promptAt_fold (h : EntryReader b entry Entry put)
    (hentry : ∀ s cs, b.Starts cs → PromptAt (entry s) cs) (s : σ) (cs : List Char) :
    PromptAt (fun cs => reached (b.fold id entry s cs)) cs := by
  have heq : (fun cs => reached (b.fold id entry s cs)) =
      fun cs => (b.first cs).map Brackets.andText >>= goOn b entry s := by
    funext cs
    refine h.reached_foldFrom ?_
    intro cs' hfirst
    obtain ⟨bs, -, rfl, hcs'⟩ := Brackets.first_eq_entry_iff.1 hfirst
    exact ⟨hcs', by simp⟩
  rw [heq]
  refine (b.promptAt_first cs).bind ?_
  intro more rest hfirst
  cases more with
  | false => exact promptAt_ok s rest
  | true =>
    obtain ⟨bs, -, -, hrest⟩ := Brackets.first_eq_entry_iff.1 (Brackets.eq_entry_of_andText hfirst)
    exact h.promptAt_entriesFrom hentry hrest s

end

end LayerSize.Json
