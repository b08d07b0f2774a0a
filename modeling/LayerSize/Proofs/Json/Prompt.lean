import LayerSize.Proofs.Json.Brackets
import LayerSize.Proofs.Text.Bytes

/-!
# Prompt readers

A reader is prompt if it looks no further than it has to.  What it takes from a text it takes from
every text that starts in the same way, one more character given; and a fault is shown by the
bytes before the place that is reported, whatever comes after them.  Two kinds of faults are
left out: that the text ends, and that a number is too large, since the number may go on with an
exponent that makes it small.

* `PromptAt`: the reader is prompt at a text;
* `PromptAt.bind`, `PromptAt.append`, `PromptAt.congr`: readers put together from prompt ones.
-/

namespace LayerSize.Json

open Text (Agree Alike)

variable {α β : Type} {f g : List Char → Reads (α × List Char)} {a : α} {c : Char}
  {cs cs' p rest u : List Char} {cause : Cause} {j : Nat}

/-! ## The same start -/

/-- Both texts go on, and with characters that look alike. -/
def SameStart (cs cs' : List Char) : Prop :=
  ∃ c r d r', cs = c :: r ∧ cs' = d :: r' ∧ Alike c d

theorem SameStart.append_right (h : cs ≠ []) (u : List Char) : SameStart cs (cs ++ u) := by
  obtain ⟨c, r, rfl⟩ := List.exists_cons_of_ne_nil h
  exact ⟨c, r, c, r ++ u, rfl, rfl, .refl c⟩

theorem SameStart.append_left (h : SameStart cs cs') (p : List Char) :
    SameStart (p ++ cs) (p ++ cs') := by
  cases p with
  | nil => exact h
  | cons c p => exact ⟨c, p ++ cs, c, p ++ cs', rfl, rfl, .refl c⟩

theorem sameStart_of_agree (h : Agree j cs cs') (hj : 0 < j) : SameStart cs cs' := by
  cases cs with
  | nil =>
    have hle : j ≤ 0 := h.1
    omega
  | cons c r =>
    obtain ⟨d, r', rfl, halike⟩ := h.alike hj
    exact ⟨c, r, d, r', rfl, rfl, halike⟩

/-! ## Where faults show -/

/-- A fault that is reported after so many bytes of the text. -/
def Fault.after (cause : Cause) (j : Nat) (cs : List Char) : Fault Cause :=
  ⟨cause, Text.byteCount cs - j⟩

theorem Fault.after_append (cause : Cause) (j : Nat) (p cs : List Char) :
    Fault.after cause (Text.byteCount p + j) (p ++ cs) = Fault.after cause j cs := by
  unfold Fault.after
  rw [Text.byteCount_append, Nat.add_sub_add_left]

/-- The first bytes of the text show the fault, whatever comes after them. -/
def ShowsAfter (f : List Char → Reads α) (cause : Cause) (j : Nat) (cs : List Char) : Prop :=
  0 < j ∧ j ≤ Text.byteCount cs ∧ ∀ cs', Agree j cs cs' → f cs' = .error (.after cause j cs')

theorem ShowsAfter.eq {f : List Char → Reads α} (h : ShowsAfter f cause j cs) :
    f cs = .error (.after cause j cs) := h.2.2 cs (.refl h.2.1)

/-- The text is cut inside a number.  What stands before the cut is the text of a number that is
too large; with what follows it is a number, because its exponent is negative. -/
def CutsNumber (t u : List Char) : Prop :=
  ∃ p w w' q l l' ds, t = p ++ w ∧ u = w' ++ q ∧ LiteralText w l ∧ (¬ ∃ n, l.Denotes n) ∧
    LiteralText (w ++ w') l' ∧ (∃ n, l'.Denotes n) ∧ l'.exponent = some (true, ds)

theorem CutsNumber.append {t : List Char} (h : CutsNumber t u) (p : List Char) :
    CutsNumber (p ++ t) u := by
  obtain ⟨p', w, w', q, l, l', ds, rfl, hu, hw⟩ := h
  exact ⟨p ++ p', w, w', q, l, l', ds, by simp, hu, hw⟩

/-- A longer text is read only if the end of the text cuts a number. -/
def CutShort (f : List Char → Reads (α × List Char)) (cs : List Char) : Prop :=
  cs ≠ [] ∧ ∀ u a rest, f (cs ++ u) = .ok (a, rest) → CutsNumber cs u

/-! ## Prompt readers -/

/-- The reader looks no further than it has to. -/
structure PromptAt (f : List Char → Reads (α × List Char)) (cs : List Char) : Prop where
  ok : ∀ {a rest}, f cs = .ok (a, rest) →
    ∃ taken, cs = taken ++ rest ∧ ∀ rest', SameStart rest rest' → f (taken ++ rest') = .ok (a, rest')
  error : ∀ {fault}, f cs = .error fault → fault.cause.isEnd = true ∨
    (∃ j, ShowsAfter f fault.cause j cs) ∨ fault.cause = .numberOutOfRange ∧ CutShort f cs

theorem promptAt_ok (a : α) (cs : List Char) : PromptAt (fun cs => .ok (a, cs)) cs where
  ok := by
    intro a' rest h
    cases h
    exact ⟨[], rfl, fun _ _ => rfl⟩
  error := by
    intro fault h
    cases h

/-- The text ends before anything is settled. -/
theorem promptAt_end {fault : Fault Cause} (h : f cs = .error fault)
    (hend : fault.cause.isEnd = true) : PromptAt f cs where
  ok := by
    intro a rest hok
    rw [h] at hok
    cases hok
  error := by
    intro fault' herror
    rw [h] at herror
    cases herror
    exact .inl hend

theorem ShowsAfter.promptAt (h : ShowsAfter f cause j cs) : PromptAt f cs where
  ok := by
    intro a rest hok
    rw [h.eq] at hok
    cases hok
  error := by
    intro fault herror
    rw [h.eq] at herror
    cases herror
    exact .inr (.inl ⟨j, h⟩)

/-- At the end of the text nothing is known about what may follow. -/
theorem promptAt_of_eq_ok_nil (h : f cs = .ok (a, [])) : PromptAt f cs where
  ok := by
    intro a' rest hok
    rw [h] at hok
    cases hok
    refine ⟨cs, by simp, ?_⟩
    rintro rest' ⟨c, r, -, -, hnil, -⟩
    cases hnil
  error := by
    intro fault herror
    rw [h] at herror
    cases herror

/-- A number is too large, and may be cut short. -/
theorem CutShort.promptAt (h : CutShort f cs) {fault : Fault Cause} (hf : f cs = .error fault)
    (hcause : fault.cause = .numberOutOfRange) : PromptAt f cs where
  ok := by
    intro a rest hok
    rw [hf] at hok
    cases hok
  error := by
    intro fault' herror
    rw [hf] at herror
    cases herror
    exact .inr (.inr ⟨hcause, h⟩)

/-- A character that may not come next is enough to see the fault. -/
theorem promptAt_unexpected (cause : Cause)
    (h : ∀ d r, Alike c d → f (d :: r) = .error (.next cause (d :: r))) (cs : List Char) :
    PromptAt f (c :: cs) := by
  have hshows : ShowsAfter f cause 1 (c :: cs) := by
    have hpos := c.utf8Size_pos
    refine ⟨Nat.one_pos, by rw [Text.byteCount_cons]; omega, ?_⟩
    intro cs' hcs'
    obtain ⟨d, r, rfl, halike⟩ := hcs'.alike Nat.one_pos
    exact h d r halike
  exact hshows.promptAt

theorem ShowsAfter.append {f : List Char → Reads α} (p : List Char)
    (h : ShowsAfter (fun cs => f (p ++ cs)) cause j cs) :
    ShowsAfter f cause (Text.byteCount p + j) (p ++ cs) := by
  obtain ⟨hpos, hle, hf⟩ := h
  refine ⟨by omega, by rw [Text.byteCount_append]; omega, ?_⟩
  intro cs' hcs'
  obtain ⟨ds, rfl, hds⟩ := hcs'.append
  rw [Fault.after_append]
  exact hf ds hds

/-! ## Readers put together -/

/-- After a fixed text. -/
theorem PromptAt.append (p : List Char) (h : PromptAt (fun cs => f (p ++ cs)) cs) :
    PromptAt f (p ++ cs) where
  ok := by
    intro a rest hok
    obtain ⟨taken, rfl, htaken⟩ := h.ok hok
    exact ⟨p ++ taken, by simp, fun rest' hrest' => by simpa using htaken rest' hrest'⟩
  error := by
    intro fault herror
    rcases h.error herror with hend | ⟨j, hj⟩ | ⟨hcause, hne, hcut⟩
    · exact .inl hend
    · exact .inr (.inl ⟨_, hj.append p⟩)
    · refine .inr (.inr ⟨hcause, by simp [hne], ?_⟩)
      intro u a rest hok
      rw [List.append_assoc] at hok
      exact (hcut u a rest hok).append p

/-- After one character. -/
theorem PromptAt.cons (c : Char) (h : PromptAt (fun cs => f (c :: cs)) cs) :
    PromptAt f (c :: cs) := h.append [c]

/-- Two readers that cannot be told apart by the first character. -/
theorem PromptAt.congr (h : ∀ d r, Alike c d → f (d :: r) = g (d :: r)) (hg : PromptAt g (c :: cs)) :
    PromptAt f (c :: cs) := by
  have hsame : ∀ cs', SameStart (c :: cs) cs' → f cs' = g cs' := by
    rintro cs' ⟨c', r, d, r', heq, rfl, halike⟩
    obtain ⟨rfl, -⟩ := List.cons.inj heq
    exact h d r' halike
  have hself : f (c :: cs) = g (c :: cs) := h c cs (.refl c)
  constructor
  · intro a rest hok
    rw [hself] at hok
    obtain ⟨taken, hcs, htaken⟩ := hg.ok hok
    refine ⟨taken, hcs, fun rest' hrest' => ?_⟩
    rw [hsame _ (hcs ▸ hrest'.append_left taken)]
    exact htaken rest' hrest'
  · intro fault herror
    rw [hself] at herror
    rcases hg.error herror with hend | ⟨j, hpos, hle, hj⟩ | ⟨hcause, hne, hcut⟩
    · exact .inl hend
    · refine .inr (.inl ⟨j, hpos, hle, fun cs' hcs' => ?_⟩)
      rw [hsame cs' (sameStart_of_agree hcs' hpos)]
      exact hj cs' hcs'
    · refine .inr (.inr ⟨hcause, hne, fun u a rest hok => ?_⟩)
      rw [hsame _ (.append_right hne u)] at hok
      exact hcut u a rest hok

/-- What is not there is told from the first character. -/
theorem promptAt_absent (h : ∀ d r, Alike c d → f (d :: r) = .ok (a, d :: r)) (cs : List Char) :
    PromptAt f (c :: cs) := PromptAt.congr (g := fun cs => .ok (a, cs)) h (promptAt_ok a _)

/-- One reader after another. -/
theorem PromptAt.bind {g : α × List Char → Reads (β × List Char)} (hf : PromptAt f cs)
    (hg : ∀ a rest, f cs = .ok (a, rest) → PromptAt (fun cs => g (a, cs)) rest) :
    PromptAt (fun cs => f cs >>= g) cs where
  ok := by
    intro b rest hok
    obtain ⟨⟨a, rest₁⟩, hfirst, hsecond⟩ := bind_eq_ok_iff.1 hok
    obtain ⟨taken₁, rfl, htaken₁⟩ := hf.ok hfirst
    obtain ⟨taken₂, rfl, htaken₂⟩ := (hg a rest₁ hfirst).ok hsecond
    refine ⟨taken₁ ++ taken₂, by simp, fun rest' hrest' => ?_⟩
    rw [List.append_assoc]
    exact bind_eq_ok_iff.2 ⟨_, htaken₁ _ (hrest'.append_left taken₂), htaken₂ rest' hrest'⟩
  error := by
    intro fault herror
    have hfirst_error : ∀ {cs' fault}, f cs' = .error fault →
        (f cs' >>= g) = .error fault := fun h => by rw [h]; rfl
    have hfirst_ok : ∀ {cs' a rest}, f cs' = .ok (a, rest) → (f cs' >>= g) = g (a, rest) :=
      fun h => by rw [h]; rfl
    cases hfirst : f cs with
    | error fault₁ =>
      obtain rfl := Except.error.inj ((hfirst_error hfirst).symm.trans herror)
      rcases hf.error hfirst with hend | ⟨j, hpos, hle, hj⟩ | ⟨hcause, hne, hcut⟩
      · exact .inl hend
      · exact .inr (.inl ⟨j, hpos, hle, fun cs' hcs' => hfirst_error (hj cs' hcs')⟩)
      · refine .inr (.inr ⟨hcause, hne, fun u b rest hok => ?_⟩)
        obtain ⟨⟨a, rest₁⟩, hok₁, -⟩ := bind_eq_ok_iff.1 hok
        exact hcut u a rest₁ hok₁
    | ok read =>
      obtain ⟨a, rest⟩ := read
      obtain ⟨taken, rfl, htaken⟩ := hf.ok hfirst
      have hsecond : g (a, rest) = .error fault := (hfirst_ok hfirst).symm.trans herror
      rcases (hg a rest hfirst).error hsecond with hend | ⟨j, hpos, hle, hj⟩ | ⟨hcause, hne, hcut⟩
      · exact .inl hend
      · refine .inr (.inl ⟨Text.byteCount taken + j, by omega,
          by rw [Text.byteCount_append]; omega, fun cs' hcs' => ?_⟩)
        obtain ⟨rest', rfl, hrest'⟩ := hcs'.append
        have hread := htaken rest' (sameStart_of_agree hrest' hpos)
        rw [Fault.after_append, ← hj rest' hrest']
        exact hfirst_ok hread
      · refine .inr (.inr ⟨hcause, by simp [hne], fun u b rest₂ hok => ?_⟩)
        obtain ⟨⟨a', rest₁⟩, hok₁, hok₂⟩ := bind_eq_ok_iff.1 hok
        rw [List.append_assoc, htaken _ (.append_right hne u)] at hok₁
        cases hok₁
        exact (hcut u b rest₂ hok₂).append taken

/-- The value read is changed, and no more is read. -/
theorem PromptAt.map (h : PromptAt f cs) (k : α → β) :
    PromptAt (fun cs => f cs >>= fun x => .ok (k x.1, x.2)) cs :=
  h.bind fun a rest _ => promptAt_ok (k a) rest

/-! ## Readers that give the rest alone -/

/-- A reader of which only the rest of the text is of interest. -/
def passing (f : List Char → Reads (List Char)) (cs : List Char) : Reads (Unit × List Char) :=
  (f cs).map fun rest => ((), rest)

theorem bind_eq_passing_bind (f : List Char → Reads (List Char)) (k : List Char → Reads β)
    (cs : List Char) : (f cs >>= k) = (passing f cs >>= fun x => k x.2) := by
  unfold passing
  cases f cs <;> rfl

theorem passing_eq_ok_iff {f : List Char → Reads (List Char)} {x : Unit} :
    passing f cs = .ok (x, rest) ↔ f cs = .ok rest := by
  unfold passing
  cases f cs <;> simp [Except.map]

/-- One reader after another that gives the rest alone. -/
theorem PromptAt.bind_rest {f : List Char → Reads (List Char)}
    {g : List Char → Reads (β × List Char)} (hf : PromptAt (passing f) cs)
    (hg : ∀ rest, f cs = .ok rest → PromptAt g rest) : PromptAt (fun cs => f cs >>= g) cs := by
  have heq : (fun cs => f cs >>= g) = fun cs => passing f cs >>= fun x => g x.2 :=
    funext (bind_eq_passing_bind f g)
  rw [heq]
  exact hf.bind fun _ rest h => hg rest (passing_eq_ok_iff.1 h)

/-! ## Blanks -/

/-- The blanks are ASCII characters. -/
theorem isBlank_of_alike {d : Char} (h : Alike c d) : isBlank d = isBlank c := by
  refine h.congr (a := false) ?_
  intro c hc
  cases hblank : isBlank c with
  | false => rfl
  | true =>
    have hascii : ∀ b ∈ [' ', '\n', '\t', '\r'], b.toNat < 128 := by simp
    have hlt := hascii c (isBlank_iff.1 hblank)
    omega

theorem skipBlanks_of_alike {d : Char} (h : Alike c d) (hc : isBlank c = false)
    (r : List Char) : skipBlanks (d :: r) = d :: r := by
  rw [skipBlanks_cons, isBlank_of_alike h, hc]
  rfl

/-- Blanks are passed over, and then the text ends or goes on with something else. -/
theorem promptAt_blanks (hf : ∀ bs cs, Blanks bs → f (bs ++ cs) = f cs) (hend : PromptAt f [])
    (hnext : ∀ c rest, isBlank c = false → PromptAt f (c :: rest)) (cs : List Char) :
    PromptAt f cs := by
  obtain ⟨bs, hbs, hcs⟩ := exists_blanks cs
  have heq : (fun cs => f (bs ++ cs)) = f := funext fun cs => hf bs cs hbs
  rw [hcs]
  refine PromptAt.append bs ?_
  rw [heq]
  cases hskip : skipBlanks cs with
  | nil => exact hend
  | cons c rest => exact hnext c rest (isBlank_of_skipBlanks hskip)

end LayerSize.Json
