import LayerSize.Json.Fault

/-!
# Blanks and words of a JSON text

Passing over the blanks between the parts of a JSON text, and reading the fixed words.
-/

namespace LayerSize.Json

/-! ## Blanks -/

/-- The blanks of JSON. -/
def isBlank (c : Char) : Bool := c = ' ' || c = '\n' || c = '\t' || c = '\r'

/-- The text from its first character that is no blank. -/
def skipBlanks (cs : List Char) : List Char := cs.dropWhile isBlank

@[simp] theorem skipBlanks_nil : skipBlanks [] = [] := rfl

theorem skipBlanks_cons (c : Char) (cs : List Char) :
    skipBlanks (c :: cs) = if isBlank c then skipBlanks cs else c :: cs := by
  unfold skipBlanks
  rw [List.dropWhile_cons]

/-- Blanks are passed over, however many there are. -/
theorem skipBlanks_append {bs : List Char} (h : ∀ b ∈ bs, isBlank b = true) (cs : List Char) :
    skipBlanks (bs ++ cs) = skipBlanks cs := by
  induction bs with
  | nil => rfl
  | cons b bs ih =>
    rw [List.cons_append, skipBlanks_cons, if_pos (h b (List.mem_cons_self ..))]
    exact ih fun c hc => h c (List.mem_cons_of_mem _ hc)

/-- What comes first after blanks is no blank. -/
theorem isBlank_of_skipBlanks {c : Char} {cs rest : List Char}
    (h : skipBlanks cs = c :: rest) : isBlank c = false := by
  induction cs with
  | nil => exact nomatch h
  | cons d ds ih =>
    rw [skipBlanks_cons] at h
    split at h
    · exact ih h
    · next hd =>
      injection h with h1 _
      subst h1
      simpa using hd

/-! ## Words -/

/-- Reads the rest of a word whose first letter has been read. -/
def word : List Char → List Char → Reads (List Char)
  | [], cs => .ok cs
  | _ :: _, [] => .error (.here .endOfValue [])
  | w :: ws, c :: cs => if c = w then word ws cs else .error (.next .expectedWord (c :: cs))

theorem word_eq_ok_iff {ws cs rest : List Char} : word ws cs = .ok rest ↔ cs = ws ++ rest := by
  induction ws generalizing cs with
  | nil => exact ⟨fun h => Except.ok.inj h, fun h => congrArg Except.ok h⟩
  | cons w ws ih =>
    cases cs with
    | nil => simp [word]
    | cons c cs =>
      by_cases h : c = w
      · simp [word, h, ih]
      · simp [word, h]

/-! ## The end of a text -/

/-- Only blanks may follow a whole text. -/
def finish (cs : List Char) : Reads Unit :=
  match skipBlanks cs with
  | [] => .ok ()
  | c :: cs => .error (.next .trailingCharacters (c :: cs))

end LayerSize.Json
