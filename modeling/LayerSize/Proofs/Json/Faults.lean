import LayerSize.Json.Reader
import LayerSize.Proofs.Json.Strings

/-!
# Faults inside values

The characters that trail a value are reported by nothing that reads the value itself: a fault
with that cause says that a value stands before it.

* `Inside`: a reading without that fault;
* `inside_value`: the reader of values, by induction on the depth.
-/

namespace LayerSize.Json

/-- If the reading fails, then not because of what trails a value. -/
def Inside {α : Type} (x : Reads α) : Prop :=
  ∀ fault, x = .error fault → fault.cause ≠ .trailingCharacters

section

variable {α β : Type}

theorem inside_ok (a : α) : Inside (.ok a : Reads α) := by
  intro fault h
  cases h

theorem inside_error {fault : Fault Cause} (h : fault.cause ≠ .trailingCharacters) :
    Inside (.error fault : Reads α) := by
  intro fault' h'
  cases h'
  exact h

theorem inside_bind {x : Reads α} {f : α → Reads β} (hx : Inside x) (hf : ∀ a, Inside (f a)) :
    Inside (x >>= f) := by
  cases x with
  | error fault =>
    intro fault' h
    cases h
    exact hx fault rfl
  | ok a => exact hf a

end

/-! ## Words and strings -/

theorem inside_word (ws cs : List Char) : Inside (word ws cs) := by
  induction ws generalizing cs with
  | nil => exact inside_ok _
  | cons w ws ih =>
    cases cs with
    | nil => exact inside_error (by simp)
    | cons c cs =>
      unfold word
      split
      · exact ih cs
      · exact inside_error (by simp)

theorem inside_hexCode (cs : List Char) : Inside (hexCode cs) := by
  unfold hexCode
  split
  · exact inside_error (by simp)
  · split
    · exact inside_ok _
    · exact inside_error (by simp)

theorem inside_surrogateEscape (cs : List Char) : Inside (surrogateEscape cs) := by
  unfold surrogateEscape
  split
  · exact inside_ok _
  · apply inside_error
    dsimp only [Fault.next]
    split <;> decide
  · apply inside_error
    dsimp only [Fault.next]
    split <;> decide

theorem inside_unicodeEscape (cs : List Char) : Inside (unicodeEscape cs) := by
  refine inside_bind (inside_hexCode cs) fun code => ?_
  split
  · exact inside_error (by simp)
  · split
    · refine inside_bind (inside_surrogateEscape _) fun rest => ?_
      refine inside_bind (inside_hexCode rest) fun trailing => ?_
      split
      · exact inside_ok _
      · exact inside_error (by simp)
    · exact inside_ok _

theorem inside_escape (cs : List Char) : Inside (escape cs) := by
  unfold escape
  split
  · exact inside_error (by simp)
  · exact inside_bind (inside_unicodeEscape _) fun _ => inside_ok _
  · split
    · exact inside_ok _
    · exact inside_error (by simp)

theorem inside_quoted (n : Nat) (cs : List Char) : Inside (quoted n cs) := by
  induction n, cs using quoted.induct with
  | case1 n => cases n <;> exact inside_error (by simp)
  | case2 n c cs ih => exact ih
  | case3 cs => exact inside_ok _
  | case4 cs ih =>
    exact inside_bind (inside_escape cs) fun e => inside_bind (ih e.2) fun _ => inside_ok _
  | case5 c cs hq hb hc =>
    rw [quoted_cons hq hb, if_pos hc]
    exact inside_error (by simp)
  | case6 c cs hq hb hc ih =>
    rw [quoted_cons hq hb, if_neg hc]
    exact inside_bind ih fun _ => inside_ok _

theorem inside_string (cs : List Char) : Inside (string cs) :=
  inside_bind (inside_quoted 0 cs) fun _ => inside_ok _

/-! ## Numbers -/

namespace Literal

theorem inside_digitRun (cs : List Char) : Inside (digitRun (missingDigit .endOfValue) cs) := by
  unfold digitRun
  split
  · apply inside_error
    dsimp only [missingDigit, Fault.next]
    split <;> decide
  · exact inside_ok _

theorem inside_scanWhole (cs : List Char) : Inside (scanWhole .endOfValue cs) := by
  unfold scanWhole
  split
  · split
    · split
      · exact inside_error (by simp)
      · exact inside_ok _
    · exact inside_ok _
  · exact inside_digitRun _

theorem inside_scanFraction (cs : List Char) : Inside (scanFraction .endOfValue cs) := by
  unfold scanFraction
  split
  · exact inside_bind (inside_digitRun _) fun _ => inside_ok _
  · exact inside_ok _

theorem inside_scanExponent (cs : List Char) : Inside (scanExponent .endOfValue cs) := by
  unfold scanExponent
  split
  · split
    · exact inside_bind (inside_digitRun _) fun _ => inside_ok _
    · exact inside_ok _
  · exact inside_ok _

theorem inside_scan (cs : List Char) : Inside (scan .endOfValue cs) :=
  inside_bind (inside_scanWhole _) fun _ => inside_bind (inside_scanFraction _) fun _ =>
    inside_bind (inside_scanExponent _) fun _ => inside_ok _

theorem inside_real (negative : Bool) (magnitude : Nat) (rest : List Char) :
    Inside (real negative magnitude rest) := by
  unfold real
  split
  · exact inside_ok _
  · exact inside_error (by simp)

theorem inside_number (l : Literal) (rest : List Char) : Inside (l.number rest) := by
  unfold number whole64
  dsimp only
  split
  · split
    · split
      · exact inside_real _ _ _
      · exact inside_ok _
    · exact inside_real _ _ _
  · split
    · exact inside_real _ _ _
    · split
      · exact inside_real _ _ _
      · split
        · exact inside_real _ _ _
        · exact inside_error (by simp)

end Literal

theorem inside_scalar (cs : List Char) : Inside (scalar cs) := by
  unfold scalar
  split
  · exact inside_error (by simp)
  · exact inside_bind (inside_string _) fun _ => inside_ok _
  · exact inside_bind (inside_word _ _) fun _ => inside_ok _
  · exact inside_bind (inside_word _ _) fun _ => inside_ok _
  · exact inside_bind (inside_word _ _) fun _ => inside_ok _
  · split
    · exact inside_bind (Literal.inside_scan _) fun _ =>
        inside_bind (Literal.inside_number _ _) fun _ => inside_ok _
    · exact inside_error (by simp)

/-! ## Arrays and objects -/

theorem inside_name (cs : List Char) : Inside (name cs) := by
  refine inside_bind ?_ fun _ => inside_string _
  unfold nameQuote
  split
  · exact inside_ok _
  · exact inside_error (by simp)

theorem inside_colon (cs : List Char) : Inside (colon cs) := by
  unfold colon
  split
  · exact inside_error (by simp)
  · exact inside_ok _
  · exact inside_error (by simp)

namespace Brackets

variable (b : Brackets)

theorem unfinished_ne : b.unfinished ≠ .trailingCharacters := by
  cases b <;> simp [unfinished]

theorem expected_ne : b.expected ≠ .trailingCharacters := by
  cases b <;> simp [expected]

theorem inside_first (cs : List Char) : Inside (b.first cs) := by
  unfold first
  split
  · exact inside_error b.unfinished_ne
  · exact inside_ok _

theorem inside_following (cs : List Char) : Inside (b.following cs) := by
  unfold following afterComma
  split
  · exact inside_error b.unfinished_ne
  · split
    · exact inside_ok _
    · split
      · split
        · exact inside_error (by simp)
        · split
          · exact inside_error (by simp)
          · exact inside_ok _
      · exact inside_error b.expected_ne

theorem inside_foldFrom {σ : Type} {entry : σ → List Char → Reads (σ × List Char)}
    (hentry : ∀ s cs, Inside (entry s cs)) (n : Nat) (s : σ) {next : Reads Next}
    (hnext : Inside next) : Inside (b.foldFrom id entry n s next).2 := by
  induction n generalizing s next with
  | zero =>
    cases next with
    | error fault => exact inside_error (hnext fault rfl)
    | ok next =>
      cases next with
      | closed rest => exact inside_ok _
      | entry cs => exact inside_error b.unfinished_ne
  | succ n ih =>
    cases next with
    | error fault => exact inside_error (hnext fault rfl)
    | ok next =>
      cases next with
      | closed rest => exact inside_ok _
      | entry cs =>
        unfold foldFrom
        split
        · next fault hfault => exact inside_error (hentry s cs fault hfault)
        · next s' rest hread => exact ih s' (b.inside_following rest)

end Brackets

section

variable {value : List Char → Reads (Value × List Char)} (h : ∀ cs, Inside (value cs))

include h

theorem inside_array (cs : List Char) : Inside (array value cs) := by
  have hitem : ∀ vs cs, Inside (item value vs cs) := fun _ cs =>
    inside_bind (h cs) fun _ => inside_ok _
  exact inside_bind (Brackets.array.inside_foldFrom hitem _ _ (Brackets.array.inside_first cs))
    fun _ => inside_ok _

theorem inside_object (cs : List Char) : Inside (object value cs) := by
  have hmember : ∀ ms cs, Inside (member value ms cs) := fun _ cs =>
    inside_bind (inside_name cs) fun _ => inside_bind (inside_colon _) fun _ =>
      inside_bind (h _) fun _ => inside_ok _
  exact inside_bind (Brackets.object.inside_foldFrom hmember _ _ (Brackets.object.inside_first cs))
    fun _ => inside_ok _

end

theorem inside_value (room : Nat) (cs : List Char) : Inside (value room cs) := by
  induction room generalizing cs with
  | zero =>
    unfold value
    split
    · exact inside_error (by simp)
    · exact inside_error (by simp)
    · contradiction
    · contradiction
    · exact inside_scalar _
  | succ room ih =>
    unfold value
    split
    · contradiction
    · contradiction
    · next heq _ =>
      obtain rfl := Nat.succ.inj heq
      exact inside_array ih _
    · next heq _ =>
      obtain rfl := Nat.succ.inj heq
      exact inside_object ih _
    · exact inside_scalar _

end LayerSize.Json
