import LayerSize.Text.Position

/-!
# Texts with the same first bytes

A place in a text is a number of bytes and may lie inside a character.  Two texts with the same
bytes up to a place have the same characters up to it, but for the one that it cuts.

* `Agree`: two texts have the same first bytes;
* `Agree.append`: the same bytes after a text are that text again;
* `Agree.alike`: characters with the same first byte are the same, or both are beyond ASCII;
* `Designates`: what a line and a column stand for.
-/

namespace LayerSize

namespace Text

variable {c d : Char} {cs cs' p : List Char} {bs bs' : List UInt8} {j k : Nat}

/-! ## Characters -/

/-- No encoding of a character is the start of another one. -/
theorem utf8EncodeChar_inj (h : String.utf8EncodeChar c ++ bs = String.utf8EncodeChar d ++ bs') :
    c = d := by
  have happ : (String.utf8EncodeChar c).toByteArray ++ bs.toByteArray =
      (String.utf8EncodeChar d).toByteArray ++ bs'.toByteArray := by
    rw [← List.toByteArray_append, ← List.toByteArray_append, h]
  have hdecode := congrArg (ByteArray.utf8DecodeChar? · 0) happ
  rw [ByteArray.utf8DecodeChar?_utf8EncodeChar_append,
    ByteArray.utf8DecodeChar?_utf8EncodeChar_append] at hdecode
  exact Option.some.inj hdecode

/-- Readers that look at ASCII characters only cannot tell these two apart. -/
def Alike (c d : Char) : Prop := c = d ∨ 128 ≤ c.toNat ∧ 128 ≤ d.toNat

theorem Alike.refl (c : Char) : Alike c c := .inl rfl

/-- What is the same for all characters beyond ASCII is the same for the two. -/
theorem Alike.congr {α : Type} {f : Char → α} {a : α} (h : Alike c d)
    (hf : ∀ c, 128 ≤ c.toNat → f c = a) : f d = f c := by
  rcases h with rfl | ⟨hc, hd⟩
  · rfl
  · rw [hf c hc, hf d hd]

theorem Alike.eq_of_lt (h : Alike c d) (hc : c.toNat < 128) : d = c := by
  rcases h with rfl | ⟨hc', -⟩
  · rfl
  · omega

/-- An ASCII character is not taken for another one. -/
theorem Alike.ne {a : Char} (h : Alike c d) (hc : c ≠ a) (ha : a.toNat < 128) : d ≠ a := by
  rintro rfl
  rcases h with rfl | ⟨-, hd⟩
  · exact hc rfl
  · omega

/-- Characters have a byte at least. -/
theorem length_le_byteCount (cs : List Char) : cs.length ≤ byteCount cs := by
  induction cs with
  | nil => exact Nat.le_refl 0
  | cons c cs ih =>
    have hpos := c.utf8Size_pos
    rw [List.length_cons, byteCount_cons]
    omega

/-! ## The same first bytes -/

/-- The first text has so many bytes, and the second one starts with the same ones. -/
def Agree (k : Nat) (cs cs' : List Char) : Prop :=
  k ≤ byteCount cs ∧ (bytes cs).take k = (bytes cs').take k

theorem Agree.refl (h : k ≤ byteCount cs) : Agree k cs cs := ⟨h, rfl⟩

theorem Agree.le (h : Agree k cs cs') : k ≤ byteCount cs' := by
  have hlen := congrArg List.length h.2
  have hle := h.1
  simp only [List.length_take, length_bytes] at hlen
  omega

theorem Agree.symm (h : Agree k cs cs') : Agree k cs' cs := ⟨h.le, h.2.symm⟩

theorem Agree.mono (h : Agree k cs cs') (hjk : j ≤ k) : Agree j cs cs' := by
  refine ⟨Nat.le_trans hjk h.1, ?_⟩
  have htake := congrArg (List.take j) h.2
  rwa [List.take_take, List.take_take, Nat.min_eq_left hjk] at htake

theorem bytes_append (cs ds : List Char) : bytes (cs ++ ds) = bytes cs ++ bytes ds :=
  List.flatMap_append

/-- A text has the bytes of its start. -/
theorem Agree.append_right (h : k ≤ byteCount cs) (ds : List Char) : Agree k cs (cs ++ ds) := by
  refine ⟨h, ?_⟩
  rw [bytes_append, List.take_append_of_le_length (by rwa [length_bytes])]

theorem bytes_cons (c : Char) (cs : List Char) :
    bytes (c :: cs) = String.utf8EncodeChar c ++ bytes cs := rfl

theorem take_bytes_cons (c : Char) (cs : List Char) (k : Nat) :
    (bytes (c :: cs)).take (c.utf8Size + k) = String.utf8EncodeChar c ++ (bytes cs).take k := by
  rw [bytes_cons, ← String.length_utf8EncodeChar, List.take_length_add_append]

/-- A character that is before the place is in both texts. -/
theorem Agree.cons (h : Agree (c.utf8Size + k) (c :: cs) cs') :
    ∃ ds, cs' = c :: ds ∧ Agree k cs ds := by
  obtain ⟨hle, htake⟩ := h
  have hpos := c.utf8Size_pos
  rw [take_bytes_cons] at htake
  cases cs' with
  | nil =>
    have hnil := congrArg List.length htake
    simp [bytes] at hnil
    omega
  | cons d ds =>
    have happ : bytes (d :: ds) = String.utf8EncodeChar c ++
        ((bytes cs).take k ++ (bytes (d :: ds)).drop (c.utf8Size + k)) := by
      rw [← List.append_assoc, htake, List.take_append_drop]
    obtain rfl : d = c := utf8EncodeChar_inj happ
    rw [take_bytes_cons, List.append_cancel_left_eq] at htake
    rw [byteCount_cons] at hle
    exact ⟨ds, rfl, by omega, htake⟩

/-- Induction on the text before the place. -/
theorem Agree.append (h : Agree (byteCount p + k) (p ++ cs) cs') :
    ∃ ds, cs' = p ++ ds ∧ Agree k cs ds := by
  induction p generalizing cs' with
  | nil => exact ⟨cs', rfl, by simpa using h⟩
  | cons c p ih =>
    rw [byteCount_cons, Nat.add_assoc] at h
    obtain ⟨_, rfl, hcs⟩ := Agree.cons h
    obtain ⟨ds, rfl, hds⟩ := ih hcs
    exact ⟨ds, rfl, hds⟩

theorem utf8Size_of_lt (h : c.toNat < 128) : c.utf8Size = 1 := by
  rw [Char.utf8Size_eq_one_iff, UInt32.le_iff_toNat_le]
  exact Nat.le_of_lt_succ h

/-- The same first byte belongs to the same ASCII character, or to none. -/
theorem Agree.alike (h : Agree k (c :: cs) cs') (hk : 0 < k) :
    ∃ d ds, cs' = d :: ds ∧ Alike c d := by
  have hone : Agree 1 (c :: cs) cs' := h.mono hk
  by_cases hc : c.toNat < 128
  · obtain ⟨ds, rfl, -⟩ := Agree.cons (k := 0) (by rwa [utf8Size_of_lt hc])
    exact ⟨c, ds, rfl, .refl c⟩
  · cases cs' with
    | nil => exact absurd hone.le (by simp)
    | cons d ds =>
      by_cases hd : d.toNat < 128
      · obtain ⟨_, heq, -⟩ := Agree.cons (k := 0) (by rw [utf8Size_of_lt hd]; exact hone.symm)
        obtain ⟨rfl, -⟩ := List.cons.inj heq
        exact ⟨c, ds, rfl, .refl c⟩
      · exact ⟨d, ds, rfl, .inr ⟨by omega, by omega⟩⟩

end Text

/-! ## Lines and columns -/

/-- The line is that of the byte, counted from one, and the column the number of bytes between
the last line break before it and the byte. -/
def Designates (p : Position) (bs : List UInt8) (k : Nat) : Prop :=
  p.line = 1 + (bs.take k).count 10 ∧
    ∃ before line, bs.take k = before ++ line ∧ 10 ∉ line ∧
      (before = [] ∨ before.getLast? = some 10) ∧ p.column = line.length

theorem designates_after (bs : List UInt8) (k : Nat) :
    Designates (Position.after (bs.take k)) bs k := by
  have hsplit : (bs.take k).reverse =
      (bs.take k).reverse.takeWhile (· != 10) ++ (bs.take k).reverse.dropWhile (· != 10) :=
    List.takeWhile_append_dropWhile.symm
  refine ⟨rfl, ((bs.take k).reverse.dropWhile (· != 10)).reverse,
    ((bs.take k).reverse.takeWhile (· != 10)).reverse, ?_, ?_, ?_, ?_⟩
  · rw [← List.reverse_append, ← hsplit, List.reverse_reverse]
  · intro hmem
    have hne := List.all_eq_true.1 List.all_takeWhile 10 (List.mem_reverse.1 hmem)
    simp at hne
  · cases hrest : (bs.take k).reverse.dropWhile (· != 10) with
    | nil => exact .inl rfl
    | cons b rest =>
      have hb := List.head?_dropWhile_not (· != 10) (bs.take k).reverse
      rw [hrest] at hb
      right
      simpa using hb
  · simp [Position.after]

theorem takeWhile_reverse_append {bs more : List UInt8} (h : 10 ∉ more) :
    (bs ++ more).reverse.takeWhile (· != 10) = more.reverse ++ bs.reverse.takeWhile (· != 10) := by
  rw [List.reverse_append, List.takeWhile_append_of_pos]
  intro b hb
  rw [List.mem_reverse] at hb
  simpa using fun h10 : b = 10 => h (h10 ▸ hb)

theorem takeWhile_reverse_eq_nil {bs : List UInt8} (h : bs = [] ∨ bs.getLast? = some 10) :
    bs.reverse.takeWhile (· != 10) = [] := by
  rw [← List.head?_reverse] at h
  cases hrev : bs.reverse with
  | nil => rfl
  | cons b rest =>
    rcases h with rfl | hlast
    · cases hrev
    · rw [hrev] at hlast
      obtain rfl : b = 10 := Option.some.inj hlast
      rfl

theorem designates_iff {p : Position} {bs : List UInt8} {k : Nat} :
    Designates p bs k ↔ p = Position.after (bs.take k) := by
  constructor
  · rintro ⟨hline, before, line, htake, hno, hbefore, hcolumn⟩
    have hlength : p.column = ((bs.take k).reverse.takeWhile (· != 10)).length := by
      rw [htake, takeWhile_reverse_append hno, takeWhile_reverse_eq_nil hbefore, List.append_nil,
        List.length_reverse, hcolumn]
    cases p
    simp only [Position.after, Position.mk.injEq]
    exact ⟨hline, hlength⟩
  · rintro rfl
    exact designates_after bs k

/-- More bytes lead to another line, or to a larger column. -/
theorem eq_nil_of_after_append {bs more : List UInt8}
    (h : Position.after (bs ++ more) = Position.after bs) : more = [] := by
  obtain ⟨hline, hcolumn⟩ := Position.mk.inj h
  rw [List.count_append] at hline
  have hno : 10 ∉ more := List.count_eq_zero.1 (by omega)
  rw [takeWhile_reverse_append hno, List.length_append, List.length_reverse] at hcolumn
  exact List.eq_nil_of_length_eq_zero (by omega)

/-- A line and a column stand for one place at most. -/
theorem Designates.unique {p : Position} {bs : List UInt8} {k k' : Nat} (h : Designates p bs k)
    (h' : Designates p bs k') (hk : k ≤ bs.length) (hk' : k' ≤ bs.length) : k = k' := by
  have hle : ∀ {k k'}, Designates p bs k → Designates p bs k' → k ≤ k' → k' ≤ bs.length →
      k = k' := by
    intro k k' h h' hkk hk'
    rw [designates_iff] at h h'
    have hsplit : bs.take k' = bs.take k ++ (bs.drop k).take (k' - k) := by
      rw [← List.take_add, Nat.add_sub_cancel' hkk]
    rw [h, hsplit] at h'
    have hlength := congrArg List.length (eq_nil_of_after_append h'.symm)
    simp at hlength
    omega
  rcases Nat.le_total k k' with hkk | hkk
  · exact hle h h' hkk hk'
  · exact (hle h' h hkk hk).symm

end LayerSize
