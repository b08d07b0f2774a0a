import LayerSize.Proofs.Json.Prompt
import LayerSize.Proofs.Json.Strings

/-!
# Words, strings and names are read promptly

An escape is reported at the byte that rules it out: a code after its four bytes, a surrogate
that stands alone after the code that should have been another one.  A string is read escape by
escape and character by character.

* `promptAt_word`, `promptAt_string`: words and strings;
* `promptAt_name`, `promptAt_colon`: what stands before the value of a member.
-/

namespace LayerSize.Json

open Text (Agree Alike)

variable {c : Char} {cs cs' rest : List Char} {n : Nat}

/-! ## Words -/

/-- Induction on the letters that are still to come. -/
theorem promptAt_word {ws : List Char} (h : ∀ w ∈ ws, w.toNat < 128) (cs : List Char) :
    PromptAt (passing (word ws)) cs := by
  induction ws generalizing cs with
  | nil => exact promptAt_ok () cs
  | cons w ws ih =>
    cases cs with
    | nil => exact promptAt_end rfl rfl
    | cons c cs =>
      by_cases hc : c = w
      · subst hc
        have heq : (fun cs => passing (word (c :: ws)) (c :: cs)) = passing (word ws) := by
          funext cs
          simp [passing, word]
        apply PromptAt.cons
        rw [heq]
        exact ih (fun w hw => h w (List.mem_cons_of_mem _ hw)) cs
      · refine promptAt_unexpected .expectedWord ?_ cs
        intro d r halike
        have hd : d ≠ w := halike.ne hc (h w (List.mem_cons_self ..))
        simp [passing, word, hd, Except.map]

/-! ## Hexadecimal codes -/

theorem byteCount_hexCode {h : List Char} (hh : HexCode h n) : Text.byteCount h = 4 := by
  cases hh with
  | mk ha hb hc hd =>
    simp [utf8Size_of_hexDigit ha, utf8Size_of_hexDigit hb, utf8Size_of_hexDigit hc,
      utf8Size_of_hexDigit hd]

theorem four_le_byteCount_take (h : 4 ≤ Text.byteCount cs) : 4 ≤ Text.byteCount (cs.take 4) := by
  by_cases hlen : cs.length ≤ 4
  · rwa [List.take_of_length_le hlen]
  · have hle := Text.length_le_byteCount (cs.take 4)
    rw [List.length_take] at hle
    omega

/-- A code is in its four bytes. -/
theorem HexCode.append_of_agree {code : List Char} (hn : HexCode code n)
    (h : Agree 4 (code ++ rest) cs') : ∃ rest', cs' = code ++ rest' := by
  obtain ⟨rest', rfl, -⟩ := Agree.append (k := 0) (p := code) (by rwa [byteCount_hexCode hn])
  exact ⟨rest', rfl⟩

theorem hexCode_eq_of_agree (h : Agree 4 cs cs') (hcode : hexCode cs = .ok n) :
    hexCode cs' = .ok n := by
  obtain ⟨code, rest, rfl, hn⟩ := hexCode_sound hcode
  obtain ⟨rest', rfl⟩ := hn.append_of_agree h
  exact hexCode_complete hn rest'

theorem hexCode_error {fault : Fault Cause} (h : hexCode cs = .error fault) :
    fault = .here .endOfString [] ∨ 4 ≤ Text.byteCount cs ∧ fault = .after .invalidEscape 4 cs := by
  unfold hexCode at h
  split at h
  · cases h
    exact .inl rfl
  · next hlong =>
    split at h
    · cases h
    · cases h
      have hle := List.take_append_drop 4 cs ▸ Text.byteCount_append (cs.take 4) (cs.drop 4)
      exact .inr ⟨by omega, rfl⟩

theorem hexCode_error_of_agree (h : Agree 4 cs cs') {fault : Fault Cause}
    (hcode : hexCode cs = .error fault) : hexCode cs' = .error (.after .invalidEscape 4 cs') := by
  cases hcode' : hexCode cs' with
  | ok n => rw [hexCode_eq_of_agree h.symm hcode'] at hcode; cases hcode
  | error fault' =>
    rcases hexCode_error hcode' with rfl | ⟨-, rfl⟩
    · have hlong := four_le_byteCount_take h.le
      unfold hexCode at hcode'
      rw [if_neg (by omega)] at hcode'
      split at hcode' <;> cases hcode'
    · rfl

/-- A code, and the text after it.  Some codes are surrogates that should not stand here. -/
def readCode (lone : Nat → Bool) (cs : List Char) : Reads (Nat × List Char) :=
  match hexCode cs with
  | .error fault => .error fault
  | .ok code =>
    if lone code then .error (.here .loneSurrogate (cs.drop 4)) else .ok (code, cs.drop 4)

theorem readCode_of_hexCode {lone : Nat → Bool} {code : List Char} (h : HexCode code n)
    (rest : List Char) :
    readCode lone (code ++ rest) =
      if lone n then .error (.here .loneSurrogate rest) else .ok (n, rest) := by
  have hdrop : (code ++ rest).drop 4 = rest := by rw [← length_hexCode h, List.drop_left]
  simp only [readCode, hexCode_complete h, hdrop]

theorem promptAt_readCode (lone : Nat → Bool) (cs : List Char) : PromptAt (readCode lone) cs := by
  cases hcode : hexCode cs with
  | error fault =>
    have herror : ∀ {cs' fault'}, hexCode cs' = .error fault' → readCode lone cs' = .error fault' :=
      fun h => by rw [readCode, h]
    rcases hexCode_error hcode with rfl | ⟨hle, rfl⟩
    · exact promptAt_end (herror hcode) rfl
    · have hshows : ShowsAfter (readCode lone) .invalidEscape 4 cs :=
        ⟨by decide, hle, fun cs' hcs' => herror (hexCode_error_of_agree hcs' hcode)⟩
      exact hshows.promptAt
  | ok n =>
    obtain ⟨code, rest, rfl, hn⟩ := hexCode_sound hcode
    have hfour := byteCount_hexCode hn
    by_cases hlone : lone n = true
    · have hshows : ShowsAfter (readCode lone) .loneSurrogate 4 (code ++ rest) := by
        refine ⟨by decide, by rw [Text.byteCount_append]; omega, ?_⟩
        intro cs' hcs'
        obtain ⟨rest', rfl⟩ := hn.append_of_agree hcs'
        rw [readCode_of_hexCode hn, if_pos hlone, Fault.after, Text.byteCount_append, hfour,
          Nat.add_sub_cancel_left]
        rfl
      exact hshows.promptAt
    · refine .append code ?_
      simp only [readCode_of_hexCode hn, if_neg hlone]
      exact promptAt_ok n rest

/-! ## Escapes -/

theorem promptAt_surrogateEscape (cs : List Char) : PromptAt (passing surrogateEscape) cs := by
  have hother : ∀ c cs, c ≠ '\\' →
      surrogateEscape (c :: cs) = .error (.next .unfinishedSurrogate (c :: cs)) := by
    intro c cs hc
    unfold surrogateEscape
    split <;> simp_all
  have hbackslash : ∀ c cs, c ≠ 'u' →
      surrogateEscape ('\\' :: c :: cs) = .error (.next .unfinishedSurrogate (c :: cs)) := by
    intro c cs hc
    rw [surrogateEscape, if_neg (by simp)]
    intro cs' heq
    exact hc (List.cons.inj heq).1
  cases cs with
  | nil => exact promptAt_end rfl rfl
  | cons c cs =>
    by_cases hc : c = '\\'
    · subst hc
      refine .cons _ ?_
      cases cs with
      | nil => exact promptAt_end rfl rfl
      | cons c cs =>
        by_cases hu : c = 'u'
        · subst hu
          exact .cons _ (promptAt_ok () cs)
        · refine promptAt_unexpected .unfinishedSurrogate ?_ cs
          intro d r halike
          rw [passing, hbackslash d r (halike.ne hu (by decide))]
          rfl
    · refine promptAt_unexpected .unfinishedSurrogate ?_ cs
      intro d r halike
      rw [passing, hother d r (halike.ne hc (by decide))]
      rfl

/-- The character that an escape stands for, and the text after the escape. -/
def afterEscape (x : Char × Nat) (cs : List Char) : Char × List Char := (x.1, cs.drop x.2)

/-- An escape is one code, or two codes with a backslash and a letter between them, and ends where
the last one does. -/
theorem unicodeEscape_map (cs : List Char) :
    (unicodeEscape cs).map (afterEscape · cs) =
      readCode isTrailingSurrogate cs >>= fun x =>
        if isLeadingSurrogate x.1 then
          surrogateEscape x.2 >>= fun rest =>
            readCode (fun n => !isTrailingSurrogate n) rest >>= fun y =>
              .ok (surrogatePair x.1 y.1, y.2)
        else .ok (Char.ofNat x.1, x.2) := by
  unfold unicodeEscape readCode
  cases hexCode cs with
  | error fault => rfl
  | ok code =>
    cases htrailing : isTrailingSurrogate code with
    | true => simp [htrailing, throw, throwThe, MonadExceptOf.throw, bind, Except.bind, Except.map]
    | false =>
      cases hleading : isLeadingSurrogate code with
      | false =>
        simp [htrailing, hleading, afterEscape, bind, Except.bind, pure, Except.pure, Except.map]
      | true =>
        cases hsurrogate : surrogateEscape (cs.drop 4) with
        | error fault => simp [htrailing, hleading, hsurrogate, bind, Except.bind, Except.map]
        | ok rest =>
          rw [surrogateEscape_eq_ok_iff] at hsurrogate
          -- four digits, the backslash with its letter, and four digits again
          have hrest : cs.drop 10 = rest.drop 4 := by
            calc cs.drop 10 = (cs.drop 4).drop 6 := by rw [List.drop_drop]
              _ = rest.drop 4 := by rw [hsurrogate]; rfl
          cases hcode : hexCode rest with
          | error fault =>
            simp [htrailing, hleading, hsurrogate, surrogateEscape, hcode, bind, Except.bind,
              Except.map]
          | ok trailing =>
            cases hpair : isTrailingSurrogate trailing <;>
              simp [htrailing, hleading, hsurrogate, surrogateEscape, hcode, hpair, hrest,
                afterEscape, throw, throwThe, MonadExceptOf.throw, bind, Except.bind, pure,
                Except.pure, Except.map]

theorem promptAt_unicodeEscape (cs : List Char) :
    PromptAt (fun cs => (unicodeEscape cs).map (afterEscape · cs)) cs := by
  simp only [unicodeEscape_map]
  refine (promptAt_readCode _ cs).bind ?_
  intro code rest hcode
  by_cases hleading : isLeadingSurrogate code = true
  · simp only [hleading, if_true]
    refine (promptAt_surrogateEscape rest).bind_rest ?_
    intro rest' _
    exact (promptAt_readCode _ rest').map _
  · simp only [if_neg hleading]
    exact promptAt_ok _ rest

/-- The letters that may follow a backslash are ASCII ones. -/
theorem letterEscape?_of_le {d : Char} (h : 128 ≤ d.toNat) : letterEscape? d = none := by
  cases hletter : letterEscape? d with
  | none => rfl
  | some c =>
    have hascii : ∀ x ∈ letterEscapes, x.1.toNat < 128 := by decide
    have hlt : d.toNat < 128 := hascii _ (letterEscape?_eq_some_iff.1 hletter)
    omega

theorem escape_of_ne {c : Char} (h : c ≠ 'u') (cs : List Char) :
    escape (c :: cs) = match letterEscape? c with
      | some c' => .ok (c', 1)
      | none => .error (.next .invalidEscape (c :: cs)) := by
  unfold escape
  split
  · contradiction
  · next heq => exact absurd (List.cons.inj heq).1 h
  · next heq =>
    obtain ⟨rfl, rfl⟩ := List.cons.inj heq
    rfl

theorem promptAt_escape (cs : List Char) :
    PromptAt (fun cs => (escape cs).map (afterEscape · cs)) cs := by
  cases cs with
  | nil => exact promptAt_end rfl rfl
  | cons c cs =>
    by_cases hu : c = 'u'
    · subst hu
      refine .cons _ ?_
      have heq : (fun cs => (escape ('u' :: cs)).map (afterEscape · ('u' :: cs))) =
          fun cs => (unicodeEscape cs).map (afterEscape · cs) := by
        funext cs
        rw [escape]
        cases unicodeEscape cs <;> rfl
      rw [heq]
      exact promptAt_unicodeEscape cs
    · cases hletter : letterEscape? c with
      | some c' =>
        refine .cons _ ?_
        have heq : (fun cs => (escape (c :: cs)).map (afterEscape · (c :: cs))) =
            fun cs => .ok (c', cs) := by
          funext cs
          rw [escape_of_ne hu, hletter]
          rfl
        rw [heq]
        exact promptAt_ok c' cs
      | none =>
        refine promptAt_unexpected .invalidEscape ?_ cs
        intro d r halike
        have hd : letterEscape? d = none := by
          rw [halike.congr fun _ => letterEscape?_of_le, hletter]
        rw [escape_of_ne (halike.ne hu (by decide)), hd]
        rfl

/-! ## Strings -/

/-- The characters that are passed over are left out from the start. -/
theorem quoted_eq_drop (n : Nat) (cs : List Char) : quoted n cs = quoted 0 (cs.drop n) := by
  induction cs generalizing n with
  | nil => cases n <;> rfl
  | cons c cs ih =>
    cases n with
    | zero => rfl
    | succ n => exact ih n

theorem quoted_escape (cs : List Char) :
    quoted 0 ('\\' :: cs) = (escape cs).map (afterEscape · cs) >>= fun x =>
      quoted 0 x.2 >>= fun y => .ok (x.1 :: y.1, y.2) := by
  rw [quoted_backslash]
  cases escape cs with
  | error fault => rfl
  | ok x =>
    obtain ⟨c, n⟩ := x
    show (quoted n cs >>= _) = (quoted 0 (cs.drop n) >>= _)
    rw [quoted_eq_drop]
    rfl

theorem length_le_of_escape (h : (escape cs).map (afterEscape · cs) = .ok (c, rest)) :
    rest.length ≤ cs.length := by
  cases hescape : escape cs with
  | error fault => rw [hescape] at h; cases h
  | ok x =>
    rw [hescape] at h
    cases h
    simp

/-- Induction on the length: an escape takes several characters at once. -/
theorem promptAt_quoted (cs : List Char) : PromptAt (quoted 0) cs := by
  induction hn : cs.length using Nat.strong_induction_on generalizing cs with
  | _ n ih =>
    subst hn
    cases cs with
    | nil => exact promptAt_end rfl rfl
    | cons c cs =>
      by_cases hq : c = '"'
      · subst hq
        exact .cons _ (promptAt_ok [] cs)
      · by_cases hb : c = '\\'
        · subst hb
          refine .cons _ ?_
          simp only [quoted_escape]
          refine (promptAt_escape cs).bind ?_
          intro c rest hescape
          have hlen : rest.length ≤ cs.length := length_le_of_escape hescape
          exact (ih rest.length (by simp; omega) rest rfl).map (c :: ·)
        · by_cases hc : isControl c = true
          · refine promptAt_unexpected .controlCharacter ?_ cs
            intro d r halike
            obtain rfl : d = c := halike.eq_of_lt (by rw [isControl_iff] at hc; omega)
            rw [quoted_cons hq hb, if_pos hc]
          · refine .cons _ ?_
            simp only [quoted_cons hq hb, if_neg hc]
            exact (ih cs.length (by simp) cs rfl).map _

theorem promptAt_string (cs : List Char) : PromptAt string cs :=
  (promptAt_quoted cs).map String.ofList

/-! ## Names and colons -/

/-- Where a member has to start the text has not ended. -/
theorem promptAt_name (c : Char) (cs : List Char) : PromptAt name (c :: cs) := by
  by_cases hc : c = '"'
  · subst hc
    exact .cons _ (promptAt_string cs)
  · refine promptAt_unexpected .keyNotString ?_ cs
    intro d r halike
    have hquote : nameQuote (d :: r) = .error (.next .keyNotString (d :: r)) := by
      rw [nameQuote]
      intro cs' heq
      exact halike.ne hc (by decide) (List.cons.inj heq).1
    rw [name, hquote]
    rfl

theorem colon_blanks_append {bs : List Char} (h : Blanks bs) (cs : List Char) :
    colon (bs ++ cs) = colon cs := by
  unfold colon
  rw [skipBlanks_of_blanks h]

theorem promptAt_colon (cs : List Char) : PromptAt (passing colon) cs := by
  refine promptAt_blanks ?_ (promptAt_end rfl rfl) ?_ cs
  · intro bs cs hbs
    rw [passing, colon_blanks_append hbs]
    rfl
  · intro c rest hblank
    by_cases hc : c = ':'
    · subst hc
      exact .cons _ (promptAt_ok () rest)
    · refine promptAt_unexpected .expectedColon ?_ rest
      intro d r halike
      have hd : d ≠ ':' := halike.ne hc (by decide)
      have hcolon : colon (d :: r) = .error (.next .expectedColon (d :: r)) := by
        unfold colon
        rw [skipBlanks_of_alike halike hblank]
        split
        · contradiction
        · next heq => exact absurd (List.cons.inj heq).1 hd
        · next heq =>
          obtain ⟨rfl, rfl⟩ := List.cons.inj heq
          rfl
      rw [passing, hcolon]
      rfl

end LayerSize.Json
