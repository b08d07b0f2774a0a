import LayerSize.Json.Skip
import LayerSize.Proofs.Json.Joined

/-!
# Passing over values

A value that nobody asks for is passed over to its end.  It needs the form of a value only:
its numbers may be too large for a double, its surrogates may stand alone, and its brackets may
be nested to any depth.

* `ValueForm`: the texts that have the form of a value;
* `ValueText.form`: every text of a value has it;
* `skipValue_append`: what has it is passed over, and nothing after it.
-/

namespace LayerSize.Json

/-! ## The form of a value -/

/-- What follows a backslash, with any code. -/
inductive EscapeForm : List Char → Prop where
  | letter {c d : Char} (h : (c, d) ∈ letterEscapes) : EscapeForm [c]
  | code {h : List Char} {n : Nat} (code : HexCode h n) : EscapeForm ('u' :: h)

/-- What stands between two quotes, surrogates included. -/
inductive QuotedForm : List Char → Prop where
  | nil : QuotedForm []
  | plain {c : Char} {t : List Char} (hq : c ≠ '"') (hb : c ≠ '\\') (hc : 0x20 ≤ c.toNat)
      (h : QuotedForm t) : QuotedForm (c :: t)
  | escaped {e t : List Char} (he : EscapeForm e) (h : QuotedForm t) : QuotedForm ('\\' :: (e ++ t))

/-- What is neither an array nor an object. -/
inductive ScalarForm : List Char → Prop where
  | null : ScalarForm ['n', 'u', 'l', 'l']
  | true : ScalarForm ['t', 'r', 'u', 'e']
  | false : ScalarForm ['f', 'a', 'l', 's', 'e']
  | number {t : List Char} {l : Literal} (h : LiteralText t l) : ScalarForm t
  | string {t : List Char} (h : QuotedForm t) : ScalarForm ('"' :: (t ++ ['"']))

/-- A name, a colon and a value. -/
inductive MemberForm (Inner : List Char → Prop) : List Char → Prop where
  | mk {q a b t : List Char} (hq : QuotedForm q) (ha : Blanks a) (hb : Blanks b) (h : Inner t) :
      MemberForm Inner ('"' :: (q ++ '"' :: (a ++ ':' :: (b ++ t))))

/-- Values whose items and members are `Inner` ones. -/
inductive NestedForm (Inner : List Char → Prop) : List Char → Prop where
  | scalar {t : List Char} (h : ScalarForm t) : NestedForm Inner t
  | emptyArray {bs : List Char} (h : Blanks bs) : NestedForm Inner ('[' :: (bs ++ [']']))
  | array {ts : List Char} {xs : List Unit} (h : Entries (fun t _ => Inner t) ts xs) :
      NestedForm Inner ('[' :: (ts ++ [']']))
  | emptyObject {bs : List Char} (h : Blanks bs) : NestedForm Inner ('{' :: (bs ++ ['}']))
  | object {ts : List Char} {xs : List Unit} (h : Entries (fun t _ => MemberForm Inner t) ts xs) :
      NestedForm Inner ('{' :: (ts ++ ['}']))

/-- The texts that have the form of a value, with at most so many brackets open at any place. -/
def ValueForm : Nat → List Char → Prop
  | 0 => ScalarForm
  | room + 1 => NestedForm (ValueForm room)

/-- The text has the form of a value, with blanks around it. -/
def WellFormed (t : List Char) : Prop :=
  ∃ room a u b, t = a ++ (u ++ b) ∧ Blanks a ∧ ValueForm room u ∧ Blanks b

variable {a b t u q e cs rest : List Char} {v : Value} {room : Nat} {inner : Brackets}
  {outer : List Brackets}

/-! ## The texts of values have their form -/

theorem QuotedText.form {s : List Char} (h : QuotedText t s) : QuotedForm t := by
  induction h with
  | nil => exact .nil
  | plain hq hb hc _ ih => exact .plain hq hb hc ih
  | escaped he _ ih =>
    cases he with
    | letter h => exact .escaped (.letter h) ih
    | code h => exact .escaped (.code h) ih
    | pair leading trailing =>
      have hpair := QuotedForm.escaped (.code leading) (.escaped (.code trailing) ih)
      simpa using hpair

theorem ScalarText.form (h : ScalarText t v) : ScalarForm t := by
  cases h with
  | null => exact .null
  | true => exact .true
  | false => exact .false
  | number h => exact .number h
  | string h => exact .string h.form

/-- Induction on the depth. -/
theorem ValueText.form (h : ValueText room t v) : ValueForm room t := by
  induction room generalizing t v with
  | zero => exact ScalarText.form h
  | succ room ih =>
    cases h with
    | scalar h => exact .scalar h.form
    | emptyArray h => exact .emptyArray h
    | array h => exact .array (h.map (f := fun _ => ()) ih)
    | emptyObject h => exact .emptyObject h
    | object h =>
      refine .object (h.map (f := fun _ => ()) ?_)
      intro t m hm
      cases hm with
      | mk hq ha hb h => exact .mk hq.form ha hb (ih h)

theorem IsJson.wellFormed (h : IsJson room t) : WellFormed t := by
  obtain ⟨v, a, u, b, ht, ha, hu, hb⟩ := h
  exact ⟨room, a, u, b, ht, ha, hu.form, hb⟩

/-! ## Scalars -/

theorem skipEscape_append (h : EscapeForm e) (cs : List Char) :
    skipEscape (e ++ cs) = .ok e.length := by
  cases h with
  | @letter c d h =>
    have hu : c ≠ 'u' := by
      rintro rfl
      exact not_mem_letterEscapes d h
    have hsome : letterEscape? c = some d := letterEscape?_eq_some_iff.2 h
    rw [List.singleton_append, skipEscape]
    · simp [hsome]
    · exact hu
  | code h =>
    rw [List.cons_append, skipEscape, hexCode_complete h, List.length_cons, length_hexCode h]
    rfl

theorem skipQuoted_skipped (skipped cs : List Char) :
    skipQuoted skipped.length (skipped ++ cs) = skipQuoted 0 cs := by
  induction skipped with
  | nil => rfl
  | cons c skipped ih => rw [List.length_cons, List.cons_append, skipQuoted, ih]

theorem skipQuoted_append (h : QuotedForm q) (cs : List Char) :
    skipQuoted 0 (q ++ '"' :: cs) = .ok cs := by
  induction h with
  | nil => rfl
  | @plain c t hq hb hc _ ih =>
    have hn : ¬ isControl c = true := by
      rw [isControl_iff]
      omega
    rw [List.cons_append, skipQuoted, if_neg hn, ih]
    · exact hq
    · exact hb
  | @escaped e t he _ ih =>
    have happ : '\\' :: (e ++ t) ++ '"' :: cs = '\\' :: (e ++ (t ++ '"' :: cs)) := by simp
    rw [happ, skipQuoted, skipEscape_append he]
    show skipQuoted e.length (e ++ (t ++ '"' :: cs)) = .ok cs
    rw [skipQuoted_skipped, ih]

/-- A minus or a digit begins nothing but a number. -/
theorem skipScalar_number {c : Char} (h : c = '-' ∨ c.isDigit = true) (cs : List Char) :
    skipScalar (c :: cs) = (do
      let (_, rest) ← Literal.scan .invalidNumber (c :: cs)
      return rest) := by
  unfold skipScalar
  split
  · contradiction
  all_goals
    next heq =>
      obtain ⟨rfl, rfl⟩ := List.cons.inj heq
      first
      | simp at h
      | rw [if_pos h]

theorem skipScalar_append (h : ScalarForm t) (hrest : NoLiteral rest) :
    skipScalar (t ++ rest) = .ok rest := by
  cases h with
  | null => rfl
  | true => rfl
  | false => rfl
  | number ht =>
    obtain ⟨c, t', rfl, hc⟩ := starts_literal ht
    rw [List.cons_append, skipScalar_number hc, ← List.cons_append,
      Literal.scan_complete ht hrest]
    rfl
  | @string q hq =>
    have happ : '"' :: (q ++ ['"']) ++ rest = '"' :: (q ++ '"' :: rest) := by simp
    rw [happ, skipScalar, skipQuoted_append hq]

/-! ## Stages -/

/-- Going on from a stage. -/
def skipping (stage : Stage) (cs : List Char) (n : Nat) : Reads (List Char) := skipFrom n stage cs

/-- Going on with an entry of the innermost brackets. -/
def entering (inner : Brackets) (outer : List Brackets) (cs : List Char) :
    Nat → Reads (List Char)
  | 0 => .error (.here .endOfValue [])
  | n + 1 => do
    let (stage, cs) ← enterEntry inner outer cs
    skipFrom n stage cs

theorem skipping_ended_nil (n : Nat) : skipping (.ended []) cs n = .ok cs := by
  cases n <;> rfl

theorem entering_array (n : Nat) :
    entering .array outer cs n = skipping (.start (.array :: outer)) cs n := by
  cases n <;> rfl

theorem enter_blanks (ha : Blanks a) : enter outer (a ++ cs) = enter outer cs := by
  rw [enter, skipBlanks_of_blanks ha, ← enter]

theorem enter_scalar {c : Char} (h : skipBlanks cs = c :: rest) (hc : c ≠ '[') (hc' : c ≠ '{') :
    enter outer cs = (skipScalar (c :: rest)).map fun rest => (.ended outer, rest) := by
  unfold enter
  rw [h]
  split <;> simp_all

theorem entering_blanks (ha : Blanks a) (n : Nat) :
    entering inner outer (a ++ cs) n = entering inner outer cs n := by
  have hentry : enterEntry inner outer (a ++ cs) = enterEntry inner outer cs := by
    cases inner with
    | array => exact enter_blanks ha
    | object =>
      unfold enterEntry
      rw [skipBlanks_of_blanks ha]
  cases n with
  | zero => rfl
  | succ n => rw [entering, hentry, ← entering]

/-- After the opening bracket, where an entry comes next. -/
theorem skipping_opened {u : List Char} (h : inner.first cs = .ok (.entry u)) (n : Nat) :
    skipping (.opened inner outer) cs n = entering inner outer cs n := by
  obtain ⟨bs, hbs, rfl, c, t, rfl, hc, hclose⟩ := Brackets.first_eq_entry_iff.1 h
  rw [entering_blanks hbs]
  cases n with
  | zero => rfl
  | succ n =>
    have hother : closeOr inner outer (bs ++ c :: t) (enterEntry inner outer) =
        enterEntry inner outer (c :: t) := by
      rw [closeOr, skipBlanks_append_cons hbs hc]
      exact if_neg hclose
    rw [skipping, skipFrom, hother, ← entering]

/-- After an entry, where a comma comes next. -/
theorem skipping_comma (hb : Blanks b) (n : Nat) :
    skipping (.ended (inner :: outer)) (b ++ ',' :: cs) n = entering inner outer cs n := by
  cases n with
  | zero => rfl
  | succ n =>
    have hother : closeOr inner outer (b ++ ',' :: cs) (enterNext inner outer) =
        enterEntry inner outer cs := by
      rw [closeOr, skipBlanks_append_cons hb rfl]
      exact if_neg Brackets.close_ne_comma.symm
    rw [skipping, skipFrom, hother, ← entering]

theorem closeOr_close (hb : Blanks b) (other : List Char → Reads (Stage × List Char)) :
    closeOr inner outer (b ++ inner.close :: rest) other = .ok (.ended outer, rest) := by
  rw [closeOr, skipBlanks_append_cons hb Brackets.isBlank_close]
  exact if_pos rfl

theorem leads_blanks (ha : Blanks a) :
    Leads (entering inner outer) (a ++ cs) (entering inner outer) cs :=
  .of_eq (entering_blanks ha) (by simp)

theorem leads_comma (hb : Blanks b) :
    Leads (skipping (.ended (inner :: outer))) (b ++ ',' :: cs) (entering inner outer) cs :=
  .of_eq (skipping_comma hb) (by simp; omega)

theorem leads_opened_close (hb : Blanks b) :
    Leads (skipping (.opened inner outer)) (b ++ inner.close :: rest) (skipping (.ended outer))
      rest := by
  refine .of_step (fun n => ?_) (by simp; omega)
  rw [skipping, skipFrom, closeOr_close hb]
  rfl

theorem leads_ended_close (hb : Blanks b) :
    Leads (skipping (.ended (inner :: outer))) (b ++ inner.close :: rest)
      (skipping (.ended outer)) rest := by
  refine .of_step (fun n => ?_) (by simp; omega)
  rw [skipping, skipFrom, closeOr_close hb]
  rfl

/-! ## Entries -/

/-- An entry is passed over in any brackets that are open around it. -/
def PassesEntry (inner : Brackets) (t : List Char) : Prop :=
  inner.Starts t ∧ ∀ outer rest, NoLiteral rest →
    Leads (entering inner outer) (t ++ rest) (skipping (.ended (inner :: outer))) rest

/-- Induction on the entries. -/
theorem leads_entries {Entry : List Char → Unit → Prop} {ts : List Char} {xs : List Unit}
    (hentry : ∀ {t x}, Entry t x → PassesEntry inner t) (h : Entries Entry ts xs)
    (outer : List Brackets) (rest : List Char) :
    Leads (entering inner outer) (ts ++ inner.close :: rest) (skipping (.ended outer)) rest := by
  induction h with
  | @last a t b x ha ht hb =>
    have happ : a ++ (t ++ b) ++ inner.close :: rest = a ++ (t ++ (b ++ inner.close :: rest)) := by
      simp
    have hclose : NoLiteral (b ++ inner.close :: rest) := hb.noLiteral Brackets.noLiteral_close
    rw [happ]
    exact (leads_blanks ha).trans (((hentry ht).2 outer _ hclose).trans (leads_ended_close hb))
  | @cons a t b ts x xs ha ht hb _ ih =>
    have happ : a ++ (t ++ (b ++ ',' :: ts)) ++ inner.close :: rest =
        a ++ (t ++ (b ++ ',' :: (ts ++ inner.close :: rest))) := by simp
    have hcomma : NoLiteral (b ++ ',' :: (ts ++ inner.close :: rest)) :=
      hb.noLiteral (by simp [NoLiteral])
    rw [happ]
    exact (leads_blanks ha).trans
      (((hentry ht).2 outer _ hcomma).trans ((leads_comma hb).trans ih))

/-- After the opening bracket, entries lead past the closing one. -/
theorem leads_opened_entries {Entry : List Char → Unit → Prop} {ts : List Char} {xs : List Unit}
    (hentry : ∀ {t x}, Entry t x → PassesEntry inner t) (h : Entries Entry ts xs)
    (outer : List Brackets) (rest : List Char) :
    Leads (skipping (.opened inner outer)) (ts ++ inner.close :: rest) (skipping (.ended outer))
      rest := by
  obtain ⟨u, hu⟩ := h.starts (fun ht => (hentry ht).1) (inner.close :: rest)
  have hopened : Leads (skipping (.opened inner outer)) (ts ++ inner.close :: rest)
      (entering inner outer) (ts ++ inner.close :: rest) :=
    .of_eq (skipping_opened hu) le_rfl
  exact hopened.trans (leads_entries hentry h outer rest)

/-! ## Values -/

/-- A value is passed over, whatever brackets are open around it. -/
def PassesValue (t : List Char) : Prop :=
  StartsValue t ∧ ∀ a outer rest, Blanks a → NoLiteral rest →
    Leads (skipping (.start outer)) (a ++ (t ++ rest)) (skipping (.ended outer)) rest

/-- The first step of a scalar is the only one. -/
theorem passesValue_scalar (h : ScalarForm t) : PassesValue t := by
  obtain ⟨c, t', rfl, hblank, hbracket, hbrace, hbracket', hbrace'⟩ : ∃ c t', t = c :: t' ∧
      isBlank c = false ∧ c ≠ ']' ∧ c ≠ '}' ∧ c ≠ '[' ∧ c ≠ '{' := by
    cases h with
    | null | true | false | string => exact ⟨_, _, rfl, by decide⟩
    | number ht =>
      obtain ⟨c, t', rfl, hc⟩ := starts_literal ht
      obtain ⟨hblank, hopen, hclose, hopen', hclose'⟩ := ne_of_starts_literal hc
      exact ⟨c, t', rfl, hblank, hclose, hclose', hopen, hopen'⟩
  refine ⟨startsValue_cons hblank hbracket hbrace, fun a outer rest ha hrest => ?_⟩
  have henter : enter outer (a ++ (c :: t' ++ rest)) = .ok (.ended outer, rest) := by
    have hskip : skipBlanks (a ++ (c :: t' ++ rest)) = c :: (t' ++ rest) :=
      skipBlanks_append_cons ha hblank
    rw [enter_scalar hskip hbracket' hbrace', ← List.cons_append, skipScalar_append h hrest]
    rfl
  refine .of_step (fun n => ?_) (by simp; omega)
  rw [skipping, skipFrom, henter]
  rfl

/-- Any other value is passed over when its brackets are, with everything between them. -/
theorem passesValue_brackets (inner : Brackets) {opening : Char}
    (hchar : isBlank opening = false ∧ opening ≠ ']' ∧ opening ≠ '}')
    (hopening : ∀ outer cs, enter outer (opening :: cs) = .ok (.opened inner outer, cs))
    (hinside : ∀ outer rest, Leads (skipping (.opened inner outer)) (u ++ inner.close :: rest)
      (skipping (.ended outer)) rest) :
    PassesValue (opening :: (u ++ [inner.close])) := by
  refine ⟨startsValue_cons hchar.1 hchar.2.1 hchar.2.2, fun a outer rest ha _ => ?_⟩
  have happ : a ++ (opening :: (u ++ [inner.close]) ++ rest) =
      a ++ opening :: (u ++ inner.close :: rest) := by simp
  have hopened : Leads (skipping (.start outer)) (a ++ opening :: (u ++ inner.close :: rest))
      (skipping (.opened inner outer)) (u ++ inner.close :: rest) := by
    refine .of_step (fun n => ?_) (by simp; omega)
    rw [skipping, skipFrom, enter_blanks ha, hopening]
    rfl
  rw [happ]
  exact hopened.trans (hinside outer rest)

theorem PassesValue.item (h : PassesValue t) : PassesEntry .array t := by
  refine ⟨h.1 _, fun outer rest hrest => ?_⟩
  have hstart : Leads (entering .array outer) (t ++ rest) (skipping (.start (.array :: outer)))
      (t ++ rest) := .of_eq entering_array le_rfl
  exact hstart.trans (h.2 [] _ _ .nil hrest)

theorem PassesValue.member (hq : QuotedForm q) (ha : Blanks a) (hb : Blanks b)
    (h : PassesValue t) : PassesEntry .object ('"' :: (q ++ '"' :: (a ++ ':' :: (b ++ t)))) := by
  refine ⟨startsValue_cons rfl (by decide) (by decide) _, fun outer rest hrest => ?_⟩
  have happ : '"' :: (q ++ '"' :: (a ++ ':' :: (b ++ t))) ++ rest =
      '"' :: (q ++ '"' :: (a ++ ':' :: (b ++ (t ++ rest)))) := by simp
  have hcolon : colon (a ++ ':' :: (b ++ (t ++ rest))) = .ok (b ++ (t ++ rest)) :=
    colon_eq_ok_iff.2 ⟨a, ha, rfl⟩
  have hentry : enterEntry .object outer ('"' :: (q ++ '"' :: (a ++ ':' :: (b ++ (t ++ rest))))) =
      .ok (.start (.object :: outer), b ++ (t ++ rest)) :=
    bind_eq_ok_iff.2 ⟨_, rfl, bind_eq_ok_iff.2 ⟨_, skipQuoted_append hq _,
      bind_eq_ok_iff.2 ⟨_, hcolon, rfl⟩⟩⟩
  have hstart : Leads (entering .object outer)
      ('"' :: (q ++ '"' :: (a ++ ':' :: (b ++ (t ++ rest))))) (skipping (.start (.object :: outer)))
      (b ++ (t ++ rest)) := by
    refine .of_step (fun n => ?_) (by simp; omega)
    rw [entering, hentry]
    rfl
  rw [happ]
  exact hstart.trans (h.2 b _ _ hb hrest)

/-- Induction on the depth. -/
theorem ValueForm.passes (h : ValueForm room t) : PassesValue t := by
  induction room generalizing t with
  | zero => exact passesValue_scalar h
  | succ room ih =>
    cases h with
    | scalar h => exact passesValue_scalar h
    | emptyArray h =>
      exact passesValue_brackets .array (by decide) (fun _ _ => rfl) fun _ _ => leads_opened_close h
    | array h =>
      exact passesValue_brackets .array (by decide) (fun _ _ => rfl)
        (leads_opened_entries (fun ht => (ih ht).item) h)
    | emptyObject h =>
      exact passesValue_brackets .object (by decide) (fun _ _ => rfl) fun _ _ => leads_opened_close h
    | object h =>
      refine passesValue_brackets .object (by decide) (fun _ _ => rfl) (leads_opened_entries ?_ h)
      intro t _ ht
      cases ht with
      | mk hq ha hb ht => exact (ih ht).member hq ha hb

/-- What has the form of a value is passed over to its end, and no further than over the value. -/
theorem skipValue_append (h : WellFormed t) (hrest : NoLiteral rest) :
    ∃ bs, Blanks bs ∧ skipValue (t ++ rest) = .ok (bs ++ rest) := by
  obtain ⟨room, a, u, b, rfl, ha, hu, hb⟩ := h
  have happ : a ++ (u ++ b) ++ rest = a ++ (u ++ (b ++ rest)) := by simp
  obtain ⟨m, -, hm⟩ := (hu.passes.2 a [] _ ha (hb.noLiteral hrest)).exists_eq (Nat.le_succ _)
  refine ⟨b, hb, ?_⟩
  rw [happ, skipValue]
  exact hm.trans (skipping_ended_nil m)

end LayerSize.Json
