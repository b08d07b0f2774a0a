import LayerSize.Session

/-!
# What a session reports

The records of a session are those of its steps, in their order.  A step that reads a size
reports it, a step that scales whole pixels by a factor that is no finite number is warned of,
and no other step reports anything.  A text that holds no size leaves no trace: without such
steps the others go as before.

* `Reports`: the size after a step and the records of the step;
* `Passes`: the sizes after all steps and the records of the session;
* `run_reports`: what a session goes through, and that steps which fail may be left out.
-/

namespace LayerSize.Session

open PixelSize (ofText)

variable {size after : Size} {s : Step} {steps : List Step} {factor : Binary binary32}
  {records : List String}

/-! ## One step -/

/-- A size as a record shows it. -/
def shownSize (s : PixelSize) : String :=
  "(" ++ toString s.width.toInt ++ "," ++ toString s.height.toInt ++ ")"

/-- A factor that is not a finite number, and the text that shows it. -/
inductive NotFinite (factor : Binary binary32) : String → Prop where
  | nan (h : factor.isNaN = true) : NotFinite factor "NaN"
  | positive (h : factor.isInfinite = true) (hs : factor.negative = false) : NotFinite factor "inf"
  | negative (h : factor.isInfinite = true) (hs : factor.negative = true) : NotFinite factor "-inf"

/-- The size that a step makes of the size before it, and the records of the step. -/
inductive Reports : Size → Step → Size → List String → Prop where
  | set {size : Size} (size' : Size) : Reports size (.set size') size' []
  | toSubpixels {size : Size} : Reports size .toSubpixels (.subpixels size.toSubpixels) []
  | toPixels {size : Size} : Reports size .toPixels (.pixels size.toPixels) []
  | scaleSubpixels {s : SubpixelSize} (factor : Binary binary32) :
      Reports (.subpixels s) (.scale factor) (.subpixels (s.scale factor)) []
  | scalePixels {s : PixelSize} {factor : Binary binary32} (h : factor.isFinite = true) :
      Reports (.pixels s) (.scale factor) (.pixels (s.scale factor)) []
  | warned {s : PixelSize} {factor : Binary binary32} {shown : String}
      (h : NotFinite factor shown) :
      Reports (.pixels s) (.scale factor) (.pixels (s.scale factor))
        ["WARN scaling size " ++ shownSize s ++ " by non finite factor " ++ shown]
  | read {size : Size} {text : List Char} {s : PixelSize} (h : ofText text = .ok s) :
      Reports size (.read text) (.pixels s) ["TRACE deserialized size " ++ shownSize s]
  | failed {size : Size} {text : List Char} {e : PixelSize.TextError} (h : ofText text = .error e) :
      Reports size (.read text) size []

theorem ofList_integerText (n : Int) : String.ofList (integerText n) = toString n := by
  cases n with
  | ofNat n =>
    have hneg : ¬ Int.ofNat n < 0 := Int.not_lt.2 (Int.natCast_nonneg n)
    rw [integerText, if_neg hneg]
    rfl
  | negSucc n =>
    rw [integerText, if_pos (Int.negSucc_lt_zero n), String.ofList_cons]
    rfl

/-- The text of a size is what records show of it. -/
theorem ofList_text (s : PixelSize) : String.ofList s.text = shownSize s := by
  rw [shownSize, ← ofList_integerText, ← ofList_integerText]
  simp [PixelSize.text, String.append_assoc]

theorem record_read (s : PixelSize) :
    (Event.read s).record = "TRACE deserialized size " ++ shownSize s := by
  rw [← ofList_text]
  rfl

theorem notFinite_iff {shown : String} :
    NotFinite factor shown ↔ factor.isFinite = false ∧ String.ofList factor.text = shown := by
  constructor
  · intro h
    cases h with
    | nan h =>
      have hlt : binary32.infinity < factor.magnitude := by simpa [Binary.isNaN] using h
      have hfinite : factor.isFinite = false := by simp [Binary.isFinite, Nat.le_of_lt hlt]
      exact ⟨hfinite, by simp [Binary.text, h]⟩
    | positive h hs | negative h hs =>
      have heq : factor.magnitude = binary32.infinity := by simpa [Binary.isInfinite] using h
      have hnan : factor.isNaN = false := by simp [Binary.isNaN, heq]
      have hfinite : factor.isFinite = false := by simp [Binary.isFinite, heq]
      exact ⟨hfinite, by simp [Binary.text, hnan, h, hs]⟩
  · rintro ⟨hfinite, rfl⟩
    have hle : binary32.infinity ≤ factor.magnitude := by simpa [Binary.isFinite] using hfinite
    by_cases hnan : factor.isNaN = true
    · have htext : String.ofList factor.text = "NaN" := by simp [Binary.text, hnan]
      rw [htext]
      exact .nan hnan
    · have hge : factor.magnitude ≤ binary32.infinity := by simpa [Binary.isNaN] using hnan
      have hinf : factor.isInfinite = true := by simp [Binary.isInfinite, Nat.le_antisymm hge hle]
      cases hs : factor.negative with
      | false =>
        have htext : String.ofList factor.text = "inf" := by simp [Binary.text, hnan, hinf, hs]
        rw [htext]
        exact .positive hinf hs
      | true =>
        have htext : String.ofList factor.text = "-inf" := by simp [Binary.text, hnan, hinf, hs]
        rw [htext]
        exact .negative hinf hs

theorem record_notFinite {shown : String} (s : PixelSize) (h : NotFinite factor shown) :
    (Event.notFinite s factor).record =
      "WARN scaling size " ++ shownSize s ++ " by non finite factor " ++ shown := by
  obtain ⟨-, rfl⟩ := notFinite_iff.1 h
  rw [← ofList_text]
  rfl

/-- The records of one step, as they are shown. -/
def recordsOf (outcome : Outcome) : List String := outcome.log.map Event.record

theorem reports_step (size : Size) (s : Step) :
    Reports size s (step size s).size (recordsOf (step size s)) := by
  cases s with
  | set size' => exact .set size'
  | toSubpixels => exact .toSubpixels
  | toPixels => exact .toPixels
  | scale factor =>
    cases size with
    | subpixels s => exact .scaleSubpixels factor
    | pixels s =>
      cases hfinite : factor.isFinite with
      | true =>
        have hlog : recordsOf (step (.pixels s) (.scale factor)) = [] := by
          simp [recordsOf, step, Size.scalingEvents, PixelSize.scaleLogged, Event.ofScaling,
            hfinite]
        rw [hlog]
        exact .scalePixels hfinite
      | false =>
        have hlog : recordsOf (step (.pixels s) (.scale factor)) =
            [(Event.notFinite s factor).record] := by
          simp [recordsOf, step, Size.scalingEvents, PixelSize.scaleLogged, Event.ofScaling,
            hfinite]
        have hfactor := notFinite_iff.2 ⟨hfinite, rfl⟩
        rw [hlog, record_notFinite s hfactor]
        exact .warned hfactor
  | read text =>
    cases h : ofText text with
    | ok s =>
      have hstep : step size (.read text) = ⟨.pixels s, none, [.read s]⟩ := by
        simp [step, PixelSize.readText, Logged.reading, Event.ofReading, h]
      rw [hstep, recordsOf, List.map_singleton, record_read]
      exact .read h
    | error e =>
      have hstep : step size (.read text) = ⟨size, some e, []⟩ := by
        simp [step, PixelSize.readText, Logged.reading, Event.ofReading, h]
      rw [hstep]
      exact .failed h

/-- There is one way for a step to go. -/
theorem Reports.unique {after' : Size} {records' : List String} (h : Reports size s after records)
    (h' : Reports size s after' records') : after = after' ∧ records = records' := by
  cases h with
  | set | toSubpixels | toPixels | scaleSubpixels =>
    cases h'
    exact ⟨rfl, rfl⟩
  | scalePixels h =>
    cases h' with
    | scalePixels => exact ⟨rfl, rfl⟩
    | warned h' =>
      rw [(notFinite_iff.1 h').1] at h
      cases h
  | warned h =>
    cases h' with
    | scalePixels h' =>
      rw [(notFinite_iff.1 h).1] at h'
      cases h'
    | warned h' =>
      obtain ⟨-, rfl⟩ := notFinite_iff.1 h
      obtain ⟨-, rfl⟩ := notFinite_iff.1 h'
      exact ⟨rfl, rfl⟩
  | read h =>
    cases h' with
    | read h' =>
      rw [h] at h'
      cases h'
      exact ⟨rfl, rfl⟩
    | failed h' =>
      rw [h] at h'
      cases h'
  | failed h =>
    cases h' with
    | read h' =>
      rw [h] at h'
      cases h'
    | failed => exact ⟨rfl, rfl⟩

theorem reports_iff :
    Reports size s after records ↔
      (step size s).size = after ∧ recordsOf (step size s) = records := by
  constructor
  · intro h
    exact (reports_step size s).unique h
  · rintro ⟨rfl, rfl⟩
    exact reports_step size s

/-! ## Sessions -/

/-- The sizes after the steps of a session, one by one, and the records of the whole session. -/
inductive Passes : Size → List Step → List Size → List String → Prop where
  | nil {size : Size} : Passes size [] [] []
  | cons {size after : Size} {s : Step} {steps : List Step} {sizes : List Size}
      {records log : List String} (h : Reports size s after records)
      (hs : Passes after steps sizes log) :
      Passes size (s :: steps) (after :: sizes) (records ++ log)

/-- Induction on the steps. -/
theorem passes_iff {sizes : List Size} {log : List String} :
    Passes size steps sizes log ↔
      (run size steps).map Outcome.size = sizes ∧ (run size steps).flatMap recordsOf = log := by
  induction steps generalizing size sizes log with
  | nil =>
    constructor
    · intro h
      cases h
      exact ⟨rfl, rfl⟩
    · rintro ⟨rfl, rfl⟩
      exact .nil
  | cons s steps ih =>
    rw [run, List.map_cons, List.flatMap_cons]
    constructor
    · intro h
      cases h with
      | cons h hs =>
        obtain ⟨rfl, rfl⟩ := reports_iff.1 h
        obtain ⟨rfl, rfl⟩ := ih.1 hs
        exact ⟨rfl, rfl⟩
    · rintro ⟨rfl, rfl⟩
      exact .cons (reports_step size s) (ih.2 ⟨rfl, rfl⟩)

/-! ## Steps that fail -/

/-- Only reading fails, and it fails alike whatever the size is. -/
def fails : Step → Bool
  | .read text => !(ofText text).isOk
  | _ => false

theorem fails_eq_failure (s : Step) (size : Size) : fails s = (step size s).failure.isSome := by
  cases s with
  | set | toSubpixels | toPixels | scale => rfl
  | read text =>
    cases htext : ofText text <;>
      simp [fails, step, PixelSize.readText, Logged.reading, htext, Except.isOk, Except.toBool]

theorem step_of_fails (h : fails s = true) (size : Size) :
    (step size s).size = size ∧ (step size s).log = [] := by
  cases s with
  | set | toSubpixels | toPixels | scale => cases h
  | read text =>
    cases htext : ofText text with
    | ok s => simp [fails, htext, Except.isOk, Except.toBool] at h
    | error e => simp [step, PixelSize.readText, Logged.reading, Event.ofReading, htext]

/-- Induction on the steps: a step that fails hands on the size that it was given. -/
theorem zip_run_filter (size : Size) (steps : List Step) :
    (steps.filter (!fails ·)).zip (run size (steps.filter (!fails ·))) =
      (steps.zip (run size steps)).filter (!fails ·.1) := by
  induction steps generalizing size with
  | nil => rfl
  | cons s steps ih =>
    cases hs : fails s with
    | true =>
      have hsize := (step_of_fails hs size).1
      simp only [run, List.zip_cons_cons, List.filter_cons, hs, Bool.not_true, Bool.false_eq_true,
        if_false, hsize]
      exact ih size
    | false =>
      simp only [run, List.zip_cons_cons, List.filter_cons, hs, Bool.not_false, if_true,
        List.cons.injEq, true_and]
      exact ih _

/-- A session goes through the sizes, and leaves the records, that its steps give one after the
other.  A step that fails keeps the size and reports nothing, and leaving all of these steps out
changes neither the size after any other step nor its records. -/
theorem run_reports (size : Size) (steps : List Step) :
    (∀ sizes log, Passes size steps sizes log ↔
      (run size steps).map Outcome.size = sizes ∧ (run size steps).flatMap recordsOf = log) ∧
      (∀ s size, fails s = (step size s).failure.isSome) ∧
      (steps.filter (!fails ·)).zip (run size (steps.filter (!fails ·))) =
        (steps.zip (run size steps)).filter (!fails ·.1) :=
  ⟨fun _ _ => passes_iff, fails_eq_failure, zip_run_filter size steps⟩

end LayerSize.Session
