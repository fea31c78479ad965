import Mathlib
import Univariate.Double
import Univariate.Proofs.Reading
import Univariate.Session

/-!
# Runs of a session

What one line does to a session follows from the order of the actions that answer it: the last
function is set after everything that can fail. A line either makes the function that it reads the
last one or leaves the session as it was, and by induction on the lines a session is determined by
the last function that was read. Lines that ask for values or fail can then be left out of a run:
the other lines have the same answers without them.
-/

namespace Univariate

/-- A letter passes the check on the variable of a formula, which gives the same letter again. -/
theorem Letter.ofChar_char {c : Char} {letter : Letter} (h : Letter.ofChar c = .ok letter) :
    Letter.ofChar letter.char = .ok letter := by
  unfold Letter.ofChar Letter.ofChar? at h ⊢
  by_cases hc : isLetter c = true
  · rw [dif_pos hc] at h
    cases h
    simp [isLetter_toLower hc]
  · rw [dif_neg hc] at h
    cases h

namespace Session

variable {α : Type}

/-- Whether a line asks for values at a point: it starts with an equals sign, after any blanks. -/
def isQuery (line : List Char) : Bool := (dropBlanks line).head? = some '='

/-- An action that starts by reading something fails without a change if nothing can be read. -/
theorem run_read_bind {β γ : Type} (x : Except LineError β) (f : β → Action α γ) (s : Session α) :
    (liftM x >>= f : Action α γ).run.run s =
      match x with
      | .error e => (.error e, s)
      | .ok b => (f b).run.run s := by
  cases x <;> rfl

variable [Scalar α] [HasNumerals α] [LawfulScalar α] [DecidableEq α]

/-- The function that a line reads and its derivative, if the line is no query and can be read. -/
def entryOf? (s : Session α) (line : List Char) : Option (Entry α) :=
  if isQuery line then none
  else
    match Formula.parse line s.letter s.decimals with
    | .error _ => none
    | .ok formula => some ⟨formula, formula.derivative⟩

/-- A query is answered from the session, which stays as it was. -/
theorem step_of_isQuery (s : Session α) {line : List Char} (h : isQuery line = true) :
    ∃ point, dropBlanks line = '=' :: point ∧ s.step line = (s.evaluateAt point, s) := by
  obtain ⟨point, hpoint⟩ : ∃ point, dropBlanks line = '=' :: point :=
    List.head?_eq_some_iff.mp (of_decide_eq_true h)
  refine ⟨point, hpoint, ?_⟩
  rw [step, process, hpoint]
  rfl

/-- Any other line is read as a function, and the session changes only if it can be read. -/
theorem step_of_not_isQuery (s : Session α) {line : List Char} (h : isQuery line = false) :
    s.step line =
      match Formula.parse line s.letter s.decimals with
      | .error e => (.error (.parse e), s)
      | .ok formula =>
        (.ok (answerLines [s.letter.char] formula.text formula.derivative.text),
          { s with current := some ⟨formula, formula.derivative⟩ }) := by
  have hdefine : (process line : Action α (List String)) = define line := by
    unfold process
    split
    · next point hpoint => simp [isQuery, hpoint] at h
    · rfl
  have hread := run_read_bind
    ((Formula.parse line s.letter s.decimals : Except ParseError (Formula α)).mapError .parse)
    (fun formula => do
      set ({ s with current := some ⟨formula, formula.derivative⟩ } : Session α)
      return answerLines [s.letter.char] formula.text formula.derivative.text) s
  rw [step, hdefine]
  refine Eq.trans hread ?_
  cases (Formula.parse line s.letter s.decimals : Except ParseError (Formula α)) <;> rfl

/-- A line changes nothing but the last function, and that only if it reads one. -/
theorem session_step (s : Session α) (line : List Char) :
    (s.step line).2 = { s with current := (s.entryOf? line).or s.current } := by
  unfold entryOf?
  cases hquery : isQuery line with
  | true =>
    obtain ⟨point, -, hstep⟩ := s.step_of_isQuery hquery
    rw [hstep]
    rfl
  | false =>
    rw [s.step_of_not_isQuery hquery]
    cases (Formula.parse line s.letter s.decimals : Except ParseError (Formula α)) <;> rfl

/-- A line that asks for values or fails. -/
def IsIdle (s : Session α) (line : List Char) : Prop :=
  isQuery line = true ∨ ∃ e, (s.step line).1 = .error e

/-- A line that asks for values or fails leaves the session as it was. -/
theorem IsIdle.session_step {s : Session α} {line : List Char} (h : s.IsIdle line) :
    (s.step line).2 = s := by
  cases hquery : isQuery line with
  | true =>
    obtain ⟨point, -, hstep⟩ := s.step_of_isQuery hquery
    rw [hstep]
  | false =>
    obtain ⟨e, he⟩ := h.resolve_left (by rw [hquery]; exact Bool.false_ne_true)
    have hstep := s.step_of_not_isQuery hquery
    rw [hstep] at he ⊢
    cases hparse : (Formula.parse line s.letter s.decimals : Except ParseError (Formula α)) with
    | error _ => rfl
    | ok formula =>
      rw [hparse] at he
      cases he

/-- The session after a sequence of lines. -/
def after (s : Session α) (lines : List (List Char)) : Session α :=
  lines.foldl (fun s line => (s.step line).2) s

/-- The answers to a sequence of lines. -/
def answers (s : Session α) : List (List Char) → List (Except LineError (List String))
  | [] => []
  | line :: rest => (s.step line).1 :: (s.step line).2.answers rest

/-- After a sequence of lines, the last function is the last one that was read. -/
theorem after_eq (s : Session α) (lines : List (List Char)) :
    s.after lines =
      { s with current := ((lines.filterMap s.entryOf?).getLast?).or s.current } := by
  induction lines generalizing s with
  | nil => rfl
  | cons line rest ih =>
    have hafter : s.after (line :: rest) = (s.step line).2.after rest := rfl
    -- Whether a line can be read does not depend on the functions that were read before.
    have hentry : (s.step line).2.entryOf? = s.entryOf? := by
      rw [session_step]
      rfl
    rw [hafter, ih, hentry, session_step, List.filterMap_cons]
    cases s.entryOf? line with
    | none => rfl
    | some entry =>
      rw [Option.some_or, List.getLast?_cons]
      cases (rest.filterMap s.entryOf?).getLast? <;> rfl

/-- The members of a list that are marked to be kept. -/
def kept {β : Type} (marked : List (β × Bool)) : List β := (marked.filter Prod.snd).map Prod.fst

/-- Every line that is not marked to be kept asks for values or fails where it stands. -/
def OmitsIdle (s : Session α) : List (List Char × Bool) → Prop
  | [] => True
  | (line, keep) :: rest => (keep = false → s.IsIdle line) ∧ (s.step line).2.OmitsIdle rest

/-- The lines that are kept have the same answers without the others. -/
theorem answers_kept {s : Session α} {marked : List (List Char × Bool)} (h : s.OmitsIdle marked) :
    s.answers (kept marked) =
      kept ((s.answers (marked.map Prod.fst)).zip (marked.map Prod.snd)) := by
  induction marked generalizing s with
  | nil => rfl
  | cons mark rest ih =>
    obtain ⟨line, keep⟩ := mark
    obtain ⟨hidle, hrest⟩ := h
    cases keep with
    | true => exact congrArg ((s.step line).1 :: ·) (ih hrest)
    | false =>
      have hsame := (hidle rfl).session_step
      have hrun := ih hrest
      rw [hsame] at hrun
      rw [List.map_cons, answers, hsame]
      exact hrun

/-- A session that was opened holds the last function that was read and its derivative, and no other
trace of the lines before. Queries and failing lines leave it as it was, so that leaving some of
them out changes no other answer, and its letter passes the check on the variable of a formula. -/
theorem answers_depend_on_last_function {c : Char} {n : Int} {s : Session α}
    (h : start c n = .ok s) :
    (∀ lines, s.after lines = { s with current := (lines.filterMap s.entryOf?).getLast? }) ∧
      (∀ lines line, (s.after lines).IsIdle line →
        ((s.after lines).step line).2 = s.after lines) ∧
      (∀ marked, s.OmitsIdle marked → s.answers (kept marked) =
        kept ((s.answers (marked.map Prod.fst)).zip (marked.map Prod.snd))) ∧
      ∀ lines, Letter.ofChar (s.after lines).letter.char = .ok (s.after lines).letter := by
  obtain ⟨letter, hletter, hrest⟩ := bind_eq_ok_iff.mp h
  obtain ⟨decimals, hdecimals, hsession⟩ := bind_eq_ok_iff.mp hrest
  cases hsession
  have hchecked : Letter.ofChar c = .ok letter := by
    cases hchar : Letter.ofChar c with
    | error e =>
      rw [hchar] at hletter
      cases hletter
    | ok letter' =>
      rw [hchar] at hletter
      cases hletter
      rfl
  refine ⟨fun lines => ?_, fun _ _ hidle => hidle.session_step, fun _ => answers_kept,
    fun lines => ?_⟩
  · rw [after_eq, Option.or_none]
  · rw [after_eq]
    exact Letter.ofChar_char hchecked

/-- In a session over `t`, the queries around the function `2 * t` can be left out. -/
theorem answers_depend_on_last_function_queries :
    let s : Session Float := ⟨⟨'t', isLetter_of_isAlpha rfl⟩, .digits 3, none⟩
    let marked := [(['=', '1'], false), (['2', '*', 'T'], true), ([' ', '=', 't'], false),
      (['=', '5'], true)]
    start 'T' 3 = .ok s ∧ s.OmitsIdle marked ∧
      s.after (marked.map Prod.fst) =
        { s with current := ((marked.map Prod.fst).filterMap s.entryOf?).getLast? } ∧
      s.answers (kept marked) =
        kept ((s.answers (marked.map Prod.fst)).zip (marked.map Prod.snd)) := by
  intro s marked
  have hstart : start 'T' 3 = .ok s := rfl
  have homits : s.OmitsIdle marked :=
    ⟨fun _ => .inl rfl, nofun, fun _ => .inl rfl, nofun, trivial⟩
  obtain ⟨hafter, -, hkept, -⟩ := answers_depend_on_last_function hstart
  exact ⟨hstart, homits, hafter _, hkept marked homits⟩

end Session

end Univariate
