import Mathlib
import Univariate.CommandLine
import Univariate.Proofs.Reformatting
import Univariate.Proofs.SessionRuns

/-!
# Runs of the command line

A run of the program is a run of its session over the lines of the input that are not blank, up to
the first line that is not UTF-8. A carriage return is a blank that is a character of its own in
UTF-8, so that it makes no difference whether one at the end of a line is part of the line. No
session is opened by arguments that cannot be used. They are reported, unless the program comes to
one that is not UTF-8: the first argument, or the second one behind a single character.
-/

namespace Univariate

/-- Of a line that is not blank, the blanks at the start end before a carriage return at the end. -/
theorem dropBlanks_return {cs : List Char} (h : cs.all isBlank = false) :
    dropBlanks (cs ++ ['\r']) = dropBlanks cs ++ ['\r'] := by
  refine List.dropWhile_append.trans (if_neg fun hempty => ?_)
  rw [List.isEmpty_iff, List.dropWhile_eq_nil_iff, ← List.all_eq_true, h] at hempty
  cases hempty

/-- A line is trimmed to the same text with a carriage return at its end. -/
theorem trimBlanks_return (cs : List Char) : trimBlanks (cs ++ ['\r']) = trimBlanks cs := by
  cases h : cs.all isBlank with
  | true =>
    have hdrop : dropBlanks cs = [] := List.dropWhile_eq_nil_iff.mpr (List.all_eq_true.mp h)
    have hdrop' : dropBlanks (cs ++ ['\r']) = [] := by
      refine List.dropWhile_eq_nil_iff.mpr (List.all_eq_true.mp ?_)
      rw [List.all_append, h]
      rfl
    rw [trimBlanks, trimBlanks, hdrop, hdrop']
  | false =>
    have hreturn (l : List Char) : dropBlanks ('\r' :: l) = dropBlanks l :=
      List.dropWhile_cons_of_pos (by decide)
    rw [trimBlanks, trimBlanks, dropBlanks_return h, List.reverse_append, List.reverse_singleton,
      List.singleton_append, hreturn]

/-- A line is read as the same text with a carriage return at its end. -/
theorem cleaned_return (cs : List Char) : cleaned (cs ++ ['\r']) = cleaned cs := by
  have hreturn : cleaned ['\r'] = [] := rfl
  rw [cleaned_append, hreturn, List.append_nil]

namespace Session

variable {α : Type} [Scalar α] [HasNumerals α] [LawfulScalar α] [DecidableEq α]

/-- What is said about a line that fails is the same with a carriage return at its end, and so are
the answer to a line that does not fail and the session after either. -/
theorem step_return (s : Session α) {line : List Char} (h : line.all isBlank = false) :
    ((s.step (line ++ ['\r'])).1.mapError LineError.message =
      (s.step line).1.mapError LineError.message) ∧
    (s.step (line ++ ['\r'])).2 = (s.step line).2 := by
  have hdrop := dropBlanks_return h
  have hnonempty : dropBlanks line ≠ [] := fun hempty => by
    rw [dropBlanks, List.dropWhile_eq_nil_iff, ← List.all_eq_true, h] at hempty
    cases hempty
  have hquery : isQuery (line ++ ['\r']) = isQuery line := by
    rw [isQuery, isQuery, hdrop, List.head?_append_of_ne_nil _ hnonempty]
  cases hline : isQuery line with
  | true =>
    obtain ⟨point, hpoint, hstep⟩ := s.step_of_isQuery hline
    obtain ⟨point', hpoint', hstep'⟩ := s.step_of_isQuery (hquery.trans hline)
    have hsame : point' = point ++ ['\r'] := by
      rw [hdrop, hpoint] at hpoint'
      exact (List.cons.inj hpoint').2.symm
    have hevaluate : s.evaluateAt point' = s.evaluateAt point := by
      rw [evaluateAt, evaluateAt, hsame, trimBlanks_return]
    rw [hstep, hstep', hevaluate]
    exact ⟨rfl, rfl⟩
  | false =>
    have hagree : Agree (line ++ ['\r']) line
        (parse s.letter.char (line ++ ['\r']) : Except ParseError (Expr α))
        (parse s.letter.char line) :=
      agree_parse (cleaned_return line)
    rw [s.step_of_not_isQuery hline, s.step_of_not_isQuery (hquery.trans hline), Formula.parse,
      Formula.parse]
    generalize (parse s.letter.char line : Except ParseError (Expr α)) = read at hagree ⊢
    generalize (parse s.letter.char (line ++ ['\r']) : Except ParseError (Expr α)) = read'
      at hagree ⊢
    cases hagree <;> exact ⟨rfl, rfl⟩

end Session

namespace CommandLine

/-- Characters are encoded by the bytes of each in order. -/
theorem utf8Encode_eq (cs : List Char) :
    cs.utf8Encode = ⟨(cs.flatMap String.utf8EncodeChar).toArray⟩ :=
  ByteArray.ext List.data_toByteArray

/-- The bytes of a text are those of its characters in order. -/
theorem toByteArray_eq (text : String) :
    text.toByteArray = ⟨(text.toList.flatMap String.utf8EncodeChar).toArray⟩ :=
  String.utf8Encode_toList.symm.trans (utf8Encode_eq text.toList)

/-- The text that bytes encode is the one whose characters are encoded by them in order. -/
theorem decode?_eq_some_iff {bytes : List UInt8} {text : String} :
    decode? bytes = some text ↔ bytes = text.toList.flatMap String.utf8EncodeChar := by
  unfold decode? String.fromUTF8?
  constructor
  · intro h
    split at h
    · cases h
      exact List.toArray_inj (congrArg ByteArray.data (toByteArray_eq (String.fromUTF8 _ _)))
    · cases h
  · rintro rfl
    rw [← toByteArray_eq, dif_pos text.isValidUTF8]
    rfl

/-- A text is decoded from its own bytes. -/
theorem decode?_toUTF8 (text : String) : decode? text.toUTF8.data.toList = some text := by
  rw [decode?_eq_some_iff]
  exact congrArg (·.data.toList) (toByteArray_eq text)

/-- A character is decoded from its own bytes. -/
theorem decode?_utf8EncodeChar (c : Char) :
    decode? (String.utf8EncodeChar c) = some (String.ofList [c]) := by
  rw [decode?_eq_some_iff, String.toList_ofList, List.flatMap_singleton]

/-- A text is a single character exactly if it is decoded from the bytes of that character. -/
theorem toList_eq_singleton_iff {bytes : List UInt8} {text : String} {c : Char}
    (h : decode? bytes = some text) : text.toList = [c] ↔ bytes = String.utf8EncodeChar c := by
  constructor
  · intro htext
    rw [decode?_eq_some_iff, htext, List.flatMap_singleton] at h
    exact h
  · intro hbytes
    rw [hbytes, decode?_utf8EncodeChar] at h
    rw [← Option.some.inj h, String.toList_ofList]

/-- Only a carriage return is encoded by bytes that end with one. -/
theorem eq_return_of_getLast? {c : Char} (h : (String.utf8EncodeChar c).getLast? = some 13) :
    c = '\r' := by
  have hbyte (n : ℕ) : UInt8.ofNat (n % 64 + 128) ≠ 13 := fun heq => by
    have hsame : (n % 64 + 128) % 256 = 13 := (UInt8.toNat_ofNat').symm.trans (congrArg _ heq)
    omega
  simp only [String.utf8EncodeChar] at h
  split at h
  · next hascii =>
    have hval : c.val.toNat = 13 := by
      have hbyte : UInt8.ofNat c.val.toNat = 13 := Option.some.inj h
      have hsame := congrArg UInt8.toNat hbyte
      rwa [UInt8.toNat_ofNat_of_lt' (hascii.trans_lt (by decide))] at hsame
    exact Char.ext (UInt32.toNat_inj.mp hval)
  · split at h
    · exact absurd (Option.some.inj h) (hbyte _)
    · split at h <;> exact absurd (Option.some.inj h) (hbyte _)

/-- A carriage return at the end of a line is a character of its own. -/
theorem decode?_return (bytes : List UInt8) :
    decode? (bytes ++ [13]) = (decode? bytes).map fun text => text.push '\r' := by
  have hreturn : String.utf8EncodeChar '\r' = [13] := rfl
  ext text
  rw [Option.map_eq_some_iff, decode?_eq_some_iff]
  constructor
  · intro h
    obtain hnil | ⟨cs, c, hcs⟩ := List.eq_nil_or_concat text.toList
    · rw [hnil] at h
      exact absurd h (by simp)
    · rw [List.concat_eq_append] at hcs
      have hend : bytes ++ [13] = cs.flatMap String.utf8EncodeChar ++ String.utf8EncodeChar c := by
        rw [h, hcs, List.flatMap_append, List.flatMap_singleton]
      have hlast : (String.utf8EncodeChar c).getLast? = some 13 := by
        have hlast := congrArg List.getLast? hend
        rw [List.getLast?_concat,
          List.getLast?_append_of_ne_nil _ String.utf8EncodeChar_ne_nil] at hlast
        exact hlast.symm
      cases eq_return_of_getLast? hlast
      refine ⟨String.ofList cs, ?_, ?_⟩
      · rw [decode?_eq_some_iff, String.toList_ofList]
        exact List.append_cancel_right hend
      · rw [← String.toList_inj, String.toList_push, String.toList_ofList, hcs]
  · rintro ⟨text, htext, rfl⟩
    rw [decode?_eq_some_iff] at htext
    rw [String.toList_push, List.flatMap_append, ← htext, List.flatMap_singleton, hreturn]

namespace Arguments

variable {arguments : Arguments} {bytes : List UInt8} {i : ℕ}

/-- An argument that was looked at is not UTF-8: the first one, or the second one behind a single
character. -/
inductive IsUndecodable : Arguments → Prop
  | first {bytes : List UInt8} {rest : List (List UInt8)} (h : decode? bytes = none) :
      IsUndecodable ⟨bytes :: rest⟩
  | second {c : Char} {bytes : List UInt8} {rest : List (List UInt8)} (h : decode? bytes = none) :
      IsUndecodable ⟨String.utf8EncodeChar c :: bytes :: rest⟩

/-- Texts given as arguments are read as they are. -/
theorem text?_ofTexts (texts : List String) (i : ℕ) : (ofTexts texts).text? i = .ok texts[i]? := by
  unfold text? ofTexts
  rw [List.getElem?_map]
  cases texts[i]? with
  | none => rfl
  | some text => simp only [Option.map_some, decode?_toUTF8]

/-- An argument is not read exactly if it is not UTF-8. -/
theorem text?_eq_error_iff {e : StartError} :
    arguments.text? i = .error e ↔
      ∃ bytes, arguments.bytes[i]? = some bytes ∧ decode? bytes = none ∧ e = .notText bytes := by
  unfold text?
  cases arguments.bytes[i]? with
  | none => simp
  | some bytes => cases hread : decode? bytes <;> simp [hread, eq_comm]

end Arguments

variable {arguments : Arguments} {bytes : List UInt8}

/-- No variable is read for want of a text exactly if the first argument is not UTF-8. -/
theorem variableOf_eq_notText_iff :
    variableOf arguments = .error (.notText bytes) ↔
      arguments.bytes[0]? = some bytes ∧ decode? bytes = none := by
  have hread : variableOf arguments = .error (.notText bytes) ↔
      arguments.text? 0 = .error (.notText bytes) := by
    rw [variableOf, bind_eq_error_iff, or_iff_left]
    rintro ⟨argument, -, h⟩
    cases argument with
    | none => cases h
    | some argument =>
      simp only at h
      split at h <;> cases h
  rw [hread, Arguments.text?_eq_error_iff]
  simp

/-- The variable that is read is `x`, or the first argument is its bytes. -/
theorem variableOf_eq_ok_iff {c : Char} :
    variableOf arguments = .ok c ↔
      arguments.bytes[0]? = none ∧ c = 'x' ∨
        arguments.bytes[0]? = some (String.utf8EncodeChar c) := by
  unfold variableOf Arguments.text?
  cases arguments.bytes[0]? with
  | none => simp [bind, Except.bind, pure, Except.pure, eq_comm]
  | some bytes =>
    cases hread : decode? bytes with
    | none =>
      have hne : bytes ≠ String.utf8EncodeChar c := fun hbytes => by
        rw [hbytes, decode?_utf8EncodeChar] at hread
        cases hread
      simp [hne, hread, bind, Except.bind]
    | some text =>
      have hsingle := toList_eq_singleton_iff (c := c) hread
      rcases hchars : text.toList with _ | ⟨d, _ | ⟨d', ds⟩⟩ <;> rw [hchars] at hsingle <;>
        simp [← hsingle, hread, hchars, bind, Except.bind, pure, Except.pure]

/-- No precision is read for want of a text exactly if the second argument is not UTF-8. -/
theorem decimalsOf_eq_notText_iff :
    decimalsOf arguments = .error (.notText bytes) ↔
      arguments.bytes[1]? = some bytes ∧ decode? bytes = none := by
  have hread : decimalsOf arguments = .error (.notText bytes) ↔
      arguments.text? 1 = .error (.notText bytes) := by
    rw [decimalsOf, bind_eq_error_iff, or_iff_left]
    rintro ⟨argument, -, h⟩
    cases argument with
    | none => cases h
    | some argument =>
      simp only at h
      cases hdigits : readInt argument.toList <;> rw [hdigits] at h <;> cases h
  rw [hread, Arguments.text?_eq_error_iff]
  simp

/-- The session is not opened for want of a text exactly if an argument that is looked at is not
UTF-8. -/
theorem sessionOf_eq_notText_iff (α : Type) (arguments : Arguments) :
    (∃ bytes, (sessionOf arguments : Except StartError (Session α)) = .error (.notText bytes)) ↔
      arguments.IsUndecodable := by
  have hread (bytes : List UInt8) :
      (sessionOf arguments : Except StartError (Session α)) = .error (.notText bytes) ↔
        variableOf arguments = .error (.notText bytes) ∨
          ∃ c, variableOf arguments = .ok c ∧ decimalsOf arguments = .error (.notText bytes) := by
    have hstart (c : Char) (n : ℤ) :
        (Session.start c n : Except ConfigError (Session α)).mapError
          (fun e => StartError.usage (.config e)) ≠ .error (.notText bytes) := by
      cases (Session.start c n : Except ConfigError (Session α)) <;> simp [Except.mapError]
    simp only [sessionOf, bind_eq_error_iff, hstart, and_false, exists_false, or_false]
  simp only [hread, variableOf_eq_notText_iff, variableOf_eq_ok_iff, decimalsOf_eq_notText_iff]
  constructor
  · rintro ⟨bytes, ⟨hfirst, hnone⟩ | ⟨c, hfirst, hsecond, hnone⟩⟩
    · obtain ⟨_ | ⟨first, rest⟩⟩ := arguments
      · cases hfirst
      · cases hfirst
        exact .first hnone
    · obtain ⟨_ | ⟨first, _ | ⟨second, rest⟩⟩⟩ := arguments
      · cases hsecond
      · cases hsecond
      · cases hsecond
        obtain ⟨hfirst, -⟩ | hfirst := hfirst
        · cases hfirst
        · cases hfirst
          exact .second hnone
  · rintro (⟨h⟩ | ⟨h⟩)
    · exact ⟨_, .inl ⟨rfl, h⟩⟩
    · exact ⟨_, .inr ⟨_, .inr rfl, rfl, h⟩⟩

/-- No argument that was looked at fails to be UTF-8 if the session is opened or the arguments are
reported. -/
theorem not_isUndecodable {α : Type} {result : Except StartError (Session α)}
    (h : sessionOf arguments = result) (hresult : ∀ bytes, result ≠ .error (.notText bytes)) :
    ¬arguments.IsUndecodable := by
  intro hundecodable
  obtain ⟨bytes, hbytes⟩ := (sessionOf_eq_notText_iff α arguments).mpr hundecodable
  exact hresult bytes (h.symm.trans hbytes)

/-- The parts of an input between its newlines. What follows the last newline is no part if it is
empty. -/
def partsOf (input : List UInt8) : List (List UInt8) :=
  let parts := input.splitOn 10
  if parts.getLast? = some [] then parts.dropLast else parts

/-- A line without a carriage return at its end. -/
def dropReturn (line : List UInt8) : List UInt8 :=
  if line.getLast? = some 13 then line.dropLast else line

/-- Two lines differ at most by a carriage return that the first has at its end. -/
def SameLine (line line' : List UInt8) : Prop := line = line' ∨ line = line' ++ [13]

/-- A line differs from itself without a carriage return at most by that. -/
theorem sameLine_dropReturn (line : List UInt8) : SameLine line (dropReturn line) := by
  unfold dropReturn
  split
  · next h => exact .inr (List.dropLast_append_getLast? 13 h).symm
  · exact .inl rfl

/-- Bytes without a newline are one part, unless there are none. -/
theorem partsOf_of_notMem {part : List UInt8} (hne : part ≠ []) (h : 10 ∉ part) :
    partsOf part = [part] := by
  rw [partsOf, List.splitOn_eq_singleton h]
  exact if_neg fun hempty => hne (Option.some.inj hempty)

/-- The first part of an input ends before the first newline. -/
theorem partsOf_newline {part : List UInt8} (h : 10 ∉ part) (rest : List UInt8) :
    partsOf (part ++ 10 :: rest) = part :: partsOf rest := by
  have hne := List.splitOn_ne_nil (10 : UInt8) rest
  rw [partsOf, partsOf, List.splitOn_append_cons_self_of_not_mem h]
  simp only [List.getLast?_cons_of_ne_nil hne, List.dropLast_cons_of_ne_nil hne]
  split <;> rfl

/-- The line before a newline has no carriage return at its end. -/
theorem linesAfter_newline (read rest : List UInt8) :
    linesAfter read (10 :: rest) = dropReturn read.reverse :: linesAfter [] rest := by
  unfold dropReturn
  rw [List.getLast?_reverse]
  cases read with
  | nil => rfl
  | cons b before =>
    rw [List.head?_cons]
    by_cases hb : b = 13
    · subst hb
      rw [if_pos rfl, List.reverse_cons, List.dropLast_concat]
      rfl
    · rw [if_neg fun h => hb (Option.some.inj h)]
      conv_lhs => unfold linesAfter
      simp [hb]

/-- Any byte but a newline belongs to the line that is being read. -/
theorem linesAfter_other {b : UInt8} (hb : b ≠ 10) (read rest : List UInt8) :
    linesAfter read (b :: rest) = linesAfter (b :: read) rest :=
  if_neg hb

/-- The lines of an input are its parts, up to carriage returns at their ends. -/
theorem linesOf_sameLine (input : List UInt8) :
    List.Forall₂ SameLine (linesOf input) ((partsOf input).map dropReturn) := by
  -- The bytes of the line that is being read are no newlines.
  have hafter (read rest : List UInt8) (hread : 10 ∉ read) :
      List.Forall₂ SameLine (linesAfter read rest)
        ((partsOf (read.reverse ++ rest)).map dropReturn) := by
    induction rest generalizing read with
    | nil =>
      rw [List.append_nil, linesAfter]
      cases read with
      | nil => exact .nil
      | cons b read =>
        rw [partsOf_of_notMem (by simp) (List.mem_reverse.not.mpr hread)]
        exact .cons (sameLine_dropReturn _) .nil
    | cons b rest ih =>
      by_cases hb : b = 10
      · subst hb
        rw [linesAfter_newline, partsOf_newline (by simpa using hread)]
        exact .cons (.inl rfl) (ih [] List.not_mem_nil)
      · have hstep := ih (b :: read) (by simpa [Ne.symm hb] using hread)
        rw [List.reverse_cons, List.append_assoc] at hstep
        rwa [linesAfter_other hb]
  exact hafter [] input List.not_mem_nil

/-- The lines on standard output for a sequence of answers. -/
def printedFor (answers : List (Except LineError (List String))) : List String :=
  answers.flatMap fun
    | .ok lines => lines
    | .error _ => []

/-- The reports for a sequence of answers: one for each line that failed. -/
def reportedFor (answers : List (Except LineError (List String))) : List String :=
  answers.filterMap fun
    | .ok _ => none
    | .error e => some e.message

/-- The texts of the lines that are answered: those before the first line that is not UTF-8, without
the blank ones. -/
def answeredTexts (lines : List (List UInt8)) : List (List Char) :=
  (((lines.map decode?).takeWhile Option.isSome).reduceOption.map String.toList).filter
    fun text => !text.all isBlank

/-- No line is answered after one that is not UTF-8. -/
theorem answeredTexts_of_none {line : List UInt8} (h : decode? line = none)
    (rest : List (List UInt8)) : answeredTexts (line :: rest) = [] := by
  simp [answeredTexts, h]

/-- A line is answered before those that follow it, unless it is blank. -/
theorem answeredTexts_of_some {line : List UInt8} {text : String} (h : decode? line = some text)
    (rest : List (List UInt8)) :
    answeredTexts (line :: rest) =
      if text.toList.all isBlank then answeredTexts rest
      else text.toList :: answeredTexts rest := by
  cases hblank : text.toList.all isBlank <;>
    simp [answeredTexts, h, hblank, List.reduceOption_cons_of_some]

section Answers

variable {α : Type} [Scalar α] [HasNumerals α] [LawfulScalar α] [DecidableEq α]

/-- A line that is not UTF-8 ends the run. -/
theorem answer_of_none (s : Session α) {line : List UInt8} (h : decode? line = none)
    (rest : List (List UInt8)) :
    answer s (line :: rest) = ⟨[], [], .failed ["stream did not contain valid UTF-8"]⟩ := by
  rw [answer, h]
  rfl

/-- A blank line is skipped, and any other is answered before the lines that follow. -/
theorem answer_of_some (s : Session α) {line : List UInt8} {text : String}
    (h : decode? line = some text) (rest : List (List UInt8)) :
    answer s (line :: rest) =
      if text.toList.all isBlank then answer s rest
      else (answer (s.step text.toList).2 rest).afterAnswer (s.step text.toList).1 := by
  rw [answer, h]

/-- The lines of an input are answered by the session, one after the other. -/
theorem answer_eq (s : Session α) (lines : List (List UInt8)) :
    answer s lines =
      { printed := printedFor (s.answers (answeredTexts lines))
        reports := reportedFor (s.answers (answeredTexts lines))
        ending :=
          if ∃ line ∈ lines, decode? line = none then
            .failed ["stream did not contain valid UTF-8"]
          else .finished } := by
  induction lines generalizing s with
  | nil => rfl
  | cons line rest ih =>
    cases hline : decode? line with
    | none =>
      rw [answer_of_none s hline, answeredTexts_of_none hline, if_pos ⟨line, by simp, hline⟩]
      rfl
    | some text =>
      have hrest : (∃ l ∈ line :: rest, decode? l = none) ↔ ∃ l ∈ rest, decode? l = none := by
        simp [hline]
      rw [answer_of_some s hline, answeredTexts_of_some hline]
      simp only [hrest]
      cases text.toList.all isBlank with
      | true => exact ih s
      | false =>
        rw [if_neg Bool.false_ne_true, if_neg Bool.false_ne_true, ih, Session.answers]
        cases (s.step text.toList).1 <;> rfl

/-- What is said about a line decides what it adds to a run. -/
theorem afterAnswer_congr {answer answer' : Except LineError (List String)}
    (h : answer.mapError LineError.message = answer'.mapError LineError.message) (o : Outcome) :
    o.afterAnswer answer = o.afterAnswer answer' := by
  match answer, answer', h with
  | .ok lines, .ok lines', h =>
    have hlines : lines = lines' := Except.ok.inj h
    rw [hlines]
  | .error e, .error e', h =>
    have hmessage : e.message = e'.message := Except.error.inj h
    rw [Outcome.afterAnswer, Outcome.afterAnswer, hmessage]

/-- Lines that differ by carriage returns at their ends are answered alike. -/
theorem answer_sameLine {lines lines' : List (List UInt8)}
    (h : List.Forall₂ SameLine lines lines') (s : Session α) :
    answer s lines = answer s lines' := by
  induction h generalizing s with
  | nil => rfl
  | @cons line line' rest rest' hline _ ih =>
    obtain rfl | rfl := hline
    · cases hread : decode? line with
      | none => rw [answer_of_none s hread, answer_of_none s hread]
      | some text => rw [answer_of_some s hread, answer_of_some s hread, ih, ih]
    · cases hread : decode? line' with
      | none =>
        have hread' : decode? (line' ++ [13]) = none := by rw [decode?_return, hread]; rfl
        rw [answer_of_none s hread, answer_of_none s hread']
      | some text =>
        have hread' : decode? (line' ++ [13]) = some (text.push '\r') := by
          rw [decode?_return, hread]; rfl
        have hblank : (text.toList ++ ['\r']).all isBlank = text.toList.all isBlank := by
          rw [List.all_append, Bool.and_eq_left_iff_imp]
          exact fun _ => rfl
        rw [answer_of_some s hread, answer_of_some s hread', String.toList_push, hblank]
        cases htext : text.toList.all isBlank with
        | true => exact ih s
        | false =>
          obtain ⟨hsaid, hnext⟩ := s.step_return htext
          rw [if_neg Bool.false_ne_true, if_neg Bool.false_ne_true, hnext, ih,
            afterAnswer_congr hsaid]

/-- A run breaks off at an argument that is not UTF-8, whatever the input is. -/
theorem run_of_notText {arguments : Arguments} {bytes : List UInt8}
    (h : (sessionOf arguments : Except StartError (Session α)) = .error (.notText bytes))
    (input : List UInt8) : run α arguments input = ⟨[], [], .aborted⟩ := by
  rw [run, h]
  rfl

/-- Arguments that cannot be used are reported, whatever the input is. -/
theorem run_of_usage {arguments : Arguments} {e : UsageError}
    (h : (sessionOf arguments : Except StartError (Session α)) = .error (.usage e))
    (input : List UInt8) :
    run α arguments input =
      ⟨[], [], .failed ["error: " ++ e.message, "usage: deriv [variable] [decimals]"]⟩ := by
  rw [run, h]
  rfl

/-- The session answers the parts of the input without the carriage returns at their ends. -/
theorem run_of_ok {arguments : Arguments} {s : Session α} (h : sessionOf arguments = .ok s)
    (input : List UInt8) :
    run α arguments input = answer s ((partsOf input).map dropReturn) := by
  rw [run, h]
  exact answer_sameLine (linesOf_sameLine input) s

end Answers

end CommandLine

end Univariate
