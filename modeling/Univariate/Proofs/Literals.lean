import Univariate.Proofs.Grammar
import Univariate.Source.Operand

/-!
# Numbers and the variable

A text without an operation is read as an operand exactly if the grammar has it as a literal. For a
literal the search for an operation finds nothing, because no keyword ends in it.
-/

namespace Univariate

/-- The leading digits of a text behind digits are those digits and its own. -/
theorem takeWhile_digits {v : List Char} (hv : v.all Char.isDigit = true) (w : List Char) :
    (v ++ w).takeWhile Char.isDigit = v ++ w.takeWhile Char.isDigit :=
  List.takeWhile_append_of_pos (List.all_eq_true.mp hv)

/-- Behind digits, what follows the leading digits of a text is the same. -/
theorem dropWhile_digits {v : List Char} (hv : v.all Char.isDigit = true) (w : List Char) :
    (v ++ w).dropWhile Char.isDigit = w.dropWhile Char.isDigit :=
  List.dropWhile_append_of_pos (List.all_eq_true.mp hv)

/-- Digits are split into a whole part alone. -/
theorem splitDigits_digits {w : List Char} (hw : w.all Char.isDigit = true) :
    Decimal.splitDigits w = (w, [], []) := by
  have htake := takeWhile_digits hw []
  have hdrop := dropWhile_digits hw []
  rw [List.append_nil] at htake hdrop
  simp [Decimal.splitDigits, htake, hdrop]

/-- Digits on both sides of a point are split into a whole part and a fraction. -/
theorem splitDigits_point {v w : List Char} (hv : v.all Char.isDigit = true)
    (hw : w.all Char.isDigit = true) : Decimal.splitDigits (v ++ '.' :: w) = (v, w, []) := by
  have hpoint : Char.isDigit '.' = false := rfl
  have htake := takeWhile_digits hw []
  have hdrop := dropWhile_digits hw []
  rw [List.append_nil] at htake hdrop
  simp [Decimal.splitDigits, takeWhile_digits hv, dropWhile_digits hv, hpoint, htake, hdrop]

/-- The leading digits of a text are digits. -/
theorem all_takeWhile_isDigit (cs : List Char) :
    (cs.takeWhile Char.isDigit).all Char.isDigit = true := by
  induction cs with
  | nil => rfl
  | cons c cs ih =>
    rw [List.takeWhile_cons]
    split
    · next hc => rw [List.all_cons, hc, ih, Bool.true_and]
    · rfl

/-- A text that is divided into digits before and after a point with nothing left over. -/
theorem eq_of_splitDigits {cs v w : List Char} (h : Decimal.splitDigits cs = (v, w, [])) :
    v.all Char.isDigit = true ∧ w.all Char.isDigit = true ∧
      (cs = v ∧ w = [] ∨ cs = v ++ '.' :: w) := by
  have hcs := List.takeWhile_append_dropWhile (p := Char.isDigit) (l := cs)
  have hv := all_takeWhile_isDigit cs
  unfold Decimal.splitDigits at h
  dsimp only at h
  split at h
  · next rest hdrop =>
    obtain ⟨rfl, hparts⟩ := Prod.mk.inj h
    obtain ⟨rfl, hnil⟩ := Prod.mk.inj hparts
    have hrest := List.takeWhile_append_dropWhile (p := Char.isDigit) (l := rest)
    rw [hnil, List.append_nil] at hrest
    refine ⟨hv, all_takeWhile_isDigit rest, .inr ?_⟩
    rw [hrest, ← hdrop, hcs]
  · obtain ⟨rfl, hparts⟩ := Prod.mk.inj h
    obtain ⟨rfl, hnil⟩ := Prod.mk.inj hparts
    rw [hnil, List.append_nil] at hcs
    exact ⟨hv, rfl, .inl ⟨hcs.symm, rfl⟩⟩

/-- A text is a decimal if it holds digits with at most one point and at least one digit. -/
theorem Decimal.ofText?_eq_some_iff {cs : List Char} {d : Decimal} :
    Decimal.ofText? cs = some d ↔
      (cs.all Char.isDigit = true ∧ cs ≠ [] ∧ d = .ofParts cs []) ∨
      ∃ v w, cs = v ++ '.' :: w ∧ v.all Char.isDigit = true ∧ w.all Char.isDigit = true ∧
        v ++ w ≠ [] ∧ d = .ofParts v w := by
  constructor
  · intro h
    unfold Decimal.ofText? at h
    obtain ⟨v, w, rest, hsplit⟩ : ∃ v w rest, Decimal.splitDigits cs = (v, w, rest) :=
      ⟨_, _, _, rfl⟩
    rw [hsplit] at h
    dsimp only at h
    split at h
    · next hparts =>
      cases h
      rw [Bool.and_eq_true, List.isEmpty_iff] at hparts
      obtain ⟨rfl, hne⟩ := hparts
      have hne : v ++ w ≠ [] := by
        intro happend
        obtain ⟨rfl, rfl⟩ := List.append_eq_nil_iff.mp happend
        cases hne
      obtain ⟨hv, hw, ⟨rfl, rfl⟩ | hpoint⟩ := eq_of_splitDigits hsplit
      · exact .inl ⟨hv, by simpa using hne, rfl⟩
      · exact .inr ⟨v, w, hpoint, hv, hw, hne, rfl⟩
    · cases h
  · rintro (⟨hcs, hne, rfl⟩ | ⟨v, w, rfl, hv, hw, hne, rfl⟩)
    · rw [Decimal.ofText?, splitDigits_digits hcs]
      simp [hne]
    · rw [Decimal.ofText?, splitDigits_point hv hw]
      simp only [ne_eq, List.append_eq_nil_iff] at hne
      simp [hne]

variable {α : Type} [Scalar α] [HasNumerals α] {letter : Char}

/-- The unsigned numerals are the literals of the grammar other than the variable. -/
theorem Literal.of_numeralOf? {w : List Char} {n : Numeral} (h : numeralOf? w = some n) :
    Literal letter w (.ofNumber (HasNumerals.ofNumeral (α := α) n)) := by
  unfold numeralOf? at h
  split at h
  · next d hd =>
    cases h
    obtain ⟨hw, hne, rfl⟩ | ⟨v, w, rfl, hv, hw, hne, rfl⟩ := Decimal.ofText?_eq_some_iff.mp hd
    · exact .digits hw hne
    · exact .point hv hw hne
  · split at h
    · next hw =>
      cases h
      rw [hw]
      exact .infinity
    · split at h
      · next hw =>
        cases h
        rw [hw]
        exact .undefined
      · cases h

/-- A literal is the variable or an unsigned numeral. -/
theorem literal_iff {w : List Char} {t : Expr α} :
    Literal letter w t ↔ (w = [letter] ∧ t = .var false) ∨
      ∃ n, numeralOf? w = some n ∧ t = .ofNumber (HasNumerals.ofNumeral n) := by
  constructor
  · intro h
    cases h with
    | digits hw hne =>
      have hd := Decimal.ofText?_eq_some_iff.mpr (.inl ⟨hw, hne, rfl⟩)
      exact .inr ⟨_, by rw [numeralOf?, hd], rfl⟩
    | point hv hw hne =>
      have hd := Decimal.ofText?_eq_some_iff.mpr (.inr ⟨_, _, rfl, hv, hw, hne, rfl⟩)
      exact .inr ⟨_, by rw [numeralOf?, hd], rfl⟩
    | infinity => exact .inr ⟨.infinite false, by decide, rfl⟩
    | undefined => exact .inr ⟨.undefined, by decide, rfl⟩
    | var => exact .inl ⟨rfl, rfl⟩
  · rintro (⟨rfl, rfl⟩ | ⟨n, hn, rfl⟩)
    · exact .var
    · exact .of_numeralOf? hn

/-- No letter is a numeral. -/
theorem numeralOf?_letter (hletter : isLetter letter = true) : numeralOf? [letter] = none := by
  have hdecimal : Decimal.ofText? [letter] = none := by
    refine Option.eq_none_iff_forall_ne_some.mpr fun d hd => ?_
    obtain ⟨hdigit, -⟩ | ⟨v, w, hsplit, hv, hw, hne, -⟩ := Decimal.ofText?_eq_some_iff.mp hd
    · have hdigit : letter.isDigit = true := by simpa using hdigit
      exact not_isDigit_of_isLetter hletter hdigit
    · have hmem : '.' ∈ [letter] := by rw [hsplit]; simp
      exact ne_of_isLetter hletter (by decide) (List.mem_singleton.mp hmem).symm
  simp [numeralOf?, hdecimal]

/-- A text without an operation is read as an operand exactly if it is a literal. -/
theorem readOperand_eq_ok_iff (hletter : isLetter letter = true) {first : NestedGlyph}
    {rest : List NestedGlyph} {t : Expr α} :
    readOperand letter first rest = .ok t ↔
      Literal letter ((first :: rest).map fun g => g.char) t := by
  have hvar : (rest.isEmpty && first.char = letter) = true ↔
      (first :: rest).map (fun g => g.char) = [letter] := by
    simp [and_comm]
  rw [readOperand, literal_iff]
  generalize (first :: rest).map (fun g => g.char) = w at hvar ⊢
  split
  · next hfirst =>
    rw [hvar.mp hfirst]
    simp [numeralOf?_letter hletter, eq_comm]
  · next hfirst =>
    rw [hvar] at hfirst
    cases hn : numeralOf? w with
    | none => simp [hfirst]
    | some n =>
      constructor
      · intro h
        exact .inr ⟨n, rfl, (Except.ok.inj h).symm⟩
      · rintro (⟨hw, -⟩ | ⟨m, hm, rfl⟩)
        · exact absurd hw hfirst
        · rw [Option.some.inj hm]

/-- The keywords that end in a text without brackets and operators, which follows the characters
`before`, given last character first. -/
def keywordsAfter (before : List Char) : List Char → List Split
  | [] => []
  | c :: cs => splitsEnding (c :: before) ++ keywordsAfter (c :: before) cs

/-- The operations of a plain text are the keywords that end in it. -/
theorem topOperations_plain {gs : List Glyph} (hgs : ∀ g ∈ gs, IsPlain g.char)
    (before : List Char) :
    topOperations before gs = keywordsAfter before (gs.map Glyph.char) := by
  induction gs generalizing before with
  | nil => rfl
  | cons g gs ih =>
    obtain ⟨hg, hgs⟩ := List.forall_mem_cons.mp hgs
    rw [topOperations_cons hg.not_opening hg.not_closing, ih hgs]
    rfl

/-- A keyword on its own is the only keyword that ends in it. -/
theorem keywordsAfter_symbol {op : Operation} (hop : op.isKeyword = true) :
    keywordsAfter [] op.symbol = [⟨op, 0⟩] := by
  rcases op with op | op
  · cases op <;> decide
  · cases op with
    | logarithm | root => decide
    | _ => cases hop

/-- No symbol is empty. -/
theorem symbol_ne_nil (op : Operation) : op.symbol ≠ [] := by
  rcases op with op | op <;> cases op <;> simp [Operation.symbol, UnaryOp.symbol, BinaryOp.symbol]

/-- A text that ends with the symbol of an operation ends with a character of it. -/
theorem mem_symbol_of_reverse_append {op : Operation} {c : Char} {rest before : List Char}
    (h : op.symbol.reverse ++ rest = c :: before) : c ∈ op.symbol := by
  obtain ⟨d, ds, hds⟩ :=
    List.exists_cons_of_ne_nil (mt List.reverse_eq_nil_iff.mp (symbol_ne_nil op))
  rw [hds, List.cons_append] at h
  rw [← (List.cons.inj h).1, ← List.mem_reverse, hds]
  exact List.mem_cons_self

/-- Keywords end with letters. -/
theorem splitsEnding_of_not_letter {c : Char} (hc : IsPlain c) (hletter : isLetter c = false)
    (before : List Char) : splitsEnding (c :: before) = [] := by
  rw [splitsEnding, operationEnding?_keyword hc.not_operator]
  cases hop : keywordEnding? (c :: before) with
  | none => rfl
  | some op =>
    obtain ⟨hkeyword, rest, hrest⟩ := exists_of_keywordEnding? hop
    rw [isLetter_of_mem_symbol hkeyword c (mem_symbol_of_reverse_append hrest)] at hletter
    cases hletter

/-- No keyword ends in a plain text without letters. -/
theorem keywordsAfter_of_not_letters {w : List Char}
    (hw : ∀ c ∈ w, IsPlain c ∧ isLetter c = false) (before : List Char) :
    keywordsAfter before w = [] := by
  induction w generalizing before with
  | nil => rfl
  | cons c w ih =>
    obtain ⟨⟨hplain, hc⟩, hw⟩ := List.forall_mem_cons.mp hw
    rw [keywordsAfter, splitsEnding_of_not_letter hplain hc, ih hw]
    rfl

/-- No keyword has a single letter. -/
theorem keywordsAfter_letter {c : Char} (hc : isLetter c = true) : keywordsAfter [] [c] = [] := by
  rw [keywordsAfter, splitsEnding, operationEnding?_keyword (isPlain_of_isLetter hc).not_operator]
  cases hop : keywordEnding? [c] with
  | none => rfl
  | some op =>
    obtain ⟨hkeyword, rest, hrest⟩ := exists_of_keywordEnding? hop
    have hlength := congrArg List.length hrest
    rcases op with op | op
    · cases op <;> simp [Operation.symbol, UnaryOp.symbol] at hlength
    · cases op with
      | logarithm | root => simp [Operation.symbol, BinaryOp.symbol] at hlength
      | _ => cases hkeyword

/-- No digit is a letter. -/
theorem isLetter_of_isDigit {c : Char} (hc : c.isDigit = true) : isLetter c = false :=
  Bool.eq_false_iff.mpr fun hletter => not_isDigit_of_isLetter hletter hc

/-- There is no operation in a literal. -/
theorem Literal.topOperations_eq_nil (hletter : isLetter letter = true) {w : List Char}
    {t : Expr α} (h : Literal letter w t) {gs : List Glyph} (hgs : gs.map Glyph.char = w) :
    topOperations [] gs = [] := by
  have hplain : ∀ g ∈ gs, IsPlain g.char := isPlain_of_map_eq (h.isPlain hletter) hgs
  have hdigits {v : List Char} (hv : v.all Char.isDigit = true) :
      ∀ c ∈ v, IsPlain c ∧ isLetter c = false := fun c hc =>
    have hdigit := List.all_eq_true.mp hv c hc
    ⟨isPlain_of_isDigit hdigit, isLetter_of_isDigit hdigit⟩
  have hpoint : isLetter '.' = false :=
    Bool.eq_false_iff.mpr fun hc => ne_of_isLetter hc (by decide) rfl
  rw [topOperations_plain hplain, hgs]
  cases h with
  | digits hw hne => exact keywordsAfter_of_not_letters (hdigits hw) []
  | point hv hw hne =>
    refine keywordsAfter_of_not_letters ?_ []
    rw [List.forall_mem_append, List.forall_mem_cons]
    exact ⟨hdigits hv, ⟨isPlain_point, hpoint⟩, hdigits hw⟩
  | infinity | undefined => decide
  | var => exact keywordsAfter_letter hletter

end Univariate
