import Univariate.Proofs.Nesting
import Univariate.Source.Split

/-!
# Operations on the topmost level

The operation that is applied last is the rightmost of the loosest operations at depth zero. The
operations of a text are found part by part: those of a bracketed part do not count, and an operator
is told from a sign by the character before it.
-/

namespace Univariate

/-- The level of the operation of a split. -/
def Split.level (s : Split) : Nat := s.op.precedence.level

/-- No operation binds looser than a sum. -/
theorem Precedence.level_le_three (p : Precedence) : p.level ≤ 3 := by
  cases p <;> decide

/-- The operation of a split binds no looser than a sum. -/
theorem Split.level_le_three (s : Split) : s.level ≤ 3 := s.op.precedence.level_le_three

/-- Among some operations there is one that is applied last. -/
theorem loosest_eq_none_iff {ss : List Split} : loosest ss = none ↔ ss = [] := by
  cases ss with
  | nil => simp [loosest]
  | cons s later =>
    rw [loosest]
    cases loosest later with
    | none => simp
    | some best => dsimp only; split <;> simp

/-- The operation that is applied last stands in front of operations that bind tighter, and none
before it binds looser. -/
theorem exists_of_loosest {ss : List Split} {s : Split} (h : loosest ss = some s) :
    ∃ xs ys, ss = xs ++ s :: ys ∧ (∀ x ∈ xs, x.level ≤ s.level) ∧ ∀ y ∈ ys, y.level < s.level := by
  induction ss generalizing s with
  | nil => cases h
  | cons first later ih =>
    rw [loosest] at h
    split at h
    · next hnone =>
      cases h
      exact ⟨[], [], by rw [loosest_eq_none_iff.mp hnone]; rfl, by simp, by simp⟩
    · next best hbest =>
      obtain ⟨xs, ys, hlater, hxs, hys⟩ := ih hbest
      split at h
      · next hlooser =>
        cases h
        have hlevel : best.level < first.level := of_decide_eq_true hlooser
        refine ⟨[], later, rfl, by simp, ?_⟩
        rw [hlater]
        intro y hy
        rcases List.mem_append.mp hy with hy | hy
        · exact Nat.lt_of_le_of_lt (hxs y hy) hlevel
        · rcases List.mem_cons.mp hy with rfl | hy
          · exact hlevel
          · exact Nat.lt_trans (hys y hy) hlevel
      · next hlooser =>
        cases h
        have hlevel : first.level ≤ s.level := Nat.not_lt.mp fun hlt => hlooser (decide_eq_true hlt)
        refine ⟨first :: xs, ys, by rw [hlater]; rfl, ?_, hys⟩
        exact List.forall_mem_cons.mpr ⟨hlevel, hxs⟩

/-- An operation in front of operations that bind tighter, with none before it that binds looser,
is the last one of the loosest. -/
theorem loosest_append_cons {xs ys : List Split} {s : Split} (hxs : ∀ x ∈ xs, x.level ≤ s.level)
    (hys : ∀ y ∈ ys, y.level < s.level) : loosest (xs ++ s :: ys) = some s := by
  induction xs with
  | nil =>
    rw [List.nil_append, loosest]
    cases hbest : loosest ys with
    | none => rfl
    | some best =>
      obtain ⟨xs, zs, rfl, -, -⟩ := exists_of_loosest hbest
      have hmem : best ∈ xs ++ best :: zs := by simp
      have hlooser : s.op.precedence.looserThan best.op.precedence = true :=
        decide_eq_true (hys best hmem)
      simp [hlooser]
  | cons x xs ih =>
    obtain ⟨hx, hxs⟩ := List.forall_mem_cons.mp hxs
    have htighter : x.op.precedence.looserThan s.op.precedence = false :=
      decide_eq_false (Nat.not_lt.mpr hx)
    rw [List.cons_append, loosest, ih hxs]
    simp [htighter]

/-- The text of nested characters, last character first, after another text. -/
def readAfter (before : List Char) (ns : List NestedGlyph) : List Char :=
  (ns.map fun g => g.char).reverse ++ before

/-- Reading no characters adds nothing to the text before. -/
@[simp] theorem readAfter_nil (before : List Char) : readAfter before [] = before := rfl

/-- Reading a character puts it in front of the reversed text. -/
@[simp] theorem readAfter_cons (before : List Char) (g : NestedGlyph) (ns : List NestedGlyph) :
    readAfter before (g :: ns) = readAfter (g.char :: before) ns := by
  simp [readAfter]

/-- Each character that is read lengthens the text by one. -/
theorem length_readAfter (before : List Char) (ns : List NestedGlyph) :
    (readAfter before ns).length = ns.length + before.length := by
  simp [readAfter]

/-- The operations of two texts after each other are those of the first and those after it. -/
theorem operationsAfter_append (before : List Char) (ns ms : List NestedGlyph) :
    operationsAfter before (ns ++ ms) =
      operationsAfter before ns ++ operationsAfter (readAfter before ns) ms := by
  induction ns generalizing before with
  | nil => rfl
  | cons g ns ih =>
    rw [List.cons_append, operationsAfter, operationsAfter, ih, readAfter_cons]
    split
    · split <;> rfl
    · rfl

/-- The operations inside brackets do not count. -/
theorem operationsAfter_of_deep {ns : List NestedGlyph} (h : ∀ g ∈ ns, 1 ≤ g.depth)
    (before : List Char) : operationsAfter before ns = [] := by
  induction ns generalizing before with
  | nil => rfl
  | cons g ns ih =>
    obtain ⟨hg, hns⟩ := List.forall_mem_cons.mp h
    rw [operationsAfter, ih hns]
    exact if_neg (by omega)

/-- An operation on the topmost level divides the text at the last character of its symbol. -/
theorem exists_of_operationsAfter {before : List Char} {ns : List NestedGlyph} {xs ys : List Split}
    {s : Split} (h : operationsAfter before ns = xs ++ s :: ys) :
    ∃ ns₁ g ns₂, ns = ns₁ ++ g :: ns₂ ∧ g.depth = 0 ∧ operationsAfter before ns₁ = xs ∧
      operationsAfter (g.char :: readAfter before ns₁) ns₂ = ys ∧
      operationEnding? (g.char :: readAfter before ns₁) = some s.op ∧
      s.start = (readAfter before ns₁).length + 1 - s.op.symbol.length := by
  induction ns generalizing before xs with
  | nil => simp [operationsAfter] at h
  | cons g ns ih =>
    -- the search goes on after `g` unless `g` ends the operation
    have hlater {xs' : List Split} (hxs : operationsAfter before [g] ++ xs' = xs)
        (h : operationsAfter (g.char :: before) ns = xs' ++ s :: ys) :
        ∃ ns₁ g' ns₂, g :: ns = ns₁ ++ g' :: ns₂ ∧ g'.depth = 0 ∧
          operationsAfter before ns₁ = xs ∧
          operationsAfter (g'.char :: readAfter before ns₁) ns₂ = ys ∧
          operationEnding? (g'.char :: readAfter before ns₁) = some s.op ∧
          s.start = (readAfter before ns₁).length + 1 - s.op.symbol.length := by
      obtain ⟨ns₁, g', ns₂, hns, hdepth, hxs', hys, hop, hstart⟩ := ih h
      rw [← readAfter_cons] at hys hop hstart
      refine ⟨g :: ns₁, g', ns₂, by rw [hns]; rfl, hdepth, ?_, hys, hop, hstart⟩
      rw [← List.singleton_append, operationsAfter_append, readAfter_cons, readAfter_nil, hxs', hxs]
    by_cases hdepth : g.depth = 0
    · cases hop : operationEnding? (g.char :: before) with
      | none =>
        have hg : operationsAfter before [g] = [] := by simp [operationsAfter, hdepth, hop]
        simp only [operationsAfter, hdepth, if_true, hop] at h
        exact hlater (by rw [hg]; rfl) h
      | some op =>
        have hg : operationsAfter before [g] =
            [⟨op, (g.char :: before).length - op.symbol.length⟩] := by
          simp [operationsAfter, hdepth, hop]
        simp only [operationsAfter, hdepth, if_true, hop] at h
        cases xs with
        | nil =>
          obtain ⟨rfl, rfl⟩ := List.cons.inj h
          exact ⟨[], g, ns, rfl, hdepth, rfl, rfl, hop, rfl⟩
        | cons x xs =>
          obtain ⟨rfl, htail⟩ := List.cons.inj h
          exact hlater (by rw [hg]; rfl) htail
    · have hg : operationsAfter before [g] = [] := by simp [operationsAfter, hdepth]
      simp only [operationsAfter, hdepth, if_false] at h
      exact hlater (by rw [hg]; rfl) h

/-- Whether a text, given last character first, ends with an operator, so that a minus after it is a
sign. -/
def endsWithOperator (reversed : List Char) : Bool := reversed.head?.any isOperatorSymbol

/-- The symbol of an operator is the character that it is read from. -/
theorem symbol_of_ofOperator? {c : Char} {op : BinaryOp} (h : BinaryOp.ofOperator? c = some op) :
    op.symbol = [c] :=
  (Operation.ofOperator?_eq_some_iff.mp h).2

/-- An operator has a symbol of one character, and is read from it. -/
theorem ofOperator?_symbol {op : BinaryOp} (hop : op.isOperator = true) :
    ∃ c, op.symbol = [c] ∧ BinaryOp.ofOperator? c = some op := by
  cases op with
  | logarithm | root => cases hop
  | _ => exact ⟨_, rfl, rfl⟩

/-- An operator is an operation unless it is a minus after another operator. -/
theorem operationEnding?_operator {c : Char} {op : BinaryOp}
    (hc : BinaryOp.ofOperator? c = some op) {before : List Char}
    (h : c = '-' → endsWithOperator before = false) :
    operationEnding? (c :: before) = some (.binary op) := by
  rw [operationEnding?, hc]
  by_cases hminus : c = '-'
  · have hbefore : before.head?.any isOperatorSymbol = false := h hminus
    simp [hbefore]
  · simp [hminus]

/-- A minus after an operator is a sign. -/
theorem operationEnding?_sign {before : List Char} (h : endsWithOperator before = true) :
    operationEnding? ('-' :: before) = none := by
  have hbefore : before.head?.any isOperatorSymbol = true := h
  rw [operationEnding?]
  simp [BinaryOp.ofOperator?, hbefore]

/-- After a character that is no operator, only a keyword can end. -/
theorem operationEnding?_keyword {c : Char} (hc : isOperatorSymbol c = false) (before : List Char) :
    operationEnding? (c :: before) = keywordEnding? (c :: before) := by
  have hnone : BinaryOp.ofOperator? c = none := by
    simpa [isOperatorSymbol] using hc
  rw [operationEnding?, hnone]

/-- The keyword that ends a text is a suffix of it. -/
theorem exists_of_keywordEnding? {reversed : List Char} {op : Operation}
    (h : keywordEnding? reversed = some op) :
    op.isKeyword = true ∧ ∃ rest, op.symbol.reverse ++ rest = reversed := by
  have hop := List.find?_some h
  rw [Bool.and_eq_true, List.isPrefixOf_iff_prefix] at hop
  exact hop

/-- What ends a text without being an operator binds tightest. -/
theorem precedence_of_keywordEnding? {reversed : List Char} {op : Operation}
    (h : keywordEnding? reversed = some op) : op.precedence = .function := by
  obtain ⟨hkeyword, -⟩ := exists_of_keywordEnding? h
  rcases op with op | op
  · rfl
  · cases op with
    | logarithm | root => rfl
    | _ => cases hkeyword

/-- The operations at depth zero in a text, from left to right, after the characters `before`, which
are given last character first. -/
def topOperations (before : List Char) (gs : List Glyph) : List Split :=
  operationsAfter before (nestAt 0 gs)

/-- There are no operations in the empty text. -/
@[simp] theorem topOperations_nil (before : List Char) : topOperations before [] = [] := rfl

/-- The operations after a balanced text are those of the rest, told apart by what stands before. -/
theorem topOperations_append {gs : List Glyph} (hgs : Balanced (gs.map Glyph.char))
    (before : List Char) (hs : List Glyph) :
    topOperations before (gs ++ hs) = topOperations before gs ++
      topOperations ((gs.map Glyph.char).reverse ++ before) hs := by
  rw [topOperations, hgs.nestAt_append, operationsAfter_append, readAfter, char_nestAt]
  rfl

/-- The operation whose symbol ends a text, which is given last character first, if there is one. -/
def splitsEnding (reversed : List Char) : List Split :=
  ((operationEnding? reversed).map fun op => ⟨op, reversed.length - op.symbol.length⟩).toList

/-- A character that is no bracket is looked at together with those before it. -/
theorem topOperations_cons {g : Glyph} (hopen : g.char ≠ '(') (hclose : g.char ≠ ')')
    (before : List Char) (gs : List Glyph) :
    topOperations before (g :: gs) =
      splitsEnding (g.char :: before) ++ topOperations (g.char :: before) gs := by
  rw [topOperations, nestAt_other hopen hclose, operationsAfter, splitsEnding]
  simp only [if_true]
  cases operationEnding? (g.char :: before) with
  | none => rfl
  | some op => rfl

/-- No operator is a bracket. -/
theorem not_bracket_of_ofOperator? {c : Char} {op : BinaryOp}
    (h : BinaryOp.ofOperator? c = some op) : c ≠ '(' ∧ c ≠ ')' := by
  constructor <;> rintro rfl <;> cases h

/-- An operator is an operation, unless it is a minus behind an operator. -/
theorem topOperations_operator {g : Glyph} {op : BinaryOp}
    (hg : BinaryOp.ofOperator? g.char = some op) {before : List Char}
    (h : g.char = '-' → endsWithOperator before = false) (gs : List Glyph) :
    topOperations before (g :: gs) =
      ⟨.binary op, before.length⟩ :: topOperations (g.char :: before) gs := by
  obtain ⟨hopen, hclose⟩ := not_bracket_of_ofOperator? hg
  have hlength : (Operation.binary op).symbol.length = 1 := by
    rw [Operation.symbol, symbol_of_ofOperator? hg]
    rfl
  rw [topOperations_cons hopen hclose, splitsEnding, operationEnding?_operator hg h]
  simp [hlength]

/-- A minus behind an operator is no operation but a sign. -/
theorem topOperations_sign {g : Glyph} (hg : g.char = '-') {before : List Char}
    (h : endsWithOperator before = true) (gs : List Glyph) :
    topOperations before (g :: gs) = topOperations ('-' :: before) gs := by
  rw [topOperations_cons (by rw [hg]; decide) (by rw [hg]; decide), hg, splitsEnding,
    operationEnding?_sign h]
  rfl

/-- A bracketed text has no operations on its topmost level. -/
theorem topOperations_brackets {first last : Glyph} {gs : List Glyph} (hfirst : first.char = '(')
    (hlast : last.char = ')') (hgs : Balanced (gs.map Glyph.char)) (before : List Char) :
    topOperations before (first :: gs ++ [last]) = [] :=
  operationsAfter_of_deep (lt_depth_of_brackets hfirst hlast hgs 0) before

/-- A character that is no operator, bracket or separator. -/
structure IsPlain (c : Char) : Prop where
  not_operator : isOperatorSymbol c = false
  not_opening : c ≠ '('
  not_closing : c ≠ ')'
  not_separator : c ≠ ';'

/-- A text of plain characters is balanced. -/
theorem Balanced.of_plain {w : List Char} (hw : ∀ c ∈ w, IsPlain c) : Balanced w :=
  of_forall fun c hc => ⟨(hw c hc).not_opening, (hw c hc).not_closing⟩

/-- Characters that write a plain text are plain. -/
theorem isPlain_of_map_eq {gs : List Glyph} {w : List Char} (hw : ∀ c ∈ w, IsPlain c)
    (hgs : gs.map Glyph.char = w) : ∀ g ∈ gs, IsPlain g.char :=
  fun g hg => hw g.char (hgs ▸ List.mem_map_of_mem hg)

/-- All operations of a plain text are keywords. -/
theorem level_eq_zero_of_plain {gs : List Glyph} (hgs : ∀ g ∈ gs, IsPlain g.char)
    (before : List Char) : ∀ s ∈ topOperations before gs, s.level = 0 := by
  induction gs generalizing before with
  | nil => simp
  | cons g gs ih =>
    obtain ⟨⟨hoperator, hopen, hclose, -⟩, hgs⟩ := List.forall_mem_cons.mp hgs
    rw [topOperations_cons hopen hclose, splitsEnding, operationEnding?_keyword hoperator]
    intro s hs
    rcases List.mem_append.mp hs with hs | hs
    · cases hop : keywordEnding? (g.char :: before) with
      | none => simp [hop] at hs
      | some op =>
        have heq : s = ⟨op, (g.char :: before).length - op.symbol.length⟩ := by
          simpa [hop] using hs
        rw [heq, Split.level, precedence_of_keywordEnding? hop]
        rfl
    · exact ih hgs _ s hs

end Univariate
