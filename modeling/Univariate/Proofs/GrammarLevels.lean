import Univariate.Proofs.Grammar

/-!
# Precedence in texts of the grammar

The operations on the topmost level of a text bind as tightly as its category says, and a text of
any category whose operations bind tighter than that belongs to a tighter category. Both directions
rest on the same facts: texts of the grammar are balanced, and they do not end with an operator, so
that the operator after one is never a sign.
-/

namespace Univariate

variable {α : Type} [Scalar α] [HasNumerals α] {letter : Char}

/-- The positions of the parts of a text around an operator. -/
theorem exists_of_operator {gs : List Glyph} {op : BinaryOp} {v w : List Char}
    (hop : op.isOperator = true) (h : gs.map Glyph.char = v ++ op.symbol ++ w) :
    ∃ ls g rs, gs = ls ++ g :: rs ∧ ls.map Glyph.char = v ∧ rs.map Glyph.char = w ∧
      BinaryOp.ofOperator? g.char = some op := by
  obtain ⟨c, hsymbol, hc⟩ := ofOperator?_symbol hop
  rw [hsymbol, List.append_assoc, List.singleton_append] at h
  obtain ⟨ls, rest, rfl, hls, hrest⟩ := List.map_eq_append_iff.mp h
  obtain ⟨g, rs, rfl, rfl, hrs⟩ := List.map_eq_cons_iff.mp hrest
  exact ⟨ls, g, rs, rfl, hls, hrs, hc⟩

/-- The operations around an operator. -/
theorem topOperations_around {ls rs : List Glyph} {g : Glyph} {op : BinaryOp}
    {before : List Char} (hls : Balanced (ls.map Glyph.char))
    (hg : BinaryOp.ofOperator? g.char = some op)
    (hends : endsWithOperator ((ls.map Glyph.char).reverse ++ before) = false) :
    topOperations before (ls ++ g :: rs) = topOperations before ls ++
      ⟨.binary op, ls.length + before.length⟩ ::
        topOperations (g.char :: ((ls.map Glyph.char).reverse ++ before)) rs := by
  rw [topOperations_append hls, topOperations_operator hg fun _ => hends]
  simp

/-- A text that ends with the character of an operator ends with an operator. -/
theorem endsWithOperator_cons {c : Char} {op : BinaryOp} (hc : BinaryOp.ofOperator? c = some op)
    (before : List Char) : endsWithOperator (c :: before) = true := by
  simp [endsWithOperator, isOperatorSymbol, hc]

/-- The characters of a keyword are plain. -/
theorem isPlain_of_mem_symbol {op : Operation} (hop : op.isKeyword = true) :
    ∀ c ∈ op.symbol, IsPlain c :=
  fun c hc => isPlain_of_isLetter (isLetter_of_mem_symbol hop c hc)

/-- Every function of one argument has a keyword. -/
theorem isKeyword_unary (op : UnaryOp) : (Operation.unary op).isKeyword = true := rfl

/-- Every operation on two operands that is no operator has a keyword. -/
theorem isKeyword_of_not_isOperator {op : BinaryOp} (hop : op.isOperator = false) :
    (Operation.binary op).isKeyword = true := by
  cases op with
  | logarithm | root => rfl
  | _ => cases hop

/-- No operator binds as tightly as a function. -/
theorem precedence_ne_function {op : BinaryOp} (hop : op.isOperator = true) :
    op.precedence ≠ .function := by
  cases op with
  | logarithm | root => cases hop
  | _ => decide

/-- A text that ends with a plain character does not end with an operator. -/
theorem endsWithOperator_of_plain {w : List Char} (hw : ∀ c ∈ w, IsPlain c) (hne : w ≠ [])
    (before : List Char) : endsWithOperator (w.reverse ++ before) = false := by
  obtain ⟨c, rest, hrest⟩ := List.exists_cons_of_ne_nil (mt List.reverse_eq_nil_iff.mp hne)
  have hmem : c ∈ w := List.mem_reverse.mp (by rw [hrest]; exact List.mem_cons_self)
  rw [hrest]
  simp [endsWithOperator, (hw c hmem).not_operator]

/-- A function with a balanced text in its brackets is balanced. -/
theorem balanced_call {w v : List Char} {op : Operation} (hop : op.isKeyword = true)
    (hw : Balanced w) (hv : v = op.symbol ++ ('(' :: w ++ [')'])) : Balanced v := by
  rw [hv]
  exact (Balanced.of_plain (isPlain_of_mem_symbol hop)).append hw.brackets

namespace Derives

/-- Texts of the grammar are balanced. -/
theorem balanced (hletter : isLetter letter = true) {c : Category} {w : List Char} {t : Expr α}
    (h : Derives letter c w t) : Balanced w := by
  induction h with
  | operation hop hp hl hr ihl ihr =>
    obtain ⟨c, hsymbol, hc⟩ := ofOperator?_symbol hop
    obtain ⟨hopen, hclose⟩ := not_bracket_of_ofOperator? hc
    rw [hsymbol]
    exact (ihl.append (.singleton hopen hclose)).append ihr
  | operand ht ih => exact ih
  | tighter hp ht ih => exact ih
  | minus ht ih => exact ih.cons (by decide) (by decide)
  | unsigned ht ih => exact ih
  | literal ht => exact .of_plain (ht.isPlain hletter)
  | brackets ht ih => exact ih.brackets
  | call1 op ht ih => exact balanced_call (isKeyword_unary op) ih rfl
  | call2 hop hl hr ihl ihr =>
    exact balanced_call (isKeyword_of_not_isOperator hop) (ihl.separated ihr) rfl

/-- Texts of the grammar end with an operand. -/
theorem endsWithOperator_eq_false (hletter : isLetter letter = true) {c : Category}
    {w : List Char} {t : Expr α} (h : Derives letter c w t) (before : List Char) :
    endsWithOperator (w.reverse ++ before) = false := by
  induction h generalizing before with
  | operation hop hp hl hr ihl ihr =>
    rw [List.reverse_append, List.append_assoc]
    exact ihr _
  | operand ht ih => exact ih before
  | tighter hp ht ih => exact ih before
  | minus ht ih =>
    rw [List.reverse_cons, List.append_assoc]
    exact ih _
  | unsigned ht ih => exact ih before
  | literal ht => exact endsWithOperator_of_plain (ht.isPlain hletter) ht.ne_nil before
  | brackets ht ih => rw [List.reverse_append]; rfl
  | call1 op ht ih => rw [List.reverse_append, List.reverse_append]; rfl
  | call2 hop hl hr ihl ihr => rw [List.reverse_append, List.reverse_append]; rfl

/-- No derived text is empty. -/
theorem ne_nil (hletter : isLetter letter = true) {c : Category} {w : List Char} {t : Expr α}
    (h : Derives letter c w t) : w ≠ [] := by
  rintro rfl
  cases h.endsWithOperator_eq_false hletter ['+']

/-- The characters of a derived text are not empty. -/
theorem glyphs_ne_nil (hletter : isLetter letter = true) {c : Category} {w : List Char}
    {t : Expr α} (h : Derives letter c w t) {gs : List Glyph} (hgs : gs.map Glyph.char = w) :
    gs ≠ [] := by
  rintro rfl
  exact h.ne_nil hletter hgs.symm

end Derives

/-- The loosest level of the operations on the topmost level of a text. -/
def Category.level : Category → Nat
  | .chain p => p.level
  | .signed p => p.tighter.level

/-- The next tighter precedence binds no looser. -/
theorem Precedence.level_tighter_le (p : Precedence) : p.tighter.level ≤ p.level := by
  cases p <;> decide

/-- The next tighter precedence binds tighter, except for functions. -/
theorem level_tighter_lt {p : Precedence} (hp : p ≠ .function) : p.tighter.level < p.level := by
  cases p with
  | function => exact absurd rfl hp
  | _ => decide

/-- The next tighter precedence binds tighter than sums. -/
theorem level_tighter_lt_three (p : Precedence) : p.tighter.level < 3 := by
  cases p <;> decide

/-- On its topmost level, a call has the operations of its keyword. -/
theorem topOperations_call {gs : List Glyph} {op : Operation} {w : List Char}
    (hop : op.isKeyword = true) (hw : Balanced w)
    (hgs : gs.map Glyph.char = op.symbol ++ ('(' :: w ++ [')'])) (before : List Char) :
    ∃ ks, ks.map Glyph.char = op.symbol ∧
      topOperations before gs = topOperations before ks := by
  obtain ⟨ks, rest, rfl, hks, hrest⟩ := List.map_eq_append_iff.mp hgs
  obtain ⟨first, inner, last, rfl, hfirst, rfl, hlast⟩ := exists_of_brackets hrest
  refine ⟨ks, hks, ?_⟩
  rw [topOperations_append (hks ▸ .of_plain (isPlain_of_mem_symbol hop)),
    topOperations_brackets hfirst hlast hw, List.append_nil]

/-- The operations on the topmost level of a text bind as its category says. A category that
allows minuses in front says so only after an operator, where these are signs. -/
theorem Derives.level_le (hletter : isLetter letter = true) {c : Category} {w : List Char}
    {t : Expr α} (h : Derives letter c w t) {gs : List Glyph} (hgs : gs.map Glyph.char = w)
    (before : List Char) (hbefore : ∀ p, c = .signed p → endsWithOperator before = true) :
    ∀ s ∈ topOperations before gs, s.level ≤ c.level := by
  have hplain {gs : List Glyph} {w : List Char} (hw : ∀ c ∈ w, IsPlain c)
      (hgs : gs.map Glyph.char = w) (before : List Char) {n : Nat} :
      ∀ s ∈ topOperations before gs, s.level ≤ n := by
    intro s hs
    rw [level_eq_zero_of_plain (isPlain_of_map_eq hw hgs) before s hs]
    exact Nat.zero_le n
  induction h generalizing gs before with
  | @operation p op v w l r hop hp hl hr ihl ihr =>
    obtain ⟨ls, g, rs, rfl, hls, hrs, hg⟩ := exists_of_operator hop hgs
    have hends : endsWithOperator ((ls.map Glyph.char).reverse ++ before) = false := by
      rw [hls]
      exact hl.endsWithOperator_eq_false hletter before
    rw [topOperations_around (hls ▸ hl.balanced hletter) hg hends]
    intro s hs
    rcases List.mem_append.mp hs with hs | hs
    · exact ihl hls before (by simp) s hs
    · rcases List.mem_cons.mp hs with rfl | hs
      · exact Nat.le_of_eq (congrArg Precedence.level hp)
      · refine Nat.le_trans (ihr hrs _ (fun _ _ => endsWithOperator_cons hg _) s hs) ?_
        exact p.level_tighter_le
  | operand ht ih => exact fun s _ => s.level_le_three
  | @tighter p w t hp ht ih =>
    intro s hs
    exact Nat.le_trans (ih hgs before (by simp) s hs) p.level_tighter_le
  | @minus p w t ht ih =>
    obtain ⟨g, rs, rfl, hg, hrs⟩ := List.map_eq_cons_iff.mp hgs
    rw [topOperations_sign hg (hbefore p rfl)]
    exact ih hrs _ fun _ _ => rfl
  | unsigned ht ih => exact ih hgs before (by simp)
  | literal ht => exact hplain (ht.isPlain hletter) hgs before
  | brackets ht ih =>
    obtain ⟨first, inner, last, rfl, hfirst, rfl, hlast⟩ := exists_of_brackets hgs
    rw [topOperations_brackets hfirst hlast (ht.balanced hletter)]
    simp
  | call1 op ht ih =>
    obtain ⟨ks, hks, htop⟩ :=
      topOperations_call (isKeyword_unary op) (ht.balanced hletter) hgs before
    rw [htop]
    exact hplain (isPlain_of_mem_symbol (isKeyword_unary op)) hks before
  | @call2 op v w l r hop hl hr ihl ihr =>
    have hkeyword := isKeyword_of_not_isOperator hop
    have hbalanced := (hl.balanced hletter).separated (hr.balanced hletter)
    obtain ⟨ks, hks, htop⟩ := topOperations_call hkeyword hbalanced hgs before
    rw [htop]
    exact hplain (isPlain_of_mem_symbol hkeyword) hks before

namespace Derives

/-- The operator of a production is one of the operations on the topmost level. -/
theorem exists_level_eq (hletter : isLetter letter = true) {p : Precedence} {op : BinaryOp}
    {v w : List Char} {l : Expr α} (hop : op.isOperator = true) (hp : op.precedence = p)
    (hl : Derives letter (.chain p) v l) {gs : List Glyph}
    (hgs : gs.map Glyph.char = v ++ op.symbol ++ w) (before : List Char) :
    ∃ s ∈ topOperations before gs, s.level = p.level := by
  obtain ⟨ls, g, rs, rfl, hls, -, hg⟩ := exists_of_operator hop hgs
  have hends : endsWithOperator ((ls.map Glyph.char).reverse ++ before) = false := by
    rw [hls]
    exact hl.endsWithOperator_eq_false hletter before
  rw [topOperations_around (hls ▸ hl.balanced hletter) hg hends]
  exact ⟨⟨.binary op, ls.length + before.length⟩, by simp, congrArg Precedence.level hp⟩

/-- Without sums and differences on its topmost level, an expression is one signed operand. -/
theorem signed_of_lt_sum (hletter : isLetter letter = true) {w : List Char} {t : Expr α}
    (h : Derives letter (.chain .sum) w t) {gs : List Glyph} (hgs : gs.map Glyph.char = w)
    {before : List Char} (hlevels : ∀ s ∈ topOperations before gs, s.level < 3) :
    Derives letter (.signed .sum) w t := by
  cases h with
  | operation hop hp hl hr =>
    obtain ⟨s, hs, hlevel⟩ := exists_level_eq hletter hop hp hl hgs before
    exact absurd (hlevels s hs) (by rw [hlevel]; decide)
  | operand ht => exact ht
  | tighter hp ht => simp at hp

/-- Without operations of its own precedence on its topmost level, a text belongs to the next
tighter category. -/
theorem tighter_of_lt (hletter : isLetter letter = true) {p : Precedence}
    (hsum : p = .product ∨ p = .power) {w : List Char} {t : Expr α}
    (h : Derives letter (.chain p) w t) {gs : List Glyph} (hgs : gs.map Glyph.char = w)
    {before : List Char} (hlevels : ∀ s ∈ topOperations before gs, s.level < p.level) :
    Derives letter (.chain p.tighter) w t := by
  cases h with
  | operation hop hp hl hr =>
    obtain ⟨s, hs, hlevel⟩ := exists_level_eq hletter hop hp hl hgs before
    exact absurd (hlevels s hs) (by rw [hlevel]; exact Nat.lt_irrefl _)
  | tighter hp ht => exact ht
  | _ => simp at hsum

/-- Minuses in front do not keep a signed operand from belonging to the next tighter category. -/
theorem signed_tighter_of_lt (hletter : isLetter letter = true) {p : Precedence}
    (hp : p = .sum ∨ p = .product) {w : List Char} {t : Expr α}
    (h : Derives letter (.signed p) w t) {gs : List Glyph} (hgs : gs.map Glyph.char = w)
    {before : List Char} (hbefore : endsWithOperator before = true)
    (hlevels : ∀ s ∈ topOperations before gs, s.level < p.tighter.level) :
    Derives letter (.signed p.tighter) w t := by
  generalize hc : Category.signed p = c at h
  induction h generalizing gs before with
  | minus ht ih =>
    cases hc
    obtain ⟨g, rs, rfl, hg, hrs⟩ := List.map_eq_cons_iff.mp hgs
    rw [topOperations_sign hg hbefore] at hlevels
    exact .minus (ih hrs rfl hlevels rfl)
  | unsigned ht ih =>
    cases hc
    refine .unsigned (tighter_of_lt hletter ?_ ht hgs hlevels)
    rcases hp with rfl | rfl
    · exact .inl rfl
    · exact .inr rfl
  | _ => cases hc

/-- What stands after an operator belongs to the right operands of a precedence if all of its
operations bind tighter. -/
theorem signed_of_lt (hletter : isLetter letter = true) {p : Precedence} (hp : p ≠ .function)
    {w : List Char} {t : Expr α} (h : Derives letter (.chain .sum) w t) {gs : List Glyph}
    (hgs : gs.map Glyph.char = w) {before : List Char} (hbefore : endsWithOperator before = true)
    (hlevels : ∀ s ∈ topOperations before gs, s.level < p.level) :
    Derives letter (.signed p) w t := by
  have hsum : Derives letter (.signed .sum) w t := by
    refine h.signed_of_lt_sum hletter hgs fun s hs => Nat.lt_of_lt_of_le (hlevels s hs) ?_
    exact p.level_le_three
  have hproduct (hle : p.level ≤ 2) : Derives letter (.signed .product) w t :=
    hsum.signed_tighter_of_lt hletter (.inl rfl) hgs hbefore fun s hs =>
      Nat.lt_of_lt_of_le (hlevels s hs) hle
  cases p with
  | sum => exact hsum
  | product => exact hproduct (by decide)
  | power =>
    exact (hproduct (by decide)).signed_tighter_of_lt hletter (.inr rfl) hgs hbefore hlevels
  | function => exact absurd rfl hp

/-- What stands at the start of a text belongs to a category if all of its operations bind as
tightly. -/
theorem chain_of_le (hletter : isLetter letter = true) {p : Precedence} (hp : p ≠ .function)
    {w : List Char} {t : Expr α} (h : Derives letter (.chain .sum) w t) {gs : List Glyph}
    (hgs : gs.map Glyph.char = w) (hlevels : ∀ s ∈ topOperations [] gs, s.level ≤ p.level) :
    Derives letter (.chain p) w t := by
  have hproduct (hle : p.level ≤ 2) : Derives letter (.chain .product) w t := by
    have hlt : ∀ s ∈ topOperations [] gs, s.level < 3 := fun s hs =>
      Nat.lt_succ_of_le (Nat.le_trans (hlevels s hs) hle)
    -- a minus at the start would be an operation
    cases h.signed_of_lt_sum hletter hgs hlt with
    | minus ht =>
      obtain ⟨g, rs, rfl, hg, -⟩ := List.map_eq_cons_iff.mp hgs
      have hop : BinaryOp.ofOperator? g.char = some .subtraction := by rw [hg]; rfl
      rw [topOperations_operator hop fun _ => rfl] at hlt
      exact absurd (hlt _ List.mem_cons_self) (by decide)
    | unsigned ht => exact ht
  cases p with
  | sum => exact h
  | product => exact hproduct (by decide)
  | power =>
    exact (hproduct (by decide)).tighter_of_lt hletter (.inl rfl) hgs fun s hs =>
      Nat.lt_succ_of_le (hlevels s hs)
  | function => exact absurd rfl hp

end Derives

end Univariate
