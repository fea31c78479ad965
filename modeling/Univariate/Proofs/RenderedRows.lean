import Univariate.Proofs.OpenedGroups

/-!
# Rows of rendered trees

The text of a tree is a row of operands whose loosest operator is that of the root. The text
without the brackets around one operand is a row, too. That the two rows have trees with different
skeletons is stated with all that can stand around the tree in a larger row in which it has no
brackets, so that a difference within an operand is one of the whole tree.
-/

namespace Univariate

variable {α : Type}

/-- A minus is followed by a single operand or by brackets. -/
theorem outer_of_isNegative {t : Expr α} (h : t.isNegative = true) : t.outer = .function := by
  cases t with
  | binary negative op l r =>
    cases negative with
    | true => rfl
    | false => cases h
  | _ => rfl

/-- A leaf is a single operand. -/
theorem isLeaf_eq_false_of_outer {t : Expr α} (h : t.outer.level ≠ 0) : t.isLeaf = false := by
  cases t with
  | var | num => exact absurd rfl h
  | _ => rfl

/-- An operand without brackets does not bind looser than its operator. -/
theorem outer_level_le {op : BinaryOp} (hop : op.isOperator = true) {t : Expr α} {isRight : Bool}
    (h : Expr.needsBrackets op t isRight = false) : t.outer.level ≤ op.precedence.level := by
  have hlooser : t.outer.looserThan op.precedence = false := by
    cases isRight with
    | false =>
      rw [needsBrackets_left] at h
      exact (Bool.or_eq_false_iff.mp h).2
    | true =>
      rw [needsBrackets_right hop] at h
      exact (Bool.or_eq_false_iff.mp h).1
  exact Nat.not_lt.mp (of_decide_eq_false hlooser)

/-- If an operator and its left operand stand without brackets, so would the left operand behind
another operator before them. -/
theorem bare_left_of_bare {o op : BinaryOp} (ho : o.isOperator = true) (hop : op.isOperator = true)
    {l r : Expr α} (h : Expr.needsBrackets o (.binary false op l r) true = false)
    (hl : Expr.needsBrackets op l false = false) : Expr.needsBrackets o l true = false := by
  have hlevel : op.precedence.level ≤ o.precedence.level := outer_level_le ho h
  have hleft := outer_level_le hop hl
  rw [needsBrackets_right ho, Bool.or_eq_false_iff] at h ⊢
  refine ⟨decide_eq_false (Nat.not_lt.mpr (hleft.trans hlevel)), ?_⟩
  by_cases hsame : l.outer = o.precedence
  · have hop : op.precedence = o.precedence :=
      eq_of_level_eq (hlevel.antisymm (hsame ▸ hleft))
    have hregroups : o.regroupsRight = true := by simpa [Expr.outer, hop] using h.2
    simp [hregroups]
  · simp [hsame]

variable [Scalar α] [HasNumerals α] {letter : Char}

/-- A row has a given text, the variable occurs in it so many times, and its loosest operators are
of a given level, which is zero if there are none. -/
structure IsRow (w : List Char) (n k : ℕ) (a : Operand α letter) (xs : List (Link α letter)) :
    Prop where
  text : rowText a xs = w
  occurrences : rowOccurrences a xs = n
  level_le : ∀ x ∈ xs, x.level ≤ k
  exists_level : k ≠ 0 → ∃ x ∈ xs, x.level = k

/-- A row in brackets as an operand, with a minus or without. -/
def Operand.brackets (negative : Bool) (a : Operand α letter) (xs : List (Link α letter)) :
    Operand α letter where
  negative := negative
  text := '(' :: rowText a xs ++ [')']
  tree := group a xs
  derives := .brackets (derives_group a xs)

namespace IsRow

variable {w w' : List Char} {n n' j k : ℕ} {a b : Operand α letter} {xs ys : List (Link α letter)}

/-- A single operand is a row without operators. -/
theorem single (a : Operand α letter) : IsRow a.written a.tree.occurrences 0 a [] where
  text := List.append_nil _
  occurrences := rfl
  level_le := by simp
  exists_level h := absurd rfl h

/-- A single operand with a minus or without is a row. -/
theorem of_signedText (negative : Bool) {u : Expr α} (hw : Derives letter (.chain .function) w u)
    (hu : u.occurrences = n) :
    IsRow (Expr.signedText negative false w) n 0 (⟨negative, w, u, hw⟩ : Operand α letter) [] :=
  hu ▸ single ⟨negative, w, u, hw⟩

/-- A row in brackets is a single operand, with a minus or without. -/
theorem brackets (h : IsRow w n k a xs) (negative : Bool) :
    IsRow (Expr.signedText negative false ('(' :: w ++ [')'])) n 0 (Operand.brackets negative a xs)
      [] := by
  rw [← h.text]
  exact of_signedText negative (.brackets (derives_group a xs))
    ((occurrences_group a xs).trans h.occurrences)

/-- Two rows with an operator between them are a row, if neither binds looser than the operator. -/
theorem operation (ha : IsRow w n j a xs) {x : Link α letter} (hj : j ≤ x.level)
    (hx : IsRow w' n' k x.operand ys) (hk : k ≤ x.level) :
    IsRow (w ++ x.op.symbol ++ w') (n + n') x.level a (xs ++ x :: ys) where
  text := by rw [rowText_split, ha.text, hx.text]
  occurrences := by rw [rowOccurrences_split, ha.occurrences, hx.occurrences]
  level_le := List.forall_mem_append.mpr ⟨fun y hy => (ha.level_le y hy).trans hj,
    List.forall_mem_cons.mpr ⟨le_rfl, fun y hy => (hx.level_le y hy).trans hk⟩⟩
  exists_level _ := ⟨x, by simp, rfl⟩

/-- The variable occurs in an operation on two rows as often as in both together. -/
theorem occurrences_apply2 (ha : IsRow w n j a xs) (hb : IsRow w' n' k b ys) (op : BinaryOp) :
    (Expr.apply2 op (group a xs) (group b ys)).occurrences = n + n' := by
  rw [Expr.occurrences_apply2, occurrences_group, occurrences_group, ha.occurrences, hb.occurrences]

/-- A row without operators is a single operand. -/
theorem eq_nil (h : IsRow w n 0 a xs) : xs = [] :=
  List.eq_nil_iff_forall_not_mem.mpr fun x hx =>
    absurd (h.level_le x hx) (Nat.not_le.mpr (level_pos x.isOperator))

/-- The loosest operator of a row has the level of the row. -/
theorem exists_isLoosest (h : IsRow w n k a xs) (hk : k ≠ 0) :
    ∃ l y r, xs = l ++ y :: r ∧ IsLoosest l y r ∧ y.level = k := by
  obtain ⟨x, hx, hlevel⟩ := h.exists_level hk
  obtain ⟨l, y, r, rfl, hy⟩ := Univariate.exists_isLoosest (List.ne_nil_of_mem hx)
  exact ⟨l, y, r, rfl, hy, (h.level_le y (by simp)).antisymm (hlevel ▸ hy.level_le x hx)⟩

end IsRow

/-- An operand of an operator is a row that does not bind looser, in brackets or without. -/
theorem IsRow.exists_operand {t : Expr α} {w : List Char} {n : ℕ} {a : Operand α letter}
    {xs : List (Link α letter)} (h : IsRow w n t.outer.level a xs) {op : BinaryOp}
    (hop : op.isOperator = true) (isRight : Bool) :
    ∃ (k : ℕ) (b : Operand α letter) (ys : List (Link α letter)), k ≤ op.precedence.level ∧
      IsRow (Expr.bracketedIf (Expr.needsBrackets op t isRight) w) n k b ys := by
  cases hneeded : Expr.needsBrackets op t isRight with
  | true => exact ⟨0, _, _, Nat.zero_le _, h.brackets false⟩
  | false => exact ⟨_, a, xs, outer_level_le hop hneeded, h⟩

/-- Every number has a text that is read as some number. -/
def HasReadableTexts (α : Type) [Scalar α] [HasNumerals α] : Prop :=
  ∀ a : α, ∃ n, numeralOf? (cleaned (numberText (Scalar.abs a))) = some n

/-- The text of a tree is a row whose loosest operators are those of the root. -/
theorem exists_row (hreadable : HasReadableTexts α) (v : Letter) {t : Expr α}
    (ht : t.HasMagnitudes) :
    ∃ (a : Operand α v.char.toLower) (xs : List (Link α v.char.toLower)),
      IsRow (readText v t) t.occurrences t.outer.level a xs ∧
        (t.isNegative = true → a.negative = true) := by
  induction t with
  | var negative =>
    rw [readText_var]
    exact ⟨_, _, IsRow.of_signedText negative (.literal .var) rfl, id⟩
  | num negative magnitude =>
    obtain ⟨a, rfl⟩ := ht
    obtain ⟨n, hn⟩ := hreadable a
    rw [readText_num]
    exact ⟨_, _, IsRow.of_signedText negative (.literal (.of_numeralOf? hn)) rfl, id⟩
  | unary negative op s ih =>
    obtain ⟨a, xs, h, -⟩ := ih ht
    rw [readText_unary, ← h.text]
    exact ⟨_, _, IsRow.of_signedText negative (.call1 op (derives_group a xs))
      ((occurrences_group a xs).trans h.occurrences), id⟩
  | binary negative op l r ihl ihr =>
    obtain ⟨a, xs, hl, -⟩ := ihl ht.1
    obtain ⟨b, ys, hr, -⟩ := ihr ht.2
    cases hop : op.isOperator with
    | true =>
      obtain ⟨j, a', xs', hj, hl'⟩ := hl.exists_operand hop false
      obtain ⟨k, b', ys', hk, hr'⟩ := hr.exists_operand hop true
      have hrow := hl'.operation (x := ⟨op, hop, b'⟩) hj hr' hk
      rw [readText_operator v negative hop]
      cases negative with
      | false => exact ⟨a', _, hrow, nofun⟩
      | true => exact ⟨_, _, hrow.brackets true, fun _ => rfl⟩
    | false =>
      rw [readText_function v negative hop, outer_of_not_isOperator hop, ← hl.text, ← hr.text]
      exact ⟨_, _, IsRow.of_signedText negative
        (.call2 hop (derives_group a xs) (derives_group b ys)) (hl.occurrences_apply2 hr op), id⟩

/-- Two rows have trees with different skeletons at the start of any row. -/
def ApartFirst (a : Operand α letter) (xs : List (Link α letter)) (a' : Operand α letter)
    (xs' : List (Link α letter)) : Prop :=
  ∀ zs, (group a (xs ++ zs)).skeleton ≠ (group a' (xs' ++ zs)).skeleton

/-- Two rows have trees with different skeletons behind an operator in any row. -/
def ApartBehind {op : BinaryOp} (hop : op.isOperator = true) (a : Operand α letter)
    (xs : List (Link α letter)) (a' : Operand α letter) (xs' : List (Link α letter)) : Prop :=
  ∀ c l zs, (group c (l ++ ⟨op, hop, a⟩ :: (xs ++ zs))).skeleton ≠
    (group c (l ++ ⟨op, hop, a'⟩ :: (xs' ++ zs))).skeleton

section Larger

variable {a a' c : Operand α letter} {xs xs' : List (Link α letter)}

/-- Rows that are apart at the start of any row are so alone. -/
theorem ApartFirst.alone (h : ApartFirst a xs a' xs') :
    (group a xs).skeleton ≠ (group a' xs').skeleton := by
  have halone := h []
  rwa [List.append_nil, List.append_nil] at halone

/-- Rows that are apart at the start of any row are so with more operands behind them. -/
theorem ApartFirst.append (h : ApartFirst a xs a' xs') (ys : List (Link α letter)) :
    ApartFirst a (xs ++ ys) a' (xs' ++ ys) := by
  intro zs
  rw [List.append_assoc, List.append_assoc]
  exact h (ys ++ zs)

/-- Rows that are apart behind an operator are so with more operands behind them. -/
theorem ApartBehind.append {op : BinaryOp} {hop : op.isOperator = true}
    (h : ApartBehind hop a xs a' xs') (ys : List (Link α letter)) :
    ApartBehind hop a (xs ++ ys) a' (xs' ++ ys) := by
  intro d l zs
  rw [List.append_assoc, List.append_assoc]
  exact h d l (ys ++ zs)

/-- A difference behind an operator is one of the rows that end with the operator. -/
theorem ApartBehind.apartFirst {op : BinaryOp} {hop : op.isOperator = true}
    (h : ApartBehind hop a xs a' xs') (c : Operand α letter) (ws : List (Link α letter)) :
    ApartFirst c (ws ++ ⟨op, hop, a⟩ :: xs) c (ws ++ ⟨op, hop, a'⟩ :: xs') := by
  intro zs
  rw [List.append_assoc, List.append_assoc]
  exact h c ws zs

/-- A difference behind an operator is one behind any operator before the row that ends with it. -/
theorem ApartBehind.apartBehind {op o : BinaryOp} {hop : op.isOperator = true}
    (h : ApartBehind hop a xs a' xs') (ho : o.isOperator = true) (c : Operand α letter)
    (ws : List (Link α letter)) :
    ApartBehind ho c (ws ++ ⟨op, hop, a⟩ :: xs) c (ws ++ ⟨op, hop, a'⟩ :: xs') := by
  intro d l zs
  have hlonger := h d (l ++ ⟨o, ho, c⟩ :: ws) zs
  simp only [List.append_assoc, List.cons_append] at hlonger ⊢
  exact hlonger

end Larger

/-- The row of a tree and the row of another text have trees with different skeletons, and so they
have in any larger row in which the tree stands without brackets. -/
structure Apart (v : Letter) (t : Expr α) (w : List Char) (a : Operand α v.char.toLower)
    (xs : List (Link α v.char.toLower)) (a' : Operand α v.char.toLower)
    (xs' : List (Link α v.char.toLower)) : Prop where
  row : IsRow (readText v t) t.occurrences t.outer.level a xs
  text : rowText a' xs' = w
  alone : (group a xs).skeleton ≠ (group a' xs').skeleton
  first : t.occurrences ≠ 0 → ApartFirst a xs a' xs'
  behind : t.occurrences ≠ 0 → ∀ {op : BinaryOp} (hop : op.isOperator = true),
    Expr.needsBrackets op t true = false → ApartBehind hop a xs a' xs'

/-- The text of a tree and another text are rows with different trees. -/
def Differs (v : Letter) (t : Expr α) (w : List Char) : Prop :=
  ∃ a xs a' xs', Apart v t w a xs a' xs'

/-- Single operands with different trees are apart everywhere. -/
theorem apart_of_tree {a a' : Operand α letter} (hnegative : a.negative = a'.negative)
    (htree : a.tree.skeleton ≠ a'.tree.skeleton) (ha : a.tree.occurrences ≠ 0) :
    ApartFirst a [] a' [] ∧
      ∀ {op : BinaryOp} (hop : op.isOperator = true), ApartBehind hop a [] a' [] := by
  have hfirst := group_ne_of_tree hnegative htree ha
  exact ⟨hfirst, fun hop => group_ne_behind rfl (by simp) (by simp) ha hfirst⟩

section Opened

variable {b : Operand α letter} {l r : List (Link α letter)} {y : Link α letter}

/-- An opened group is apart from the group in brackets behind an operator that does not bind looser
than the loosest one of the group. -/
theorem apartBehind_of_opened (hy : IsLoosest l y r)
    (hoccurrences : rowOccurrences b (l ++ y :: r) ≠ 0) {op : BinaryOp}
    (hop : op.isOperator = true) (hlevel : op.precedence.level ≤ y.level) :
    ApartBehind hop (.brackets false b (l ++ y :: r)) [] b (l ++ y :: r) :=
  group_ne_of_opened_behind (g := ⟨op, hop, .brackets false b (l ++ y :: r)⟩) (b := ⟨op, hop, b⟩)
    rfl rfl hy hlevel (by simpa [Operand.brackets] using hoccurrences)

/-- An opened group is apart from the group in brackets before an operator that binds tighter than
the loosest one of the group. -/
theorem apartFirst_of_opened (hy : IsLoosest l y r)
    (hoccurrences : rowOccurrences b (l ++ y :: r) ≠ 0) {z : Link α letter}
    (hz : z.level < y.level) (zs : List (Link α letter)) :
    ApartFirst (.brackets false b (l ++ y :: r)) (z :: zs) b (l ++ y :: r ++ z :: zs) := by
  intro ws
  rw [List.append_assoc, List.cons_append]
  exact group_ne_of_opened_first rfl (by simpa [Operand.brackets] using hoccurrences) hy hz _

/-- Both hold before and behind an operator, if the operator before the group does not bind tighter
than the one behind it. -/
theorem apartBehind_of_opened_first (hy : IsLoosest l y r)
    (hoccurrences : rowOccurrences b (l ++ y :: r) ≠ 0) {z : Link α letter}
    (hz : z.level < y.level) (zs : List (Link α letter)) {op : BinaryOp}
    (hop : op.isOperator = true) :
    ApartBehind hop (.brackets false b (l ++ y :: r)) (z :: zs) b (l ++ y :: r ++ z :: zs) := by
  intro c ws xs
  by_cases hlevel : op.precedence.level ≤ y.level
  · have hopened := apartBehind_of_opened hy hoccurrences hop hlevel c ws (z :: zs ++ xs)
    rw [List.append_assoc]
    exact hopened
  · have hlt : y.level < op.precedence.level := Nat.lt_of_not_le hlevel
    have hfirst := apartFirst_of_opened hy hoccurrences hz []
    have hgroup : ∀ w ∈ l ++ y :: r ++ [z], w.level < op.precedence.level :=
      List.forall_mem_append.mpr ⟨fun w hw => (hy.level_le w hw).trans_lt hlt,
        List.forall_mem_singleton.mpr (hz.trans hlt)⟩
    have hcount : (group b (l ++ y :: r)).occurrences ≠ 0 := by rwa [occurrences_group]
    let closed : Link α letter := ⟨op, hop, .brackets false b (l ++ y :: r)⟩
    let opened : Link α letter := ⟨op, hop, b⟩
    have hlonger : rowOccurrences closed.operand [z] ≠ 0 := rowOccurrences_ne_zero hcount [z]
    have hsame : closed.op = opened.op := rfl
    have hbehind := group_ne_behind hsame (List.forall_mem_singleton.mpr (hz.trans hlt)) hgroup
      hlonger hfirst c ws (zs ++ xs)
    simpa using hbehind

end Opened

namespace Differs

variable {v : Letter} {t l r : Expr α} {w : List Char}

/-- Two different trees in the argument of a function, or in the brackets behind a minus. -/
theorem of_signedText {negative : Bool} {w' : List Char} {u u' : Expr α}
    (houter : t.outer = .function) (htext : readText v t = Expr.signedText negative false w)
    (hw : Derives v.char.toLower (.chain .function) w u)
    (hw' : Derives v.char.toLower (.chain .function) w' u')
    (hcount : u.occurrences = t.occurrences) (hne : u.skeleton ≠ u'.skeleton) :
    Differs v t (Expr.signedText negative false w') := by
  have hrow := IsRow.of_signedText negative hw hcount
  let a : Operand α v.char.toLower := ⟨negative, w, u, hw⟩
  let a' : Operand α v.char.toLower := ⟨negative, w', u', hw'⟩
  have hsign : a.negative = a'.negative := rfl
  have hapart (h : t.occurrences ≠ 0) := apart_of_tree hsign hne (hcount ▸ h)
  refine ⟨_, _, _, _, ?_, (IsRow.of_signedText negative hw' rfl).text, ?_, fun h => (hapart h).1,
    fun h _ hop _ => (hapart h).2 hop⟩
  · rw [htext, houter]
    exact hrow
  · rw [group_nil, group_nil]
    exact fun h => hne (Expr.skeleton_of_negateIf h)

/-- A difference in the right operand of an operator. -/
theorem of_right {op : BinaryOp} (hop : op.isOperator = true) {j k : ℕ} {wl wr : List Char}
    {c a a' : Operand α v.char.toLower} {ws xs xs' : List (Link α v.char.toLower)}
    (htext : readText v (.binary false op l r) = wl ++ op.symbol ++ wr)
    (hl : IsRow wl l.occurrences j c ws) (hj : j ≤ op.precedence.level)
    (hr : IsRow wr r.occurrences k a xs) (hk : k ≤ op.precedence.level)
    (h : ApartBehind hop a xs a' xs') :
    Differs v (.binary false op l r) (wl ++ op.symbol ++ rowText a' xs') := by
  have hfirst := h.apartFirst c ws
  refine ⟨_, _, _, _, ?_, ?_, hfirst.alone, fun _ => hfirst, fun _ _ ho _ => h.apartBehind ho c ws⟩
  · rw [htext]
    exact hl.operation (x := ⟨op, hop, a⟩) hj hr hk
  · rw [rowText_split, hl.text]

/-- A difference in the left operand of an operator. -/
theorem of_left {op : BinaryOp} (hop : op.isOperator = true) {j k : ℕ} {wl wr : List Char}
    {a a' b : Operand α v.char.toLower} {xs xs' ys : List (Link α v.char.toLower)}
    (htext : readText v (.binary false op l r) = wl ++ op.symbol ++ wr)
    (hl : IsRow wl l.occurrences j a xs) (hj : j ≤ op.precedence.level)
    (hr : IsRow wr r.occurrences k b ys) (hk : k ≤ op.precedence.level)
    (halone : (group a (xs ++ ⟨op, hop, b⟩ :: ys)).skeleton ≠
      (group a' (xs' ++ ⟨op, hop, b⟩ :: ys)).skeleton)
    (hfirst : (Expr.binary false op l r).occurrences ≠ 0 →
      ApartFirst a (xs ++ ⟨op, hop, b⟩ :: ys) a' (xs' ++ ⟨op, hop, b⟩ :: ys))
    (hbehind : (Expr.binary false op l r).occurrences ≠ 0 →
      ∀ {o : BinaryOp} (ho : o.isOperator = true),
        Expr.needsBrackets o (.binary false op l r) true = false →
          ApartBehind ho a (xs ++ ⟨op, hop, b⟩ :: ys) a' (xs' ++ ⟨op, hop, b⟩ :: ys)) :
    Differs v (.binary false op l r) (rowText a' xs' ++ op.symbol ++ wr) := by
  refine ⟨_, _, _, _, ?_, ?_, halone, hfirst, hbehind⟩
  · rw [htext]
    exact hl.operation (x := ⟨op, hop, b⟩) hj hr hk
  · rw [rowText_split, hr.text]

/-- A difference in the brackets behind a minus. -/
theorem negated {op : BinaryOp} (hop : op.isOperator = true)
    (h : Differs v (.binary false op l r) w) (negative : Bool) :
    Differs v (.binary negative op l r) (Expr.signedText negative true w) := by
  cases negative with
  | false => exact h
  | true =>
    obtain ⟨a, xs, a', xs', h⟩ := h
    have htext : readText v (.binary true op l r) = Expr.signedText true false
        ('(' :: rowText a xs ++ [')']) := by
      rw [h.row.text, readText_operator v true hop, readText_operator v false hop]
      rfl
    rw [← h.text]
    exact of_signedText (t := .binary true op l r) rfl htext (.brackets (derives_group a xs))
      (.brackets (derives_group a' xs')) ((occurrences_group a xs).trans h.row.occurrences) h.alone

/-- A difference in one of the arguments of a function. -/
theorem of_call2 {op : BinaryOp} (hop : op.isOperator = false) {j k : ℕ}
    {a a' b b' : Operand α v.char.toLower} {xs xs' ys ys' : List (Link α v.char.toLower)}
    (hl : IsRow (readText v l) l.occurrences j a xs)
    (hr : IsRow (readText v r) r.occurrences k b ys)
    (h : (Expr.apply2 op (group a xs) (group b ys)).skeleton ≠
      (Expr.apply2 op (group a' xs') (group b' ys')).skeleton) (negative : Bool) :
    Differs v (.binary negative op l r) (Expr.signedText negative false
      (op.symbol ++ ('(' :: (rowText a' xs' ++ ';' :: rowText b' ys') ++ [')']))) := by
  have htext := readText_function v negative hop l r
  rw [← hl.text, ← hr.text] at htext
  exact of_signedText (outer_of_not_isOperator hop negative l r) htext
    (.call2 hop (derives_group a xs) (derives_group b ys))
    (.call2 hop (derives_group a' xs') (derives_group b' ys')) (hl.occurrences_apply2 hr op) h

/-- A difference within an operand, in brackets or without. -/
theorem exists_operand (h : Differs v t w) (ht : t.occurrences ≠ 0) {op : BinaryOp}
    (hop : op.isOperator = true) (isRight : Bool) :
    ∃ (k : ℕ) (a : Operand α v.char.toLower) (xs : List (Link α v.char.toLower))
      (a' : Operand α v.char.toLower) (xs' : List (Link α v.char.toLower)),
      k ≤ op.precedence.level ∧
      IsRow (Expr.bracketedIf (Expr.needsBrackets op t isRight) (readText v t)) t.occurrences k
        a xs ∧
      rowText a' xs' = Expr.bracketedIf (Expr.needsBrackets op t isRight) w ∧
      ApartFirst a xs a' xs' ∧
      ∀ {o : BinaryOp} (ho : o.isOperator = true),
        Expr.needsBrackets op t isRight = true ∨ Expr.needsBrackets o t true = false →
          ApartBehind ho a xs a' xs' := by
  obtain ⟨a, xs, a', xs', h⟩ := h
  cases hneeded : Expr.needsBrackets op t isRight with
  | true =>
    have hcount : (group a xs).occurrences ≠ 0 := by
      rw [occurrences_group, h.row.occurrences]
      exact ht
    have hsign : (Operand.brackets false a xs).negative =
      (Operand.brackets false a' xs').negative := rfl
    obtain ⟨hfirst, hbehind⟩ := apart_of_tree hsign h.alone hcount
    refine ⟨0, _, _, _, _, Nat.zero_le _, h.row.brackets false, ?_, hfirst,
      fun ho _ => hbehind ho⟩
    rw [← h.text]
    exact List.append_nil _
  | false =>
    exact ⟨_, a, xs, a', xs', outer_level_le hop hneeded, h.row, h.text, h.first ht,
      fun ho hfits => h.behind ht ho (hfits.resolve_left Bool.false_ne_true)⟩

/-- The brackets around a negated base are left out. -/
theorem of_base {a : Operand α v.char.toLower} {xs : List (Link α v.char.toLower)}
    (hl : IsRow (readText v l) l.occurrences l.outer.level a xs) (hnegative : l.isNegative = true)
    (ha : a.negative = true) {wr : List Char} {k : ℕ} {b : Operand α v.char.toLower}
    {ys : List (Link α v.char.toLower)} (hr : IsRow wr r.occurrences k b ys)
    (hk : k ≤ BinaryOp.power.precedence.level)
    (htext : readText v (.binary false .power l r) =
      '(' :: readText v l ++ [')'] ++ BinaryOp.power.symbol ++ wr) :
    Differs v (.binary false .power l r) (readText v l ++ BinaryOp.power.symbol ++ wr) := by
  have hnil : xs = [] := by
    rw [outer_of_isNegative hnegative] at hl
    exact hl.eq_nil
  subst hnil
  have hbrackets := hl.brackets false
  let z : Link α v.char.toLower := ⟨.power, rfl, b⟩
  have hlevels : ∀ y ∈ z :: ys, y.level ≤ 1 :=
    List.forall_mem_cons.mpr ⟨le_rfl, fun y hy => (hr.level_le y hy).trans hk⟩
  have hsign {xs : List (Link α v.char.toLower)}
      (h : rowOccurrences (.brackets false a []) (z :: ys) ≠ 0 ∨ xs = []) :=
    group_ne_of_sign (a := .brackets false a []) rfl ha (List.cons_ne_nil z ys)
      (fun y hy => (hlevels y hy).trans_lt (by decide)) h
  have hcount (h : (Expr.binary false .power l r).occurrences ≠ 0) :
      rowOccurrences (.brackets false a []) (z :: ys) ≠ 0 := by
    rw [← List.nil_append (z :: ys), rowOccurrences_split, hbrackets.occurrences, hr.occurrences]
    exact h
  have halone := hsign (.inr rfl)
  rw [List.append_nil] at halone
  rw [← hl.text]
  have hpower : BinaryOp.power.isOperator = true := rfl
  refine of_left hpower htext hbrackets (Nat.zero_le _) hr hk halone
    (fun h _ => hsign (.inl (hcount h))) fun h o ho hneeded => ?_
  have hlevel : 1 < o.precedence.level := by
    cases o with
    | power => cases hneeded
    | logarithm | root => cases ho
    | _ => decide
  exact group_ne_behind rfl (fun y hy => (hlevels y hy).trans_lt hlevel)
    (fun y hy => (hlevels y hy).trans_lt hlevel) (hcount h) fun _ => hsign (.inl (hcount h))

/-- The brackets around a left operand that binds looser are left out. -/
theorem of_opened_left {op : BinaryOp} (hop : op.isOperator = true)
    {b : Operand α v.char.toLower} {ys : List (Link α v.char.toLower)}
    (hl : IsRow (readText v l) l.occurrences l.outer.level b ys)
    (hlooser : op.precedence.level < l.outer.level) (hcount : l.occurrences ≠ 0) {wr : List Char}
    {k : ℕ} {c : Operand α v.char.toLower} {zs : List (Link α v.char.toLower)}
    (hr : IsRow wr r.occurrences k c zs) (hk : k ≤ op.precedence.level)
    (htext : readText v (.binary false op l r) =
      '(' :: readText v l ++ [')'] ++ op.symbol ++ wr) :
    Differs v (.binary false op l r) (readText v l ++ op.symbol ++ wr) := by
  obtain ⟨m, y, n, rfl, hy, hlevel⟩ := hl.exists_isLoosest (Nat.ne_zero_of_lt hlooser)
  have hrow : rowOccurrences b (m ++ y :: n) ≠ 0 := by rwa [hl.occurrences]
  have hz : (⟨op, hop, c⟩ : Link α v.char.toLower).level < y.level := by
    rw [hlevel]
    exact hlooser
  have hfirst := apartFirst_of_opened hy hrow hz zs
  rw [← hl.text]
  exact of_left hop htext (hl.brackets false) (Nat.zero_le _) hr hk hfirst.alone (fun _ => hfirst)
    fun _ _ ho _ => apartBehind_of_opened_first hy hrow hz zs ho

/-- The brackets around a right operand that does not bind tighter are left out. -/
theorem of_opened_right {op : BinaryOp} (hop : op.isOperator = true)
    {b : Operand α v.char.toLower} {ys : List (Link α v.char.toLower)}
    (hr : IsRow (readText v r) r.occurrences r.outer.level b ys)
    (hlooser : op.precedence.level ≤ r.outer.level) (hcount : r.occurrences ≠ 0) {wl : List Char}
    {j : ℕ} {c : Operand α v.char.toLower} {zs : List (Link α v.char.toLower)}
    (hl : IsRow wl l.occurrences j c zs) (hj : j ≤ op.precedence.level)
    (htext : readText v (.binary false op l r) =
      wl ++ op.symbol ++ ('(' :: readText v r ++ [')'])) :
    Differs v (.binary false op l r) (wl ++ op.symbol ++ readText v r) := by
  obtain ⟨m, y, n, rfl, hy, hlevel⟩ :=
    hr.exists_isLoosest (Nat.ne_zero_of_lt ((level_pos hop).trans_le hlooser))
  have hrow : rowOccurrences b (m ++ y :: n) ≠ 0 := by rwa [hr.occurrences]
  rw [← hr.text]
  exact of_right hop htext hl hj (hr.brackets false) (Nat.zero_le _)
    (apartBehind_of_opened hy hrow hop (hlevel ▸ hlooser))

end Differs

end Univariate
