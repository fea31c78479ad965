import Mathlib
import Univariate.Proofs.Skeletons
import Univariate.Proofs.TreeRoundTrip

/-!
# Rows of operands

On its topmost level, an expression is a row of operands with operators between them. The row is
split at the last of its loosest operators, and what stands on either side of it is a shorter row.
The minus of the first operand negates everything up to the first sum or difference. The tree that
comes about in this way is the one that the grammar derives from the text of the row.
-/

namespace Univariate

variable {α : Type} [Scalar α] [HasNumerals α] {letter : Char}

/-- An operand of a row: a number, the variable, a function, or a text in brackets, which may have a
minus in front. -/
structure Operand (α : Type) [Scalar α] [HasNumerals α] (letter : Char) where
  /-- Whether a minus stands in front. -/
  negative : Bool
  /-- The text after the minus. -/
  text : List Char
  /-- The tree of the text after the minus. -/
  tree : Expr α
  derives : Derives letter (.chain .function) text tree

/-- An operator with the operand behind it. -/
structure Link (α : Type) [Scalar α] [HasNumerals α] (letter : Char) where
  /-- The operator. -/
  op : BinaryOp
  isOperator : op.isOperator = true
  /-- The operand behind the operator. -/
  operand : Operand α letter

/-- How loosely the operator binds. -/
def Link.level (x : Link α letter) : ℕ := x.op.precedence.level

/-- The level of a link is decided by its operator. -/
theorem Link.level_eq_of_op {x y : Link α letter} (h : x.op = y.op) : x.level = y.level :=
  congrArg (BinaryOp.precedence · |>.level) h

/-- The text of an operand with its minus. -/
def Operand.written (a : Operand α letter) : List Char := Expr.signedText a.negative false a.text

/-- The text of an operator with its operand. -/
def Link.written (x : Link α letter) : List Char := x.op.symbol ++ x.operand.written

/-- The text of a row. -/
def rowText (a : Operand α letter) (xs : List (Link α letter)) : List Char :=
  a.written ++ xs.flatMap Link.written

/-- The text of a row is what stands before an operator, the operator, and what stands after it. -/
theorem rowText_split (a : Operand α letter) (l : List (Link α letter)) (x : Link α letter)
    (r : List (Link α letter)) :
    rowText a (l ++ x :: r) = rowText a l ++ x.op.symbol ++ rowText x.operand r := by
  simp [rowText, Link.written]

namespace Operand

/-- The operand without its minus. -/
def unsigned (a : Operand α letter) : Operand α letter := { a with negative := false }

/-- The first operand of a row as it stands on the left of an operator that the row is split at. In
products and powers its minus has been taken out. -/
def under (a : Operand α letter) (op : BinaryOp) : Operand α letter :=
  if op.precedence = .sum then a else a.unsigned

/-- Whether the minus of the first operand negates the whole row that is split at an operator. -/
def signs (a : Operand α letter) (op : BinaryOp) : Bool :=
  a.negative && op.precedence ≠ .sum

/-- The tree of the first operand does not depend on the operator that the row is split at. -/
@[simp] theorem tree_under (a : Operand α letter) (op : BinaryOp) : (a.under op).tree = a.tree := by
  unfold under
  split <;> rfl

/-- The operand without its minus does not depend on the operator that the row is split at. -/
@[simp] theorem unsigned_under (a : Operand α letter) (op : BinaryOp) :
    (a.under op).unsigned = a.unsigned := by
  unfold under
  split <;> rfl

/-- An operand whose minus does not negate the row is the first operand with the minus. -/
theorem under_of_signs {a : Operand α letter} {op : BinaryOp} (h : a.signs op = false) :
    a.under op = a := by
  unfold under
  split
  · rfl
  · next hop =>
    have hnegative : a.negative = false := by simpa [signs, hop] using h
    cases a
    cases hnegative
    rfl

/-- An operand without a minus is the first operand as it stands. -/
theorem under_of_unsigned (a : Operand α letter) (op : BinaryOp) :
    a.unsigned.under op = a.unsigned :=
  under_of_signs rfl

end Operand

/-- No operator before this one binds looser, and every operator after it binds tighter. -/
structure IsLoosest (l : List (Link α letter)) (x : Link α letter) (r : List (Link α letter)) :
    Prop where
  before : ∀ y ∈ l, y.level ≤ x.level
  after : ∀ y ∈ r, y.level < x.level

namespace IsLoosest

variable {l m r : List (Link α letter)} {w x y : Link α letter}

/-- No operator of a row binds looser than the loosest one. -/
theorem level_le (h : IsLoosest l x r) : ∀ y ∈ l ++ x :: r, y.level ≤ x.level :=
  List.forall_mem_append.mpr
    ⟨h.before, List.forall_mem_cons.mpr ⟨le_rfl, fun y hy => (h.after y hy).le⟩⟩

/-- Another operand and more links can stand on the right of the loosest operator. -/
theorem replace_after (h : IsLoosest l x (m ++ y :: r)) (hw : w.level = y.level)
    {ws : List (Link α letter)} (hws : ∀ v ∈ ws, v.level < x.level) :
    IsLoosest l x (m ++ w :: (ws ++ r)) := by
  obtain ⟨hm, hyr⟩ := List.forall_mem_append.mp h.after
  obtain ⟨hy, hr⟩ := List.forall_mem_cons.mp hyr
  refine ⟨h.before, List.forall_mem_append.mpr ⟨hm, List.forall_mem_cons.mpr ⟨?_, ?_⟩⟩⟩
  · rwa [hw]
  · exact List.forall_mem_append.mpr ⟨hws, hr⟩

/-- Another operand and more links can stand on the left of the loosest operator. -/
theorem replace_before (h : IsLoosest (l ++ y :: m) x r) (hw : w.level = y.level)
    {ws : List (Link α letter)} (hws : ∀ v ∈ ws, v.level ≤ x.level) :
    IsLoosest (l ++ w :: (ws ++ m)) x r := by
  obtain ⟨hl, hym⟩ := List.forall_mem_append.mp h.before
  obtain ⟨hy, hm⟩ := List.forall_mem_cons.mp hym
  refine ⟨List.forall_mem_append.mpr ⟨hl, List.forall_mem_cons.mpr ⟨?_, ?_⟩⟩, h.after⟩
  · rwa [hw]
  · exact List.forall_mem_append.mpr ⟨hws, hm⟩

end IsLoosest

/-- The last of the loosest operators of a row, with what stands before and after it. -/
def lastLoosest : List (Link α letter) →
    Option (List (Link α letter) × Link α letter × List (Link α letter))
  | [] => none
  | x :: xs =>
    match lastLoosest xs with
    | none => some ([], x, [])
    | some (l, y, r) => if x.level ≤ y.level then some (x :: l, y, r) else some ([], x, xs)

/-- Only a single operand has no loosest operator. -/
theorem lastLoosest_eq_none {xs : List (Link α letter)} (h : lastLoosest xs = none) : xs = [] := by
  cases xs with
  | nil => rfl
  | cons x xs =>
    unfold lastLoosest at h
    split at h
    · cases h
    · split at h <;> cases h

/-- The search finds an operator of the row that is the last of the loosest. -/
theorem lastLoosest_spec {xs l r : List (Link α letter)} {x : Link α letter}
    (h : lastLoosest xs = some (l, x, r)) : xs = l ++ x :: r ∧ IsLoosest l x r := by
  induction xs generalizing l x r with
  | nil => cases h
  | cons z xs ih =>
    unfold lastLoosest at h
    split at h
    · next hnone =>
      cases h
      rw [lastLoosest_eq_none hnone]
      exact ⟨rfl, by simp, by simp⟩
    · next l' y r' hsome =>
      obtain ⟨rfl, hl, hr⟩ := ih hsome
      split at h
      · next hle =>
        cases h
        exact ⟨rfl, List.forall_mem_cons.mpr ⟨hle, hl⟩, hr⟩
      · next hlt =>
        cases h
        have hy : y.level < z.level := Nat.lt_of_not_le hlt
        refine ⟨rfl, by simp, fun w hw => ?_⟩
        rcases List.mem_append.mp hw with hw | hw
        · exact (hl w hw).trans_lt hy
        · rcases List.mem_cons.mp hw with rfl | hw
          · exact hy
          · exact (hr w hw).trans hy

/-- An operator that is the last of the loosest is the one that the search finds. -/
theorem IsLoosest.lastLoosest_eq {l r : List (Link α letter)} {x : Link α letter}
    (h : IsLoosest l x r) : lastLoosest (l ++ x :: r) = some (l, x, r) := by
  induction l with
  | nil =>
    rw [List.nil_append]
    unfold lastLoosest
    split
    · next hnone => rw [lastLoosest_eq_none hnone]
    · next l' y r' hsome =>
      obtain ⟨rfl, -⟩ := lastLoosest_spec hsome
      exact if_neg (Nat.not_le.mpr (h.after y (by simp)))
  | cons z l ih =>
    obtain ⟨hz, hl⟩ := List.forall_mem_cons.mp h.before
    rw [List.cons_append, lastLoosest, ih ⟨hl, h.after⟩]
    exact if_pos hz

/-- Every row of more than one operand has a last loosest operator. -/
theorem exists_isLoosest {xs : List (Link α letter)} (h : xs ≠ []) :
    ∃ l x r, xs = l ++ x :: r ∧ IsLoosest l x r := by
  cases hxs : lastLoosest xs with
  | none => exact absurd (lastLoosest_eq_none hxs) h
  | some parts => exact ⟨parts.1, parts.2.1, parts.2.2, lastLoosest_spec hxs⟩

/-- The tree of a row of operands. -/
def group (a : Operand α letter) (xs : List (Link α letter)) : Expr α :=
  match _h : lastLoosest xs with
  | none => a.tree.negateIf a.negative
  | some (l, x, r) =>
    (Expr.apply2 x.op (group (a.under x.op) l) (group x.operand r)).negateIf (a.signs x.op)
termination_by xs.length
decreasing_by
  all_goals
    obtain ⟨rfl, -⟩ := lastLoosest_spec _h
    simp only [List.length_append, List.length_cons]
    omega

/-- The tree of a single operand is its tree, negated by its minus. -/
theorem group_nil (a : Operand α letter) : group a [] = a.tree.negateIf a.negative := by
  rw [group]
  rfl

/-- A row is grouped around the last of its loosest operators. -/
theorem IsLoosest.group_eq {l r : List (Link α letter)} {x : Link α letter} (h : IsLoosest l x r)
    (a : Operand α letter) : group a (l ++ x :: r) =
      (Expr.apply2 x.op (group (a.under x.op) l) (group x.operand r)).negateIf (a.signs x.op) := by
  rw [group]
  split
  · next hnone =>
    rw [h.lastLoosest_eq] at hnone
    cases hnone
  · next hsome =>
    rw [h.lastLoosest_eq] at hsome
    cases hsome
    rfl

/-- What holds of single operands, and of a row if it holds of the rows on both sides of the
operator that it is grouped around, holds of all rows. -/
theorem row_induction {P : Operand α letter → List (Link α letter) → Prop}
    (single : ∀ a, P a [])
    (split : ∀ a l x r, IsLoosest l x r → P (a.under x.op) l → P x.operand r → P a (l ++ x :: r))
    (a : Operand α letter) (xs : List (Link α letter)) : P a xs := by
  induction hn : xs.length using Nat.strong_induction_on generalizing a xs with
  | h n ih =>
    rcases eq_or_ne xs [] with rfl | hne
    · exact single a
    · obtain ⟨l, x, r, rfl, h⟩ := exists_isLoosest hne
      rw [List.length_append, List.length_cons] at hn
      exact split a l x r h (ih _ (by omega) _ _ rfl) (ih _ (by omega) _ _ rfl)

/-- Every operator binds looser than a function. -/
theorem level_pos {op : BinaryOp} (hop : op.isOperator = true) : 0 < op.precedence.level := by
  have hne := precedence_ne_function hop
  cases hp : op.precedence with
  | function => exact absurd hp hne
  | _ => decide

/-- The tightest texts belong to the left column for every precedence. -/
theorem Derives.chain_of_function {w : List Char} {t : Expr α}
    (h : Derives letter (.chain .function) w t) (p : Precedence) :
    Derives letter (.chain p) w t := by
  have hpower : Derives letter (.chain .power) w t := .tighter (.inr rfl) h
  cases p with
  | sum => exact h.sum_of_chain
  | product => exact .tighter (.inl rfl) hpower
  | power => exact hpower
  | function => exact h

/-- A text derived as a chain is derived as every chain that binds looser. -/
theorem Derives.chain_of_level_le {p q : Precedence} {w : List Char} {t : Expr α}
    (h : Derives letter (.chain p) w t) (hpq : p.level ≤ q.level) :
    Derives letter (.chain q) w t := by
  cases q with
  | sum => exact h.sum_of_chain
  | product =>
    cases p with
    | sum => exact absurd hpq (by decide)
    | product => exact h
    | power => exact .tighter (.inl rfl) h
    | function => exact h.chain_of_function _
  | power =>
    cases p with
    | sum | product => exact absurd hpq (by decide)
    | power => exact h
    | function => exact h.chain_of_function _
  | function =>
    cases p with
    | function => exact h
    | _ => exact absurd hpq (by decide)

/-- An operator that binds tighter than sums is none of them. -/
theorem Link.precedence_ne_sum {x : Link α letter} (h : x.level < 3) : x.op.precedence ≠ .sum := by
  intro hsum
  rw [level, hsum] at h
  exact absurd h (by decide)

/-- An operator that binds no tighter than sums is one of them. -/
theorem Link.precedence_eq_sum {x : Link α letter} (h : ¬x.level < 3) : x.op.precedence = .sum := by
  unfold level at h
  cases hp : x.op.precedence with
  | sum => rfl
  | _ => exact absurd (by rw [hp]; decide) h

/-- A row without sums and differences is negated as a whole by the minus of its first operand. -/
theorem group_eq_negateIf (a : Operand α letter) {xs : List (Link α letter)}
    (h : ∀ y ∈ xs, y.level < 3) : group a xs = (group a.unsigned xs).negateIf a.negative := by
  rcases eq_or_ne xs [] with rfl | hne
  · rw [group_nil, group_nil]
    rfl
  · obtain ⟨l, x, r, rfl, hx⟩ := exists_isLoosest hne
    have hsum : x.op.precedence ≠ .sum := Link.precedence_ne_sum (h x (by simp))
    have hunder : a.under x.op = a.unsigned := if_neg hsum
    have hsigns : a.signs x.op = a.negative := by simp [Operand.signs, hsum]
    rw [hx.group_eq, hx.group_eq, Operand.under_of_unsigned, hunder, hsigns]
    rfl

/-- What stands behind an operator is derived as a right operand, with its minus. -/
theorem signed_of_chain {a : Operand α letter} {xs : List (Link α letter)}
    (h : ∀ p : Precedence, (∀ y ∈ xs, y.level ≤ p.level) →
      Derives letter (.chain p) (rowText a.unsigned xs) (group a.unsigned xs))
    {p : Precedence} (hxs : ∀ y ∈ xs, y.level < p.level) :
    Derives letter (.signed p) (rowText a xs) (group a xs) := by
  have hlevels : ∀ y ∈ xs, y.level ≤ p.tighter.level := fun y hy => by
    have hlt := hxs y hy
    cases p with
    | function => exact absurd hlt (Nat.not_lt_zero _)
    | _ => exact Nat.le_of_lt_succ hlt
  have hunsigned : Derives letter (.signed p) (rowText a.unsigned xs) (group a.unsigned xs) :=
    .unsigned (h p.tighter hlevels)
  rw [group_eq_negateIf a fun y hy => (hxs y hy).trans_le p.level_le_three]
  cases hnegative : a.negative with
  | false =>
    have hself : rowText a xs = rowText a.unsigned xs := by
      simp [rowText, Operand.written, Operand.unsigned, hnegative]
    rw [hself]
    exact hunsigned
  | true =>
    have hminus : rowText a xs = '-' :: rowText a.unsigned xs := by
      simp [rowText, Operand.written, Operand.unsigned, hnegative, Expr.signedText,
        Expr.bracketedIf]
    rw [hminus]
    exact .minus hunsigned

/-- Without a minus in front, the tree of a row is derived for every precedence that none of its
operators binds looser than. -/
theorem chain_of_row (a : Operand α letter) (xs : List (Link α letter)) (p : Precedence)
    (h : ∀ y ∈ xs, y.level ≤ p.level) :
    Derives letter (.chain p) (rowText a.unsigned xs) (group a.unsigned xs) := by
  induction a, xs using row_induction generalizing p with
  | single a =>
    have htext : rowText a.unsigned [] = a.text := List.append_nil _
    rw [group_nil, htext]
    exact a.derives.chain_of_function p
  | split a l x r hx ihl ihr =>
    rw [Operand.unsigned_under] at ihl
    have hright := signed_of_chain ihr hx.after
    have hnode := Derives.operation x.isOperator rfl (ihl _ hx.before) hright
    rw [hx.group_eq, rowText_split, Operand.under_of_unsigned]
    exact hnode.chain_of_level_le (h x (by simp))

/-- The grammar derives the tree of a row from its text. -/
theorem derives_group (a : Operand α letter) (xs : List (Link α letter)) :
    Derives letter (.chain .sum) (rowText a xs) (group a xs) := by
  induction a, xs using row_induction with
  | single a => exact .operand (signed_of_chain (chain_of_row a []) (by simp))
  | split a l x r hx ihl _ =>
    by_cases hlevel : x.level < 3
    · refine .operand (signed_of_chain (chain_of_row a _) fun y hy => ?_)
      rcases List.mem_append.mp hy with hy | hy
      · exact (hx.before y hy).trans_lt hlevel
      · rcases List.mem_cons.mp hy with rfl | hy
        · exact hlevel
        · exact (hx.after y hy).trans hlevel
    · have hsum : x.op.precedence = .sum := Link.precedence_eq_sum hlevel
      have hsigns : a.signs x.op = false := by simp [Operand.signs, hsum]
      have hright := signed_of_chain (chain_of_row x.operand r) hx.after
      rw [Operand.under_of_signs hsigns] at ihl
      rw [hsum] at hright
      have hnode := Derives.operation x.isOperator hsum ihl hright
      rw [hx.group_eq, rowText_split, hsigns, Operand.under_of_signs hsigns]
      exact hnode

/-- How often the variable occurs in a row. -/
def rowOccurrences (a : Operand α letter) (xs : List (Link α letter)) : ℕ :=
  a.tree.occurrences + (xs.map fun x => x.operand.tree.occurrences).sum

/-- The variable occurs as often in a row without the minus of the first operand. -/
@[simp] theorem rowOccurrences_under (a : Operand α letter) (op : BinaryOp)
    (xs : List (Link α letter)) : rowOccurrences (a.under op) xs = rowOccurrences a xs := by
  rw [rowOccurrences, Operand.tree_under, rowOccurrences]

/-- The variable occurs in a row as often as before and after an operator together. -/
theorem rowOccurrences_split (a : Operand α letter) (l : List (Link α letter)) (x : Link α letter)
    (r : List (Link α letter)) :
    rowOccurrences a (l ++ x :: r) = rowOccurrences a l + rowOccurrences x.operand r := by
  simp [rowOccurrences, Nat.add_assoc]

/-- The variable occurs in a row if it occurs in the first operand. -/
theorem rowOccurrences_ne_zero {a : Operand α letter} (h : a.tree.occurrences ≠ 0)
    (xs : List (Link α letter)) : rowOccurrences a xs ≠ 0 := by
  simp [rowOccurrences, h]

/-- The variable occurs in a row if it occurs at its start. -/
theorem rowOccurrences_append_ne_zero {a : Operand α letter} {xs : List (Link α letter)}
    (h : rowOccurrences a xs ≠ 0) (ys : List (Link α letter)) :
    rowOccurrences a (xs ++ ys) ≠ 0 := by
  have hle : rowOccurrences a xs ≤ rowOccurrences a (xs ++ ys) := by simp [rowOccurrences]
  exact ((Nat.pos_of_ne_zero h).trans_le hle).ne'

/-- The variable occurs in a row if it occurs behind an operator. -/
theorem rowOccurrences_split_ne_zero {x : Link α letter} {r : List (Link α letter)}
    (h : rowOccurrences x.operand r ≠ 0) (a : Operand α letter) (l : List (Link α letter)) :
    rowOccurrences a (l ++ x :: r) ≠ 0 := by
  rw [rowOccurrences_split]
  exact ((Nat.pos_of_ne_zero h).trans_le (Nat.le_add_left _ _)).ne'

/-- The variable occurs in the tree of a row as often as in the row. -/
@[simp] theorem occurrences_group (a : Operand α letter) (xs : List (Link α letter)) :
    (group a xs).occurrences = rowOccurrences a xs := by
  induction a, xs using row_induction with
  | single a => simp [group_nil, rowOccurrences]
  | split a l x r hx ihl ihr =>
    rw [hx.group_eq, Expr.occurrences_negateIf, Expr.occurrences_apply2, ihl, ihr,
      rowOccurrences_under, rowOccurrences_split]

/-- The minus of the first operand does not turn the way to the variable. -/
theorem turns_group_under (a : Operand α letter) (op : BinaryOp) (xs : List (Link α letter)) :
    (group (a.under op) xs).turns = (group a xs).turns := by
  have hunsigned : (group a.unsigned xs).turns = (group a xs).turns := by
    induction a, xs using row_induction with
    | single a =>
      rw [group_nil, group_nil, Expr.turns_negateIf, Expr.turns_negateIf]
      rfl
    | split a l x r hx ihl _ =>
      rw [Operand.unsigned_under] at ihl
      rw [hx.group_eq, hx.group_eq, Operand.under_of_unsigned, Expr.turns_negateIf,
        Expr.turns_negateIf]
      refine Expr.turns_apply2_congr ?_ ihl
      rw [occurrences_group, occurrences_group, rowOccurrences_under]
      rfl
  unfold Operand.under
  split
  · rfl
  · exact hunsigned

/-- Where an operator of a row stands, if the row is taken apart into two. -/
theorem split_append {β : Type} {l r xs ys : List β} {x : β} (h : l ++ x :: r = xs ++ ys) :
    (∃ m, xs = l ++ x :: m ∧ r = m ++ ys) ∨ ∃ m, l = xs ++ m ∧ ys = m ++ x :: r := by
  rcases List.append_eq_append_iff.mp h with ⟨m, rfl, hm⟩ | ⟨m, rfl, rfl⟩
  · rcases List.cons_eq_append_iff.mp hm with ⟨rfl, rfl⟩ | ⟨m', rfl, rfl⟩
    · exact .inr ⟨[], by simp, rfl⟩
    · exact .inl ⟨m', rfl, rfl⟩
  · exact .inr ⟨m, rfl, rfl⟩

/-- Where an operator of a row stands in relation to another one. -/
theorem split_cons {β : Type} {l r xs ys : List β} {x y : β} (h : l ++ x :: r = xs ++ y :: ys) :
    (∃ m, xs = l ++ x :: m ∧ r = m ++ y :: ys) ∨ (l = xs ∧ x = y ∧ r = ys) ∨
      ∃ m, l = xs ++ y :: m ∧ ys = m ++ x :: r := by
  rcases split_append h with hleft | ⟨m, rfl, hm⟩
  · exact .inl hleft
  · rcases List.cons_eq_append_iff.mp hm with ⟨rfl, hcons⟩ | ⟨m', rfl, rfl⟩
    · obtain ⟨rfl, rfl⟩ := List.cons.inj hcons
      exact .inr (.inl ⟨List.append_nil _, rfl, rfl⟩)
    · exact .inr (.inr ⟨m', rfl, rfl⟩)

/-- What is added to a row behind the first occurrence of the variable does not change the way to
it. -/
theorem turns_group_append {a : Operand α letter} {xs : List (Link α letter)}
    (h : rowOccurrences a xs ≠ 0) (ys : List (Link α letter)) :
    (group a (xs ++ ys)).turns = (group a xs).turns := by
  generalize hzs : xs ++ ys = zs
  induction a, zs using row_induction generalizing xs ys with
  | single a =>
    obtain ⟨rfl, -⟩ := List.append_eq_nil_iff.mp hzs
    rfl
  | split a l x r hx ihl ihr =>
    rcases split_append hzs.symm with ⟨m, rfl, rfl⟩ | ⟨m, rfl, rfl⟩
    · have hx' : IsLoosest l x m := ⟨hx.before, fun y hy => hx.after y (List.mem_append_left _ hy)⟩
      rw [hx.group_eq, hx'.group_eq, Expr.turns_negateIf, Expr.turns_negateIf]
      by_cases hl : rowOccurrences a l = 0
      · have hm : rowOccurrences x.operand m ≠ 0 := by
          rwa [rowOccurrences_split, hl, Nat.zero_add] at h
        have hmore := rowOccurrences_append_ne_zero hm ys
        rw [Expr.turns_apply2_right _ (by simpa) (by simpa), ihr hm ys rfl,
          Expr.turns_apply2_right _ (by simpa) (by simpa)]
      · rw [Expr.turns_apply2_left _ _ (by simpa), Expr.turns_apply2_left _ _ (by simpa)]
    · have hl := rowOccurrences_append_ne_zero h m
      rw [hx.group_eq, Expr.turns_negateIf, Expr.turns_apply2_left _ _ (by simpa),
        ihl (by simpa) m rfl, turns_group_under]

/-- The way to the variable in the first operand is that in the operand alone. -/
theorem turns_group_of_first {a : Operand α letter} (h : a.tree.occurrences ≠ 0)
    (xs : List (Link α letter)) : (group a xs).turns = a.tree.turns := by
  have hfirst := turns_group_append (rowOccurrences_ne_zero h []) xs
  rwa [List.nil_append, group_nil, Expr.turns_negateIf] at hfirst

/-- The way to the first occurrence of the variable leads through the operand that it is in. -/
theorem turns_le_turns_group {a : Operand α letter} {l r : List (Link α letter)}
    {x : Link α letter} (hl : rowOccurrences a l = 0) (hx : x.operand.tree.occurrences ≠ 0) :
    x.operand.tree.turns ≤ (group a (l ++ x :: r)).turns := by
  have hoperand := rowOccurrences_ne_zero hx
  have hrow (ys : List (Link α letter)) := rowOccurrences_split_ne_zero (hoperand ys)
  generalize hzs : l ++ x :: r = zs
  induction a, zs using row_induction generalizing l r with
  | single a => simp at hzs
  | split a l' y r' hy ihl ihr =>
    rw [hy.group_eq, Expr.turns_negateIf]
    rcases split_cons hzs.symm with ⟨m, rfl, rfl⟩ | ⟨rfl, rfl, rfl⟩ | ⟨m, rfl, rfl⟩
    · rw [rowOccurrences_split, Nat.add_eq_zero_iff] at hl
      rw [Expr.turns_apply2_right _ (by simpa using hl.1) (by simpa using hrow _ _ _)]
      exact (ihr hl.2 rfl).trans (Nat.le_succ _)
    · rw [Expr.turns_apply2_right _ (by simpa using hl) (by simpa using hoperand r'),
        turns_group_of_first hx]
      exact Nat.le_succ _
    · rw [Expr.turns_apply2_left _ _ (by simpa using hrow _ _ _)]
      exact ihl (by simpa using hl) rfl

end Univariate
