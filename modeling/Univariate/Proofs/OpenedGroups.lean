import Univariate.Proofs.Rows

/-!
# Opened groups

Two rows that differ in one place have trees with different skeletons, if the place is an operand
with another tree, a minus that has moved out of the base of a power, or a group whose brackets were
opened next to an operator that does not bind looser. The rows are split at the same operators until
the place is reached, or until an operator of the opened group comes first. That operator may be the
same as the one that the other row is split at. The difference is then found by counting: the
variable stands more often on its left, or is reached on a shorter way on its right.
-/

namespace Univariate

variable {α : Type} [Scalar α] [HasNumerals α] {letter : Char}

/-- Rows with different first operands have different trees. -/
theorem group_ne_of_tree {a a' : Operand α letter} (hnegative : a.negative = a'.negative)
    (htree : a.tree.skeleton ≠ a'.tree.skeleton) (ha : a.tree.occurrences ≠ 0)
    (xs : List (Link α letter)) : (group a xs).skeleton ≠ (group a' xs).skeleton := by
  induction a, xs using row_induction generalizing a' with
  | single a =>
    rw [group_nil, group_nil, hnegative]
    exact fun h => htree (Expr.skeleton_of_negateIf h)
  | split a l x r hx ihl _ =>
    have hunder : (a.under x.op).negative = (a'.under x.op).negative := by
      unfold Operand.under
      split
      · exact hnegative
      · rfl
    have hleft := ihl hunder (by simpa using htree) (by simpa using ha)
    rw [hx.group_eq, hx.group_eq]
    refine Expr.skeleton_ne_of_left hleft ?_
    rw [occurrences_group, rowOccurrences_under]
    exact rowOccurrences_ne_zero ha l

/-- A minus in front of a row that starts with products or powers is seen in its tree. -/
theorem group_ne_of_sign {a a' : Operand α letter} (ha : a.negative = false)
    (ha' : a'.negative = true) {bs : List (Link α letter)} (hne : bs ≠ [])
    (hbs : ∀ y ∈ bs, y.level < 3) {xs : List (Link α letter)}
    (h : rowOccurrences a bs ≠ 0 ∨ xs = []) :
    (group a (bs ++ xs)).skeleton ≠ (group a' (bs ++ xs)).skeleton := by
  generalize hzs : bs ++ xs = zs
  induction a, zs using row_induction generalizing a' xs with
  | single a => exact absurd (List.append_eq_nil_iff.mp hzs).1 hne
  | split a l x r hx ihl _ =>
    have hunder : a.under x.op = a := Operand.under_of_signs (by simp [Operand.signs, ha])
    rw [hx.group_eq, hx.group_eq]
    by_cases hlevel : x.level < 3
    · intro heq
      have hsum := Link.precedence_ne_sum hlevel
      obtain ⟨hsigns, -⟩ := Expr.eq_of_skeleton_apply2 heq
      simp [Operand.signs, ha, ha', hsum] at hsigns
    · have hsum := Link.precedence_eq_sum hlevel
      rcases split_append hzs.symm with ⟨m, rfl, rfl⟩ | ⟨m, rfl, rfl⟩
      · exact absurd (hbs x (by simp)) hlevel
      · have hoccurrences : rowOccurrences a bs ≠ 0 := h.resolve_right (by simp)
        have hunder' : a'.under x.op = a' := if_pos hsum
        rw [hunder] at ihl
        rw [hunder, hunder']
        refine Expr.skeleton_ne_of_left (ihl ha ha' (.inl hoccurrences) rfl) ?_
        rw [occurrences_group]
        exact rowOccurrences_append_ne_zero hoccurrences m

/-- Opening a group at the start of a row changes the tree, if an operator of the group binds looser
than the operator behind it. -/
theorem group_ne_of_opened_first {g b : Operand α letter} (hg : g.negative = false)
    (hoccurrences : g.tree.occurrences ≠ 0) {l r : List (Link α letter)} {y z : Link α letter}
    (hy : IsLoosest l y r) (hz : z.level < y.level) (xs : List (Link α letter)) :
    (group g (z :: xs)).skeleton ≠ (group b (l ++ y :: r ++ z :: xs)).skeleton := by
  generalize hzs : z :: xs = zs
  induction g, zs using row_induction generalizing xs with
  | single g => cases hzs
  | split g l' x r' hx ihl _ =>
    have hunder : g.under x.op = g := Operand.under_of_signs (by simp [Operand.signs, hg])
    have hsigns : g.signs x.op = false := by simp [Operand.signs, hg]
    by_cases hlevel : x.level < y.level
    · have hrest : ∀ w ∈ l' ++ x :: r', w.level < y.level := fun w hw =>
        (hx.level_le w hw).trans_lt hlevel
      have hy' : IsLoosest l y (r ++ (l' ++ x :: r')) :=
        ⟨hy.before, List.forall_mem_append.mpr ⟨hy.after, hrest⟩⟩
      rw [List.append_assoc, List.cons_append, hx.group_eq, hy'.group_eq]
      intro h
      obtain ⟨-, hop, -⟩ := Expr.eq_of_skeleton_apply2 h
      exact hlevel.ne (Link.level_eq_of_op hop)
    · have hle : y.level ≤ x.level := Nat.le_of_not_lt hlevel
      rcases List.cons_eq_append_iff.mp hzs with ⟨rfl, hcons⟩ | ⟨m, rfl, rfl⟩
      · cases hcons
        exact absurd hz hlevel
      · have hx' : IsLoosest (l ++ y :: r ++ z :: m) x r' :=
          ⟨List.forall_mem_append.mpr ⟨fun w hw => (hy.level_le w hw).trans hle, hx.before⟩,
            hx.after⟩
        have hrow : l ++ y :: r ++ (z :: m ++ x :: r') = (l ++ y :: r ++ z :: m) ++ x :: r' := by
          simp
        rw [hrow, hx.group_eq, hx'.group_eq, hsigns]
        cases hsigns' : b.signs x.op with
        | true =>
          intro h
          obtain ⟨hsame, -⟩ := Expr.eq_of_skeleton_apply2 h
          cases hsame
        | false =>
          rw [hunder] at ihl
          rw [Operand.under_of_signs hsigns', hunder]
          refine Expr.skeleton_ne_of_left (ihl hg hoccurrences m rfl) ?_
          rw [occurrences_group]
          exact rowOccurrences_ne_zero hoccurrences _

/-- A difference between two rows is seen behind an operator that binds looser than theirs. -/
theorem group_ne_behind {x x' : Link α letter} {bs bs' : List (Link α letter)} (hop : x.op = x'.op)
    (hbs : ∀ w ∈ bs, w.level < x.level) (hbs' : ∀ w ∈ bs', w.level < x.level)
    (hoccurrences : rowOccurrences x.operand bs ≠ 0)
    (h : ∀ xs, (group x.operand (bs ++ xs)).skeleton ≠ (group x'.operand (bs' ++ xs)).skeleton)
    (a : Operand α letter) (l xs : List (Link α letter)) :
    (group a (l ++ x :: (bs ++ xs))).skeleton ≠ (group a (l ++ x' :: (bs' ++ xs))).skeleton := by
  have hlevel : x'.level = x.level := Link.level_eq_of_op hop.symm
  have hmore := rowOccurrences_append_ne_zero hoccurrences
  have hrow (c : Operand α letter) (m ys : List (Link α letter)) :
      (group c (m ++ x :: (bs ++ ys))).occurrences ≠ 0 := by
    rw [occurrences_group]
    exact rowOccurrences_split_ne_zero (hmore ys) c m
  generalize hzs : l ++ x :: xs = zs
  induction a, zs using row_induction generalizing l xs with
  | single a => simp at hzs
  | split a l' y r hy ihl ihr =>
    rcases split_cons hzs.symm with ⟨m, rfl, rfl⟩ | ⟨rfl, rfl, rfl⟩ | ⟨m, rfl, rfl⟩
    · have hx : x.level < y.level := hy.after x (by simp)
      have hloosest := hy.replace_after rfl fun w hw => (hbs w hw).trans hx
      have hloosest' := hy.replace_after hlevel fun w hw => (hbs' w hw).trans hx
      rw [List.append_assoc, List.append_assoc, List.cons_append, List.cons_append,
        hloosest.group_eq, hloosest'.group_eq]
      exact Expr.skeleton_ne_of_right (ihr m xs rfl) (hrow _ _ _)
    · have hloosest : IsLoosest l' y (bs ++ r) :=
        ⟨hy.before, List.forall_mem_append.mpr ⟨hbs, hy.after⟩⟩
      have hloosest' : IsLoosest l' x' (bs' ++ r) := by
        constructor <;> rw [hlevel]
        · exact hy.before
        · exact List.forall_mem_append.mpr ⟨hbs', hy.after⟩
      rw [hloosest.group_eq, hloosest'.group_eq]
      refine Expr.skeleton_ne_of_right (h r) ?_
      rw [occurrences_group]
      exact hmore r
    · have hx : x.level ≤ y.level := hy.before x (by simp)
      have hloosest := hy.replace_before rfl fun w hw => (hbs w hw).le.trans hx
      have hloosest' := hy.replace_before hlevel fun w hw => (hbs' w hw).le.trans hx
      have hsplit (w : Link α letter) (ws : List (Link α letter)) :
          l ++ w :: (ws ++ (m ++ y :: r)) = (l ++ w :: (ws ++ m)) ++ y :: r := by simp
      rw [hsplit, hsplit, hloosest.group_eq, hloosest'.group_eq]
      exact Expr.skeleton_ne_of_left (ihl l m rfl) (hrow _ _ _)

/-- If the variable does not stand on the left of the operator that a group is grouped around, the
way to it is shorter by one turn on the right of that operator, whatever follows there. -/
theorem IsLoosest.turns_group {b : Operand α letter} {l r : List (Link α letter)}
    {y : Link α letter} (hy : IsLoosest l y r) (hl : rowOccurrences b l = 0)
    (hoccurrences : rowOccurrences b (l ++ y :: r) ≠ 0) (xs : List (Link α letter)) :
    (group b (l ++ y :: r)).turns = (group y.operand (r ++ xs)).turns + 1 := by
  have hr : rowOccurrences y.operand r ≠ 0 := by
    rwa [rowOccurrences_split, hl, Nat.zero_add] at hoccurrences
  rw [hy.group_eq, Expr.turns_negateIf,
    Expr.turns_apply2_right _ (by simpa using hl) (by simpa using hr), turns_group_append hr]

/-- An opened group in a row whose other operators do not bind looser leaves the row grouped around
the loosest operator of the group. -/
theorem IsLoosest.group_opened {b : Link α letter} {l r : List (Link α letter)} {y : Link α letter}
    (hy : IsLoosest l y r) (hb : b.level ≤ y.level) {ws xs : List (Link α letter)}
    (hws : ∀ w ∈ ws, w.level ≤ y.level) (hxs : ∀ w ∈ xs, w.level < y.level)
    (c : Operand α letter) :
    group c (ws ++ b :: (l ++ y :: r ++ xs)) =
      (Expr.apply2 y.op (group (c.under y.op) (ws ++ b :: l))
        (group y.operand (r ++ xs))).negateIf (c.signs y.op) := by
  have hloosest : IsLoosest (ws ++ b :: l) y (r ++ xs) :=
    ⟨List.forall_mem_append.mpr ⟨hws, List.forall_mem_cons.mpr ⟨hb, hy.before⟩⟩,
      List.forall_mem_append.mpr ⟨hy.after, hxs⟩⟩
  rw [← hloosest.group_eq]
  simp

/-- Opening a group behind an operator changes the tree, if an operator of the group does not bind
tighter than the operator before it. -/
theorem group_ne_of_opened_behind {g b : Link α letter} (hop : g.op = b.op)
    {l r : List (Link α letter)} {y : Link α letter}
    (htree : g.operand.tree = group b.operand (l ++ y :: r)) (hy : IsLoosest l y r)
    (hlevel : g.level ≤ y.level) (hoccurrences : g.operand.tree.occurrences ≠ 0)
    (a : Operand α letter) (ws xs : List (Link α letter)) :
    (group a (ws ++ g :: xs)).skeleton ≠ (group a (ws ++ b :: (l ++ y :: r ++ xs))).skeleton := by
  have hsame : b.level = g.level := Link.level_eq_of_op hop.symm
  have hoperand := rowOccurrences_ne_zero hoccurrences
  have hrow (ys : List (Link α letter)) := rowOccurrences_split_ne_zero (hoperand ys)
  have hway (hl : rowOccurrences b.operand l = 0) (ys : List (Link α letter)) :
      g.operand.tree.turns = (group y.operand (r ++ ys)).turns + 1 := by
    rw [htree]
    refine hy.turns_group hl ?_ ys
    rwa [htree, occurrences_group] at hoccurrences
  have hopened {ws xs : List (Link α letter)} (hws : ∀ w ∈ ws, w.level ≤ y.level)
      (hxs : ∀ w ∈ xs, w.level < y.level) := hy.group_opened (hsame ▸ hlevel) hws hxs
  generalize hzs : ws ++ g :: xs = zs
  induction a, zs using row_induction generalizing ws xs with
  | single a => simp at hzs
  | split a l' x r' hx ihl ihr =>
    by_cases hlt : x.level < y.level
    · have hall : ∀ w ∈ ws ++ g :: xs, w.level < y.level := fun w hw =>
        (hx.level_le w (hzs ▸ hw)).trans_lt hlt
      obtain ⟨hws, hrest⟩ := List.forall_mem_append.mp hall
      rw [hx.group_eq, hopened (fun w hw => (hws w hw).le) (List.forall_mem_cons.mp hrest).2]
      intro h
      obtain ⟨-, hop, -⟩ := Expr.eq_of_skeleton_apply2 h
      exact hlt.ne (Link.level_eq_of_op hop)
    · have hle : y.level ≤ x.level := Nat.le_of_not_lt hlt
      rcases split_cons hzs.symm with ⟨m, rfl, rfl⟩ | ⟨rfl, rfl, rfl⟩ | ⟨m, rfl, rfl⟩
      · have hsplit (v : List (Link α letter)) : l' ++ x :: m ++ v = l' ++ x :: (m ++ v) := by simp
        rcases hle.eq_or_lt with heq | hgt
        · have hws : ∀ w ∈ l' ++ x :: m, w.level ≤ y.level := fun w hw => by
            rw [heq]
            exact hx.level_le w (hsplit (g :: xs) ▸ List.mem_append_left _ hw)
          have hxs : ∀ w ∈ xs, w.level < y.level := fun w hw => by
            rw [heq]
            exact hx.after w (by simp [hw])
          rw [hopened hws hxs, hsplit, hx.group_eq]
          refine Expr.skeleton_ne_of_turns (fun hcount => ?_) (by simpa using hrow _ _ _)
          simp only [occurrences_group, rowOccurrences_under, rowOccurrences_split] at hcount
          have hm : rowOccurrences x.operand m = 0 := by omega
          have hlong := turns_le_turns_group (r := xs) hm hoccurrences
          rw [hway (by omega) xs] at hlong
          exact (Nat.lt_of_succ_le hlong).ne'
        · have hloosest := hx.replace_after hsame fun w hw => (hy.level_le w hw).trans_lt hgt
          rw [hsplit, hx.group_eq, hloosest.group_eq]
          exact Expr.skeleton_ne_of_right (ihr m xs rfl) (by simpa using hrow _ _ _)
      · have heq : y.level = x.level := hle.antisymm hlevel
        rw [hopened (fun w hw => heq ▸ hx.before w hw) (fun w hw => heq ▸ hx.after w hw),
          hx.group_eq]
        refine Expr.skeleton_ne_of_turns (fun hcount => ?_) (by simpa using hoperand r')
        simp only [occurrences_group, rowOccurrences_under, rowOccurrences_split] at hcount
        rw [turns_group_of_first hoccurrences, hway (by omega) r']
        exact Nat.succ_ne_self _
      · have hloosest := hx.replace_before hsame fun w hw => (hy.level_le w hw).trans hle
        have hsplit : ws ++ b :: (l ++ y :: r ++ (m ++ x :: r')) =
          (ws ++ b :: (l ++ y :: r ++ m)) ++ x :: r' := by simp
        rw [hsplit, hx.group_eq, hloosest.group_eq]
        exact Expr.skeleton_ne_of_left (ihl ws m rfl) (by simpa using hrow _ _ _)

end Univariate
