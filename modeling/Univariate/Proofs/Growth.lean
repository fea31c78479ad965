import Mathlib.Logic.Relation
import Univariate.Proofs.Obtained

/-!
# How large simplification makes a tree

A rule takes a node apart and uses each part at most once, so that nothing is copied. What it builds
has no more nodes than the node that it replaces, except that a root becomes a power with a quotient
for its exponent, which is two nodes more. No rule builds a root. The number of nodes plus two for
every root is therefore lowered or kept by every rule, by every run, and by any number of runs.
-/

namespace Univariate

variable {α : Type}

namespace Expr

/-- The number of roots in the tree. -/
def roots : Expr α → Nat
  | .var _ | .num _ _ => 0
  | .unary _ _ operand => operand.roots
  | .binary _ op left right => left.roots + right.roots + if op = .root then 1 else 0

/-- The number of places where the variable stands in the tree. A copy of a subtree that depends on
the variable raises it. -/
def occurrences : Expr α → Nat
  | .var _ => 1
  | .num _ _ => 0
  | .unary _ _ operand => operand.occurrences
  | .binary _ _ left right => left.occurrences + right.occurrences

/-- The number of nodes, with two more for each root. -/
def extent (t : Expr α) : Nat := t.size + 2 * t.roots

/-- A tree takes no more room than another, and has the variable in no more places. -/
structure NoLarger (s t : Expr α) : Prop where
  extent_le : s.extent ≤ t.extent
  occurrences_le : s.occurrences ≤ t.occurrences

/-- A tree is no larger than itself. -/
theorem NoLarger.refl (t : Expr α) : NoLarger t t := ⟨Nat.le_refl _, Nat.le_refl _⟩

/-- Being no larger is transitive. -/
theorem NoLarger.trans {s t u : Expr α} (hst : NoLarger s t) (htu : NoLarger t u) :
    NoLarger s u :=
  ⟨Nat.le_trans hst.extent_le htu.extent_le, Nat.le_trans hst.occurrences_le htu.occurrences_le⟩

/-- A tree takes at least the room of its nodes. -/
theorem size_le_extent (t : Expr α) : t.size ≤ t.extent := Nat.le_add_right _ _

/-- Every tree takes some room. -/
theorem extent_pos (t : Expr α) : 0 < t.extent := by
  cases t <;> simp only [extent, size] <;> omega

/-- A number takes no more room than any tree. -/
theorem num_noLarger (negative : Bool) (magnitude : α) (t : Expr α) :
    NoLarger (.num negative magnitude) t :=
  ⟨t.extent_pos, Nat.zero_le _⟩

/-- The flag of the root takes no room. -/
theorem withNegative_noLarger (negative : Bool) (t : Expr α) :
    NoLarger (t.withNegative negative) t := by
  cases t <;> exact ⟨Nat.le_refl _, Nat.le_refl _⟩

/-- A function takes one more than the room of its operand. -/
theorem extent_unary (negative : Bool) (op : UnaryOp) (a : Expr α) :
    (unary negative op a).extent = a.extent + 1 := by
  simp only [extent, size, roots]
  omega

/-- An operation takes one more than the room of its operands, and a root three more. -/
theorem extent_binary (negative : Bool) (op : BinaryOp) (a b : Expr α) :
    (binary negative op a b).extent = a.extent + b.extent + if op = .root then 3 else 1 := by
  simp only [extent, size, roots]
  split <;> omega

/-- A function of an operand that is no larger is no larger. -/
theorem NoLarger.unary {a a' : Expr α} (m n : Bool) (op : UnaryOp) (h : NoLarger a' a) :
    NoLarger (.unary m op a') (.unary n op a) := by
  refine ⟨?_, h.occurrences_le⟩
  rw [extent_unary, extent_unary]
  exact Nat.succ_le_succ h.extent_le

/-- An operation on operands that are no larger is no larger. -/
theorem NoLarger.binary {a a' b b' : Expr α} (m n : Bool) (op : BinaryOp) (ha : NoLarger a' a)
    (hb : NoLarger b' b) : NoLarger (.binary m op a' b') (.binary n op a b) := by
  refine ⟨?_, Nat.add_le_add ha.occurrences_le hb.occurrences_le⟩
  rw [extent_binary, extent_binary]
  exact Nat.add_le_add_right (Nat.add_le_add ha.extent_le hb.extent_le) _

/-- An operand takes no more room than the node. -/
theorem operand_noLarger (negative : Bool) (op : UnaryOp) (a : Expr α) :
    NoLarger a (.unary negative op a) := by
  refine ⟨?_, Nat.le_refl _⟩
  rw [extent_unary]
  exact Nat.le_succ _

/-- An operand takes no more room than the node. -/
theorem left_noLarger (negative : Bool) (op : BinaryOp) (a b : Expr α) :
    NoLarger a (.binary negative op a b) := by
  refine ⟨?_, Nat.le_add_right _ _⟩
  rw [extent_binary]
  omega

/-- An operand takes no more room than the node. -/
theorem right_noLarger (negative : Bool) (op : BinaryOp) (a b : Expr α) :
    NoLarger b (.binary negative op a b) := by
  refine ⟨?_, Nat.le_add_left _ _⟩
  rw [extent_binary]
  omega

end Expr

variable [Scalar α]

namespace Expr

/-- A number takes the room of one node. -/
theorem extent_ofNumber (a : α) : (ofNumber a).extent = 1 := rfl

/-- Folding puts a leaf in the place of a constant tree. -/
theorem folded_noLarger (t : Expr α) : NoLarger t.folded t := by
  unfold folded
  split
  · exact .refl t
  · split
    · exact num_noLarger _ _ t
    · exact .refl t

/-- Folding the operands of an operation makes it no larger. -/
theorem apply2_noLarger (negative : Bool) (op : BinaryOp) (s t : Expr α) :
    NoLarger (apply2 op s t) (.binary negative op s t) :=
  .binary _ _ op (folded_noLarger s) (folded_noLarger t)

/-- Moving the signs of the operands to an operation makes it no larger. -/
theorem hoistSigns_noLarger (negative : Bool) (op : BinaryOp) (s t : Expr α) :
    NoLarger (hoistSigns op s t) (.binary negative op s t) :=
  (withNegative_noLarger _ _).trans <| (apply2_noLarger negative op _ _).trans <|
    .binary _ _ op (withNegative_noLarger _ _) (withNegative_noLarger _ _)

end Expr

namespace Rewrites

variable {s t : Expr α}

/-- What a rule makes of a node takes no more room than the node. -/
theorem noLarger (h : Rewrites t s) : s.NoLarger t := by
  induction h with
  | number t a => exact Expr.num_noLarger _ _ t
  | left negative op l r => exact Expr.left_noLarger _ _ _ _
  | right negative op l r => exact Expr.right_noLarger _ _ _ _
  | quotient negative l r =>
    exact (Expr.apply2_noLarger negative _ _ _).trans <|
      .binary _ _ _ (Expr.withNegative_noLarger _ l) (Expr.withNegative_noLarger _ r)
  | inverse negative l r =>
    refine (Expr.hoistSigns_noLarger false .division _ l).trans ⟨?_, ?_⟩
    · have hr := r.extent_pos
      simp only [Expr.extent_binary, Expr.extent_ofNumber, reduceCtorEq, if_false]
      omega
    · simp only [Expr.occurrences, Expr.ofNumber]
      omega
  | factor negative a b r =>
    refine (Expr.hoistSigns_noLarger false .multiplication b _).trans <|
      (Expr.NoLarger.binary false false _ (.refl b) (Expr.apply2_noLarger false _ a r)).trans
        ⟨?_, ?_⟩
    · simp only [Expr.extent_binary, reduceCtorEq, if_false]
      omega
    · simp only [Expr.occurrences]
      omega
  | divisor negative l a b =>
    refine (Expr.hoistSigns_noLarger false .division _ b).trans <|
      (Expr.NoLarger.binary false false _ (Expr.apply2_noLarger false _ l a) (.refl b)).trans
        ⟨?_, ?_⟩
    · simp only [Expr.extent_binary, reduceCtorEq, if_false]
      omega
    · simp only [Expr.occurrences]
      omega
  | power negative l r =>
    -- the two nodes that a root may grow by
    refine (Expr.apply2_noLarger false .power l _).trans <|
      (Expr.NoLarger.binary false false _ (.refl l) (Expr.hoistSigns_noLarger false _ _ r)).trans
        ⟨?_, ?_⟩
    · simp only [Expr.extent_binary, Expr.extent_ofNumber, reduceCtorEq, if_true, if_false]
      omega
    · simp only [Expr.occurrences, Expr.ofNumber]
      omega
  | withNegative negative _ ih => exact (Expr.withNegative_noLarger _ _).trans ih

end Rewrites

/-- Folding a constant tree makes it no larger. -/
theorem foldConstant?_noLarger [DecidableEq α] {d : Decimals} {t r : Expr α} {steps : List Step}
    (h : foldConstant? d t = some (r, steps)) : r.NoLarger t := by
  obtain ⟨a, -, hleaf⟩ := Option.map_eq_some_iff.mp h
  obtain ⟨negative, magnitude, ha⟩ := exists_roundedLeaf_eq d a
  cases hleaf
  rw [ha]
  exact Expr.num_noLarger _ _ t

variable [DecidableEq α] {d : Decimals} {s t r : Expr α} {steps : List Step}

omit [DecidableEq α] in
/-- Folding the operands of a node keeps the bound that simplifying them has. -/
theorem Expr.binary_folded_noLarger {a a' b b' : Expr α} (negative : Bool) (op : BinaryOp)
    (ha : a'.NoLarger a) (hb : b'.NoLarger b) :
    (Expr.binary negative op a'.folded b'.folded).NoLarger (.binary negative op a b) :=
  .binary _ _ op ((folded_noLarger _).trans ha) ((folded_noLarger _).trans hb)

/-- No run makes a tree larger. -/
theorem Simplifies.noLarger (h : Simplifies d t r steps) : r.NoLarger t := by
  induction h with
  | constant hfold => exact foldConstant?_noLarger hfold
  | var d negative => exact .refl _
  | unaryConstant _ _ hagain ih => exact (foldConstant?_noLarger hagain).trans (.unary _ _ _ ih)
  | unary _ _ _ ih => exact .unary _ _ _ ih
  | binaryConstant _ _ _ hagain iha ihb =>
    exact (foldConstant?_noLarger hagain).trans (Expr.binary_folded_noLarger _ _ iha ihb)
  | binary _ _ _ _ _ iha ihb => exact Expr.binary_folded_noLarger _ _ iha ihb
  | replaced _ _ _ _ hrule _ _ iha ihb ihfinal =>
    have hreduct := (Rule.all_rewrites _ _ hrule).noLarger
    exact (ihfinal.trans hreduct).trans (Expr.binary_folded_noLarger _ _ iha ihb)
  | rebuilt _ _ _ _ hrule _ _ _ iha ihb ihwhole ihfinal =>
    have hreduct := (Rule.all_rewrites _ _ hrule).noLarger
    exact (ihfinal.trans (ihwhole.trans hreduct)).trans
      (Expr.binary_folded_noLarger _ _ iha ihb)

/-- A rule that applies after the operands have been simplified makes the tree no larger. -/
theorem Fires.noLarger {reduct : Reduct α} (h : Fires d t reduct) : reduct.tree.NoLarger t := by
  obtain ⟨-, ha, hb, -, hrule⟩ := h
  exact (Rule.all_rewrites _ _ hrule).noLarger.trans
    (Expr.binary_folded_noLarger _ _ ha.noLarger hb.noLarger)

/-- No call is made for a larger tree than the call that waits for it. -/
theorem Calls.noLarger {inner outer : Decimals × Expr α} (h : Calls inner outer) :
    inner.2.NoLarger outer.2 := by
  cases h with
  | operand => exact Expr.operand_noLarger _ _ _
  | left => exact Expr.left_noLarger _ _ _ _
  | right => exact Expr.right_noLarger _ _ _ _
  | replaced hfires => exact hfires.noLarger
  | rebuilt hfires => exact hfires.noLarger
  | whole hfires _ hwhole => exact hwhole.noLarger.trans hfires.noLarger

/-- However deep the calls are nested, none of them is made for a larger tree. -/
theorem noLarger_of_reflTransGen_calls {inner outer : Decimals × Expr α}
    (h : Relation.ReflTransGen Calls inner outer) : inner.2.NoLarger outer.2 := by
  induction h with
  | refl => exact .refl _
  | tail _ hcall ih => exact ih.trans hcall.noLarger

namespace Expr

variable [LawfulScalar α]

/-- A simplified tree is no larger. -/
theorem simplify_noLarger (t : Expr α) (d : Decimals) : (t.simplify d).NoLarger t :=
  (simplifies_iff.mpr rfl : Simplifies d t (t.simplify d) (t.simplifyWithSteps d).2).noLarger

/-- Simplifying again and again, to any precisions, makes no tree larger. -/
theorem foldl_simplify_noLarger (ds : List Decimals) (t : Expr α) :
    (ds.foldl simplify t).NoLarger t := by
  induction ds generalizing t with
  | nil => exact .refl t
  | cons d ds ih => exact (ih (t.simplify d)).trans (t.simplify_noLarger d)

/-- A simplified tree has at most two nodes more for each root, and none more without a root. No
rule uses a part of a node twice, and neither a call inside of the simplification, however deep it
is nested, nor simplifying again and again leaves a larger tree. -/
theorem size_simplify_le (t : Expr α) (d : Decimals) :
    (t.simplify d).size ≤ t.size + 2 * t.roots ∧
      (t.roots = 0 → (t.simplify d).size ≤ t.size) ∧
      (∀ rule ∈ Rule.published, ∀ r, rule t = some r → Rewrites t r.tree ∧ r.tree.NoLarger t) ∧
      (∀ call, Relation.ReflTransGen Calls call (d, t) → call.2.NoLarger t) ∧
      ∀ ds : List Decimals, (ds.foldl simplify t).NoLarger t := by
  have hsize : (t.simplify d).size ≤ t.size + 2 * t.roots :=
    (size_le_extent _).trans (t.simplify_noLarger d).extent_le
  refine ⟨hsize, fun hroots => ?_, fun rule hmem r hr => ?_,
    fun call hcall => noLarger_of_reflTransGen_calls hcall, fun ds => foldl_simplify_noLarger ds t⟩
  · rwa [hroots, Nat.mul_zero, Nat.add_zero] at hsize
  · have hrewrites := Rule.isRewriting_of_mem_published rule hmem t r hr
    exact ⟨hrewrites, hrewrites.noLarger⟩

/-- The root in `nrt(x; x)` adds two nodes to the tree, and nothing can add more. -/
theorem size_simplify_le_root :
    let root : Expr Float := .binary false .root (.var false) (.var false)
    let power : Expr Float :=
      .binary false .power (.var false) (.binary false .division (.num false 1) (.var false))
    root.simplify .unrounded = power ∧ power.size = root.size + 2 * root.roots ∧
      ∀ ds : List Decimals, (ds.foldl simplify root).NoLarger root := by
  intro root power
  have hvar : Simplifies .unrounded (.var false : Expr Float) (.var false) [] := .var _ false
  have hone : Simplifies .unrounded (.num false 1 : Expr Float) (.num false 1) [] := .constant rfl
  have hinverse : Simplifies .unrounded
      (.binary false .division (.num false 1) (.var false) : Expr Float)
      (.binary false .division (.num false 1) (.var false)) [] := .binary rfl hone hvar rfl rfl
  have hpower : Simplifies .unrounded power power [] := .binary rfl hvar hinverse rfl rfl
  have hrule : Rule.all root = some ⟨.rootAsPower, power⟩ := rfl
  have hroot : Simplifies .unrounded root power [.rootAsPower] :=
    .rebuilt rfl hvar hvar rfl hrule rfl hpower hpower
  have hsimplify : root.simplify .unrounded = power :=
    congrArg Prod.fst hroot.eq_simplifyWithSteps
  obtain ⟨-, -, -, -, hagain⟩ := size_simplify_le root .unrounded
  exact ⟨hsimplify, rfl, hagain⟩

end Expr

end Univariate
