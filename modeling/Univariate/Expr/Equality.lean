import Univariate.Expr.Basic

/-!
# Equality of trees

Trees are compared node by node, signs included, except that constant trees are compared by their
values whatever their shapes: `2 + 3` equals `5`, but `x + 1` does not equal `1 + x`.
-/

namespace Univariate.Expr

variable {α : Type} [Scalar α]

/-- Whether the tree is constant and its value compares equal to a number. -/
def isNumber (t : Expr α) (a : α) : Bool := t.constant?.any (Scalar.equal · a)

/-- Whether two trees are equal: by value if one of them is constant, otherwise node by node. -/
def equal (s t : Expr α) : Bool :=
  match s.constant?, t.constant? with
  | some a, some b => Scalar.equal a b
  | some _, none | none, some _ => false
  | none, none =>
    match s, t with
    | .var m, .var n => m == n
    | .unary m f a, .unary n g b => m == n && f == g && a.equal b
    | .binary m f a b, .binary n g c d => m == n && f == g && a.equal c && b.equal d
    | _, _ => false

/-- Trees are equal if they are constants of equal value, or the same node over equal operands and
not constant. -/
inductive Equal : Expr α → Expr α → Prop
  | constant {s t : Expr α} {a b : α} (hs : s.constant? = some a) (ht : t.constant? = some b)
      (hequal : Scalar.equal a b = true) : Equal s t
  | var (negative : Bool) : Equal (.var negative) (.var negative)
  | unary {negative : Bool} {op : UnaryOp} {s t : Expr α}
      (hs : (Expr.unary negative op s).constant? = none)
      (ht : (Expr.unary negative op t).constant? = none) (hst : Equal s t) :
      Equal (.unary negative op s) (.unary negative op t)
  | binary {negative : Bool} {op : BinaryOp} {l r l' r' : Expr α}
      (hs : (Expr.binary negative op l r).constant? = none)
      (ht : (Expr.binary negative op l' r').constant? = none) (hl : Equal l l') (hr : Equal r r') :
      Equal (.binary negative op l r) (.binary negative op l' r')

/-- The comparison decides the relation. -/
theorem equal_iff {s t : Expr α} : s.equal t = true ↔ Equal s t := by
  constructor
  · intro h
    fun_induction equal s t with
    | case1 s t a b hb ha => exact .constant ha hb h
    | case2 => cases h
    | case3 => cases h
    | case4 m n =>
      rw [beq_iff_eq] at h
      subst h
      exact .var m
    | case5 m f a n g b ha hb ih =>
      simp only [Bool.and_eq_true, beq_iff_eq] at h
      obtain ⟨⟨rfl, rfl⟩, hequal⟩ := h
      exact .unary ha hb (ih hequal)
    | case6 m f l r n g l' r' hs ht ihl ihr =>
      simp only [Bool.and_eq_true, beq_iff_eq] at h
      obtain ⟨⟨⟨rfl, rfl⟩, hleft⟩, hright⟩ := h
      exact .binary hs ht (ihl hleft) (ihr hright)
    | case7 => cases h
  · intro h
    induction h with
    | constant hs ht hequal =>
      unfold equal
      rw [hs, ht]
      exact hequal
    | var negative => exact beq_self_eq_true negative
    | unary hs ht _ ih => simp [equal, hs, ht, ih]
    | binary hs ht _ _ ihl ihr => simp [equal, hs, ht, ihl, ihr]

end Univariate.Expr
