import Univariate.Double
import Univariate.Simplify.Basic

/-!
# Runs of the simplification

The recursion of the simplification is written down call by call, without taking for granted that it
comes to an end: a finished run is a derivation with one premise for every call that it waits for,
and the calls that a call waits for are a relation of their own. The recursion is nested, since what
a run leaves can be simplified again. Every call is made for a lighter tree, so that every chain of
calls ends and every tree has one run. Facts about simplified trees follow by induction on the run.
-/

namespace Univariate

variable {α : Type} [Scalar α] [DecidableEq α]

/-- The simplification of a tree to a precision has come to an end with a tree and the steps taken.
-/
inductive Simplifies : Decimals → Expr α → Expr α → List Step → Prop
  | constant {d : Decimals} {t r : Expr α} {steps : List Step}
      (hfold : foldConstant? d t = some (r, steps)) : Simplifies d t r steps
  | var (d : Decimals) (negative : Bool) : Simplifies d (.var negative) (.var negative) []
  | unaryConstant {d : Decimals} {negative : Bool} {op : UnaryOp} {a a' r : Expr α}
      {ss more : List Step} (hfold : foldConstant? d (.unary negative op a) = none)
      (ha : Simplifies d a a' ss)
      (hagain : foldConstant? d (.unary negative op a') = some (r, more)) :
      Simplifies d (.unary negative op a) r (ss ++ more)
  | unary {d : Decimals} {negative : Bool} {op : UnaryOp} {a a' : Expr α} {ss : List Step}
      (hfold : foldConstant? d (.unary negative op a) = none) (ha : Simplifies d a a' ss)
      (hagain : foldConstant? d (.unary negative op a') = none) :
      Simplifies d (.unary negative op a) (.unary negative op a') ss
  | binaryConstant {d : Decimals} {negative : Bool} {op : BinaryOp} {a b a' b' r : Expr α}
      {ss ts more : List Step} (hfold : foldConstant? d (.binary negative op a b) = none)
      (ha : Simplifies d a a' ss) (hb : Simplifies d b b' ts)
      (hagain : foldConstant? d (.binary negative op a'.folded b'.folded) = some (r, more)) :
      Simplifies d (.binary negative op a b) r (ss ++ ts ++ more)
  | binary {d : Decimals} {negative : Bool} {op : BinaryOp} {a b a' b' : Expr α}
      {ss ts : List Step} (hfold : foldConstant? d (.binary negative op a b) = none)
      (ha : Simplifies d a a' ss) (hb : Simplifies d b b' ts)
      (hagain : foldConstant? d (.binary negative op a'.folded b'.folded) = none)
      (hrule : Rule.all (.binary negative op a'.folded b'.folded) = none) :
      Simplifies d (.binary negative op a b) (.binary negative op a'.folded b'.folded) (ss ++ ts)
  | replaced {d : Decimals} {negative : Bool} {op : BinaryOp} {a b a' b' r : Expr α}
      {ss ts more : List Step} {reduct : Reduct α}
      (hfold : foldConstant? d (.binary negative op a b) = none)
      (ha : Simplifies d a a' ss) (hb : Simplifies d b b' ts)
      (hagain : foldConstant? d (.binary negative op a'.folded b'.folded) = none)
      (hrule : Rule.all (.binary negative op a'.folded b'.folded) = some reduct)
      (hstep : reduct.step.isRebuilding = false) (hfinal : Simplifies d reduct.tree r more) :
      Simplifies d (.binary negative op a b) r (ss ++ ts ++ reduct.step :: more)
  | rebuilt {d : Decimals} {negative : Bool} {op : BinaryOp} {a b a' b' whole r : Expr α}
      {ss ts us more : List Step} {reduct : Reduct α}
      (hfold : foldConstant? d (.binary negative op a b) = none)
      (ha : Simplifies d a a' ss) (hb : Simplifies d b b' ts)
      (hagain : foldConstant? d (.binary negative op a'.folded b'.folded) = none)
      (hrule : Rule.all (.binary negative op a'.folded b'.folded) = some reduct)
      (hstep : reduct.step.isRebuilding = true)
      (hwhole : Simplifies .unrounded reduct.tree whole us) (hfinal : Simplifies d whole r more) :
      Simplifies d (.binary negative op a b) r (ss ++ ts ++ reduct.step :: (us ++ more))

/-- The rule that applies to a node once its operands have been simplified, with the tree that it
builds. -/
inductive Fires (d : Decimals) : Expr α → Reduct α → Prop
  | intro {negative : Bool} {op : BinaryOp} {a b a' b' : Expr α} {ss ts : List Step}
      {reduct : Reduct α} (hfold : foldConstant? d (.binary negative op a b) = none)
      (ha : Simplifies d a a' ss) (hb : Simplifies d b b' ts)
      (hagain : foldConstant? d (.binary negative op a'.folded b'.folded) = none)
      (hrule : Rule.all (.binary negative op a'.folded b'.folded) = some reduct) :
      Fires d (.binary negative op a b) reduct

/-- One call of the simplification waits for another: `Calls inner outer`, each with its precision
and its tree. -/
inductive Calls : Decimals × Expr α → Decimals × Expr α → Prop
  | operand {d : Decimals} {negative : Bool} {op : UnaryOp} {a : Expr α}
      (hfold : foldConstant? d (.unary negative op a) = none) : Calls (d, a) (d, .unary negative op a)
  | left {d : Decimals} {negative : Bool} {op : BinaryOp} {a b : Expr α}
      (hfold : foldConstant? d (.binary negative op a b) = none) :
      Calls (d, a) (d, .binary negative op a b)
  | right {d : Decimals} {negative : Bool} {op : BinaryOp} {a b : Expr α}
      (hfold : foldConstant? d (.binary negative op a b) = none) :
      Calls (d, b) (d, .binary negative op a b)
  | replaced {d : Decimals} {t : Expr α} {reduct : Reduct α} (hfires : Fires d t reduct)
      (hstep : reduct.step.isRebuilding = false) : Calls (d, reduct.tree) (d, t)
  | rebuilt {d : Decimals} {t : Expr α} {reduct : Reduct α} (hfires : Fires d t reduct)
      (hstep : reduct.step.isRebuilding = true) : Calls (.unrounded, reduct.tree) (d, t)
  | whole {d : Decimals} {t whole : Expr α} {reduct : Reduct α} {us : List Step}
      (hfires : Fires d t reduct) (hstep : reduct.step.isRebuilding = true)
      (hwhole : Simplifies .unrounded reduct.tree whole us) : Calls (d, whole) (d, t)

/-- Exactly the constant trees are folded. -/
theorem foldConstant?_eq_none_iff {d : Decimals} {t : Expr α} :
    foldConstant? d t = none ↔ t.isConstant = false := by
  rw [foldConstant?, Option.map_eq_none_iff, Expr.constant?]
  cases t.isConstant <;> simp

namespace Expr

omit [Scalar α] [DecidableEq α] in
/-- With a flag, the function of an operand is the node with that flag. -/
theorem apply1_withNegative (negative : Bool) (op : UnaryOp) (a : Expr α) :
    (apply1 op a).withNegative negative = .unary negative op a := rfl

omit [DecidableEq α] in
/-- With a flag, the operation on operands is the node with that flag and the folded operands. -/
theorem apply2_withNegative (negative : Bool) (op : BinaryOp) (a b : Expr α) :
    (apply2 op a b).withNegative negative = .binary negative op a.folded b.folded := rfl

end Expr

variable [LawfulScalar α]

namespace Expr

omit [DecidableEq α] in
/-- Folding the operands of a node makes the node no heavier than simplifying them does. -/
theorem binary_folded_noHeavier (negative : Bool) (op : BinaryOp) {a b a' b' : Expr α}
    (ha : a'.NoHeavier a) (hb : b'.NoHeavier b) :
    (binary negative op a'.folded b'.folded).NoHeavier (binary negative op a b) :=
  apply2_withNegative_noHeavier negative op ha hb

end Expr

/-- The tree that a run leaves is no heavier than the one that it started from. -/
theorem Simplifies.noHeavier {d : Decimals} {t r : Expr α} {steps : List Step}
    (h : Simplifies d t r steps) : r.NoHeavier t := by
  induction h with
  | constant hfold => exact foldConstant?_noHeavier hfold
  | var d negative => exact .refl _
  | unaryConstant _ _ hagain ih =>
    exact (foldConstant?_noHeavier hagain).trans (Expr.apply1_withNegative_noHeavier _ _ ih)
  | unary _ _ _ ih => exact Expr.apply1_withNegative_noHeavier _ _ ih
  | binaryConstant _ _ _ hagain iha ihb =>
    exact (foldConstant?_noHeavier hagain).trans (Expr.binary_folded_noHeavier _ _ iha ihb)
  | binary _ _ _ _ _ iha ihb => exact Expr.binary_folded_noHeavier _ _ iha ihb
  | replaced _ _ _ _ hrule _ _ iha ihb ihfinal =>
    have hlighter := Rule.all_lightens _ _ hrule
    exact (ihfinal.trans hlighter.noHeavier).trans (Expr.binary_folded_noHeavier _ _ iha ihb)
  | rebuilt _ _ _ _ hrule _ _ _ iha ihb ihwhole ihfinal =>
    have hlighter := Rule.all_lightens _ _ hrule
    exact (ihfinal.trans (ihwhole.trans hlighter.noHeavier)).trans
      (Expr.binary_folded_noHeavier _ _ iha ihb)

/-- A rule that applies after the operands have been simplified builds a lighter tree. -/
theorem Fires.lighter {d : Decimals} {t : Expr α} {reduct : Reduct α} (h : Fires d t reduct) :
    reduct.tree.Lighter t := by
  obtain ⟨-, ha, hb, -, hrule⟩ := h
  exact (Rule.all_lightens _ _ hrule).trans_noHeavier
    (Expr.binary_folded_noHeavier _ _ ha.noHeavier hb.noHeavier)

/-- Every call is made for a lighter tree than the call that waits for it. -/
theorem Calls.weight_lt {inner outer : Decimals × Expr α} (h : Calls inner outer) :
    inner.2.weight < outer.2.weight := by
  cases h with
  | operand => exact Nat.lt_add_of_pos_right (by decide)
  | left => exact (Expr.lighter_of_left rfl).weight_lt
  | right => exact (Expr.lighter_of_right rfl).weight_lt
  | replaced hfires => exact hfires.lighter.weight_lt
  | rebuilt hfires => exact hfires.lighter.weight_lt
  | whole hfires _ hwhole =>
    exact Nat.lt_of_le_of_lt hwhole.noHeavier.weight_le hfires.lighter.weight_lt

/-- No chain of calls is endless. -/
theorem wellFounded_calls : WellFounded (Calls (α := α)) :=
  Subrelation.wf Calls.weight_lt
    (InvImage.wf (fun call : Decimals × Expr α => call.2.weight) Nat.lt_wfRel.wf)

/-- A tree has no other run than the one that is computed. -/
theorem Simplifies.eq_simplifyWithSteps {d : Decimals} {t r : Expr α} {steps : List Step}
    (h : Simplifies d t r steps) : t.simplifyWithSteps d = (r, steps) := by
  induction h with
  | constant hfold => exact Expr.simplifyWithSteps_of_constant hfold
  | var d negative => exact Expr.simplifyWithSteps_var negative d
  | unaryConstant hfold _ hagain ih =>
    rw [Expr.simplifyWithSteps_unary hfold, ih]
    simp only [Expr.apply1_withNegative, hagain]
  | unary hfold _ hagain ih =>
    rw [Expr.simplifyWithSteps_unary hfold, ih]
    simp only [Expr.apply1_withNegative, hagain]
  | binaryConstant hfold _ _ hagain iha ihb =>
    rw [Expr.simplifyWithSteps_binary hfold, iha, ihb]
    simp only [Expr.apply2_withNegative, hagain]
  | binary hfold _ _ hagain hrule iha ihb =>
    rw [Expr.simplifyWithSteps_binary hfold, iha, ihb]
    simp only [Expr.apply2_withNegative, hagain, Rule.run?, hrule, Option.map_none]
  | replaced hfold _ _ hagain hrule hstep _ iha ihb ihfinal =>
    rw [Expr.simplifyWithSteps_binary hfold, iha, ihb]
    simp [Expr.apply2_withNegative, hagain, Rule.run?, hrule, hstep, ihfinal]
  | rebuilt hfold _ _ hagain hrule hstep _ _ iha ihb ihwhole ihfinal =>
    rw [Expr.simplifyWithSteps] at ihwhole
    rw [Expr.simplifyWithSteps_binary hfold, iha, ihb]
    simp [Expr.apply2_withNegative, hagain, Rule.run?, hrule, hstep, ihwhole, ihfinal]

/-- Every tree has a run. The induction is along the calls that it makes. -/
theorem exists_simplifies (call : Decimals × Expr α) :
    ∃ r steps, Simplifies call.1 call.2 r steps := by
  induction call using (wellFounded_calls (α := α)).induction with
  | h call hcalls =>
    obtain ⟨d, t⟩ := call
    cases hfold : foldConstant? d t with
    | some r => exact ⟨r.1, r.2, .constant hfold⟩
    | none =>
      cases t with
      | var negative => exact ⟨_, _, .var d negative⟩
      | num negative magnitude => cases hfold
      | unary negative op a =>
        obtain ⟨a', ss, ha⟩ := hcalls _ (.operand hfold)
        cases hagain : foldConstant? d (.unary negative op a') with
        | some r => exact ⟨_, _, .unaryConstant hfold ha hagain⟩
        | none => exact ⟨_, _, .unary hfold ha hagain⟩
      | binary negative op a b =>
        obtain ⟨a', ss, ha⟩ := hcalls _ (.left hfold)
        obtain ⟨b', ts, hb⟩ := hcalls _ (.right hfold)
        cases hagain : foldConstant? d (.binary negative op a'.folded b'.folded) with
        | some r => exact ⟨_, _, .binaryConstant hfold ha hb hagain⟩
        | none =>
          cases hrule : Rule.all (.binary negative op a'.folded b'.folded) with
          | none => exact ⟨_, _, .binary hfold ha hb hagain hrule⟩
          | some reduct =>
            have hfires : Fires d (.binary negative op a b) reduct :=
              ⟨hfold, ha, hb, hagain, hrule⟩
            cases hstep : reduct.step.isRebuilding with
            | false =>
              obtain ⟨r, more, hfinal⟩ := hcalls _ (.replaced hfires hstep)
              exact ⟨_, _, .replaced hfold ha hb hagain hrule hstep hfinal⟩
            | true =>
              obtain ⟨whole, us, hwhole⟩ := hcalls _ (.rebuilt hfires hstep)
              obtain ⟨r, more, hfinal⟩ := hcalls _ (.whole hfires hstep hwhole)
              exact ⟨_, _, .rebuilt hfold ha hb hagain hrule hstep hwhole hfinal⟩

/-- The run of a tree is the one that is computed. -/
theorem simplifies_iff {d : Decimals} {t r : Expr α} {steps : List Step} :
    Simplifies d t r steps ↔ t.simplifyWithSteps d = (r, steps) := by
  refine ⟨Simplifies.eq_simplifyWithSteps, fun h => ?_⟩
  obtain ⟨r', steps', hrun⟩ := exists_simplifies (d, t)
  cases h.symm.trans hrun.eq_simplifyWithSteps
  exact hrun

/-- The simplification of a tree comes to an end: no chain of its calls is endless, and it has one
run, which leaves the simplified tree. -/
theorem simplification_terminates (d : Decimals) (t : Expr α) :
    Acc Calls (d, t) ∧
      ∀ r steps, Simplifies d t r steps ↔ t.simplifyWithSteps d = (r, steps) :=
  ⟨wellFounded_calls.apply (d, t), fun _ _ => simplifies_iff⟩

/-- The run on `nrt(x; 2)` simplifies the power that the root becomes twice, first on its own. -/
theorem simplifies_root : Simplifies .unrounded
    (.binary false .root (.var false) (.num false 2) : Expr Float)
    (.binary false .power (.var false) (.num false 0.5)) [.rootAsPower] := by
  have hvar : Simplifies .unrounded (.var false : Expr Float) (.var false) [] := .var _ false
  have htwo : Simplifies .unrounded (.num false 2 : Expr Float) (.num false 2) [] := .constant rfl
  have hhalf : Simplifies .unrounded (.num false 0.5 : Expr Float) (.num false 0.5) [] :=
    .constant rfl
  have hpower : Simplifies .unrounded
      (.binary false .power (.var false) (.num false 0.5) : Expr Float)
      (.binary false .power (.var false) (.num false 0.5)) [] := .binary rfl hvar hhalf rfl rfl
  have hrule : Rule.all (.binary false .root (.var false) (.num false 2) : Expr Float) =
      some ⟨.rootAsPower, .binary false .power (.var false) (.num false 0.5)⟩ := rfl
  exact .rebuilt rfl hvar htwo rfl hrule rfl hpower hpower

/-- The simplification of `nrt(x; 2)` comes to an end with a power. -/
theorem simplification_terminates_root :
    let root : Expr Float := .binary false .root (.var false) (.num false 2)
    Acc Calls (Decimals.unrounded, root) ∧ root.simplifyWithSteps .unrounded =
      (.binary false .power (.var false) (.num false 0.5), [.rootAsPower]) := by
  intro root
  obtain ⟨hacc, hrun⟩ := simplification_terminates .unrounded root
  exact ⟨hacc, (hrun _ _).mp simplifies_root⟩

end Univariate
