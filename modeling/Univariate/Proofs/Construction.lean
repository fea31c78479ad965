import Univariate.Derivative
import Univariate.Expr.Substitution
import Univariate.Proofs.NormalForm
import Univariate.Proofs.Rewriting
import Univariate.Proofs.RoundTrip

/-!
# What the library builds

Every operation on trees comes down to five constructors: the variable, numbers, functions and
operations of trees, and another sign. Reading, substitution, differentiation, simplification and
the single rules take trees apart and put them together again by these constructors, and the
operands of a tree that they build are built by them too. An invariant of all trees therefore has to
be shown of the five constructors only.
-/

namespace Univariate

variable {α : Type} [Scalar α]

namespace Expr.Built

variable {negative : Bool} {s t l r a : Expr α}

/-- Negating a tree that the constructors build is such a tree. -/
theorem neg (ht : t.Built) : (-t).Built := .withNegative _ ht

/-- Without its sign, a tree that the constructors build is such a tree. -/
theorem unsigned (ht : t.Built) : t.unsigned.Built := .withNegative _ ht

/-- The constructors build a tree with its sign changed or kept. -/
theorem negateIf (ht : t.Built) (negate : Bool) : (t.negateIf negate).Built := by
  rw [negateIf_eq]
  exact .withNegative _ ht

/-- Folding a constant tree gives a leaf that the constructors build. -/
theorem folded (ht : t.Built) : t.folded.Built := by
  unfold Expr.folded
  split
  · exact ht
  · split
    · exact .number _
    · exact ht

/-- The operand of a function was built before. -/
theorem operand {op : UnaryOp} (h : (Expr.unary negative op a).Built) : a.Built := by
  generalize ht : Expr.unary negative op a = t at h
  induction h generalizing negative with
  | var | number => cases ht
  | apply1 op ha =>
    cases ht
    exact ha
  | apply2 => cases ht
  | @withNegative _ s hs ih =>
    cases s with
    | unary m op b =>
      cases ht
      exact ih rfl
    | _ => cases ht

/-- The operands of an operation were built before, or are folded. -/
theorem operands {op : BinaryOp} (h : (Expr.binary negative op l r).Built) :
    l.Built ∧ r.Built := by
  generalize ht : Expr.binary negative op l r = t at h
  induction h generalizing negative with
  | var | number => cases ht
  | apply1 => cases ht
  | apply2 op hs ht' =>
    cases ht
    exact ⟨hs.folded, ht'.folded⟩
  | @withNegative _ s hs ih =>
    cases s with
    | binary m op b c =>
      cases ht
      exact ih rfl
    | _ => cases ht

/-- The constructors build the sum of trees that they build. -/
theorem add (hs : s.Built) (ht : t.Built) : (s + t).Built := by
  rw [add_def]
  split
  · exact .apply2 _ hs ht.neg
  · exact .apply2 _ hs ht

/-- The constructors build the difference of trees that they build. -/
theorem sub (hs : s.Built) (ht : t.Built) : (s - t).Built := by
  rw [sub_def]
  split
  · exact .apply2 _ hs ht.neg
  · exact .apply2 _ hs ht

/-- The constructors build an operation whose operands give their signs to it. -/
theorem hoistSigns (op : BinaryOp) (hs : s.Built) (ht : t.Built) : (hoistSigns op s t).Built :=
  .withNegative _ (.apply2 _ hs.unsigned ht.unsigned)

/-- The constructors build the product of trees that they build. -/
theorem mul (hs : s.Built) (ht : t.Built) : (s * t).Built := hs.hoistSigns .multiplication ht

/-- The constructors build the quotient of trees that they build. -/
theorem div (hs : s.Built) (ht : t.Built) : (s / t).Built := hs.hoistSigns .division ht

/-- The constructors build the power of trees that they build. -/
theorem pow (hs : s.Built) (ht : t.Built) : (s.pow t).Built := .apply2 _ hs ht

/-- The constructors build the logarithm of trees that they build. -/
theorem log (hs : s.Built) (ht : t.Built) : (s.log t).Built := .apply2 _ hs ht

/-- The constructors build the natural logarithm of a tree that they build. -/
theorem ln (hs : s.Built) : s.ln.Built := hs.log (.number _)

/-- The constructors build what substitution makes of trees that they build. -/
theorem substitute (hs : s.Built) (ht : t.Built) : (s.substitute t).Built := by
  induction s with
  | var negative => exact ht.negateIf negative
  | num negative magnitude => exact hs
  | unary negative op a ih => exact .withNegative _ (.apply1 _ (ih hs.operand))
  | binary negative op a b iha ihb =>
    obtain ⟨ha, hb⟩ := hs.operands
    exact .withNegative _ (.apply2 _ (iha ha) (ihb hb))

end Expr.Built

/-- A jet of trees that the constructors build. -/
structure Jet.Built (j : Jet α) : Prop where
  tree : j.tree.Built
  slope : j.slope.Built

namespace Jet.Built

variable {f g : Jet α}

/-- The jet of a number is one of leaves. -/
theorem ofNumber (a : α) : (Jet.ofNumber a).Built := ⟨.number _, .number _⟩

/-- The constructors build the derivative in a jet whose trees they build. -/
theorem derivative (hf : f.Built) : f.derivative.Built := by
  unfold Jet.derivative
  split
  · exact .number _
  · exact hf.slope.negateIf _

/-- Folding the tree of a jet keeps it one that the constructors build. -/
theorem folded (hf : f.Built) : f.folded.Built := ⟨hf.tree.folded, hf.slope⟩

/-- The constructors build the trees of a jet without the sign of its tree. -/
theorem unsigned (hf : f.Built) : f.unsigned.Built := ⟨hf.tree.unsigned, hf.slope⟩

/-- The constructors build the slope of a product. -/
theorem productSlope (hf : f.Built) (hg : g.Built) : (f.productSlope g).Built :=
  (hf.derivative.mul hg.tree).add (hf.tree.mul hg.derivative)

/-- The constructors build the trees of the product of two jets. -/
theorem mul (hf : f.Built) (hg : g.Built) : (f.mul g).Built :=
  ⟨hf.tree.mul hg.tree, hf.unsigned.folded.productSlope hg.unsigned.folded⟩

/-- The constructors build the trees of the natural logarithm of a jet. -/
theorem ln (hf : f.Built) : f.ln.Built :=
  ⟨hf.tree.ln, hf.folded.derivative.div hf.folded.tree⟩

/-- The constructors build the slope of a power. -/
theorem powerSlope (hf : f.Built) (hg : g.Built) : (f.powerSlope g).Built := by
  unfold Jet.powerSlope
  split
  · split
    · exact hf.derivative
    · exact ((Expr.Built.number _).mul (hf.tree.pow (.number _))).mul hf.derivative
  · exact (Expr.Built.apply2 _ hf.tree hg.tree).mul (hg.mul hf.ln).derivative

/-- The constructors build the trees of the power of two jets. -/
theorem pow (hf : f.Built) (hg : g.Built) : (f.pow g).Built :=
  ⟨hf.tree.pow hg.tree, hf.folded.powerSlope hg.folded⟩

/-- The constructors build the slope of a quotient. -/
theorem quotientSlope (hf : f.Built) (hg : g.Built) : (f.quotientSlope g).Built :=
  (hf.mul (hg.pow (.ofNumber _))).derivative

/-- The constructors build the trees of the quotient of two jets. -/
theorem div (hf : f.Built) (hg : g.Built) : (f.div g).Built :=
  ⟨hf.tree.div hg.tree, hf.unsigned.folded.quotientSlope hg.unsigned.folded⟩

/-- The constructors build the slope of a logarithm. -/
theorem logarithmSlope (hf : f.Built) (hg : g.Built) : (f.logarithmSlope g).Built := by
  unfold Jet.logarithmSlope
  split
  · exact hf.derivative.div hf.tree
  · exact (hf.ln.div hg.ln).derivative

/-- The constructors build the slope of a root. -/
theorem rootSlope (hf : f.Built) (hg : g.Built) : (f.rootSlope g).Built :=
  (hf.pow ((ofNumber 1).div hg)).derivative

/-- The constructors build the trees of the sine of a jet. -/
theorem sin (hf : f.Built) : f.sin.Built :=
  ⟨.apply1 _ hf.tree, (Expr.Built.apply1 _ hf.tree).mul hf.derivative⟩

/-- The constructors build the trees of the cosine of a jet. -/
theorem cos (hf : f.Built) : f.cos.Built :=
  ⟨.apply1 _ hf.tree, (Expr.Built.apply1 _ hf.tree).neg.mul hf.derivative⟩

/-- The constructors build the slope of an operation on one operand. -/
theorem unarySlope (op : UnaryOp) (hf : f.Built) : (Jet.unarySlope op f).Built := by
  cases op with
  | sine => exact hf.sin.slope
  | cosine => exact hf.cos.slope
  | tangent => exact (hf.sin.div hf.cos).derivative

/-- The constructors build the slope of an operation on two operands. -/
theorem binarySlope (op : BinaryOp) (hf : f.Built) (hg : g.Built) :
    (Jet.binarySlope op f g).Built := by
  cases op with
  | addition => exact hf.derivative.add hg.derivative
  | subtraction => exact hf.derivative.sub hg.derivative
  | multiplication => exact hf.productSlope hg
  | division => exact hf.quotientSlope hg
  | power => exact hf.powerSlope hg
  | logarithm => exact hf.logarithmSlope hg
  | root => exact hf.rootSlope hg

end Jet.Built

/-- The constructors build the trees in the jet of a tree that they build. -/
theorem Expr.Built.jet {t : Expr α} (ht : t.Built) : t.jet.Built := by
  induction t with
  | var negative => exact ⟨ht, .number _⟩
  | num negative magnitude => exact ⟨ht, .number _⟩
  | unary negative op a ih => exact ⟨ht, (ih ht.operand).unarySlope op⟩
  | binary negative op a b iha ihb =>
    exact ⟨ht, (iha ht.operands.1).binarySlope op (ihb ht.operands.2)⟩

/-- The constructors build the derivative of a tree that they build. -/
theorem Expr.Built.derivative {t : Expr α} (ht : t.Built) : t.derivative.Built := ht.jet.derivative

section Reading

variable [HasNumerals α] {letter : Char} {t : Expr α}

/-- The constructors build an operand that is read. -/
theorem built_of_readOperand {first : NestedGlyph} {rest : List NestedGlyph}
    (h : readOperand letter first rest = .ok t) : t.Built := by
  unfold readOperand at h
  split at h
  · cases h
    exact .var
  · split at h <;> cases h
    exact .number _

/-- Every tree that is read is built, whatever character the variable is. The induction is on the
length of the text. -/
theorem built_of_parseSegment {s : Segment} (h : parseSegment letter s = .ok t) : t.Built := by
  induction hn : s.glyphs.length using Nat.strongRecOn generalizing s t with
  | ind n ih =>
    subst hn
    obtain ⟨first, rest, o, hnest, houtline⟩ := exists_outline_of_parseSegment h
    have hreads := (parseSegment_iff_reads hnest houtline).mp h
    have hlength := congrArg List.length (toGlyph_of_nest hnest)
    rw [List.length_map] at hlength
    have hpart {part : Segment} (hmem : part ∈ o.parts) {u : Expr α}
        (hu : parseSegment letter part = .ok u) : u.Built := by
      have hshorter := outline_shorter houtline part hmem
      have hstrip := s.length_strip_le
      exact ih part.glyphs.length (by omega) hu rfl
    cases o with
    | operand => exact built_of_readOperand hreads
    | negation inner =>
      obtain ⟨u, hu, rfl⟩ := hreads
      exact (hpart (by simp [Outline.parts]) hu).neg
    | dangling position right => exact hreads.elim
    | operator op left right =>
      obtain ⟨r, hr, l, hl, rfl⟩ := hreads
      exact .apply2 op (hpart (by simp [Outline.parts]) hl) (hpart (by simp [Outline.parts]) hr)
    | call1 op argument =>
      obtain ⟨u, hu, rfl⟩ := hreads
      exact .apply1 op (hpart (by simp [Outline.parts]) hu)
    | call2 op first second =>
      obtain ⟨l, hl, r, hr, rfl⟩ := hreads
      exact .apply2 op (hpart (by simp [Outline.parts]) hl) (hpart (by simp [Outline.parts]) hr)

/-- The constructors build a tree that is parsed. -/
theorem built_of_parse {source : List Char} (h : parse letter source = .ok t) : t.Built :=
  built_of_parseSegment h

end Reading

/-- What a rule makes of a node is built from what the node was built from. -/
theorem Rewrites.built {s t : Expr α} (h : Rewrites t s) (ht : t.Built) : s.Built := by
  induction h with
  | number => exact .number _
  | left => exact ht.operands.1
  | right => exact ht.operands.2
  | quotient => exact .apply2 _ ht.operands.1.unsigned ht.operands.2.unsigned
  | inverse => exact Expr.Built.div (.number _) ht.operands.1
  | factor =>
    obtain ⟨ha, hb⟩ := ht.operands.1.operands
    exact hb.mul (ha.log ht.operands.2)
  | divisor =>
    obtain ⟨ha, hb⟩ := ht.operands.2.operands
    exact (ht.operands.1.log ha).div hb
  | power => exact ht.operands.1.pow (Expr.Built.div (.number _) ht.operands.2)
  | withNegative negative _ ih => exact .withNegative _ (ih ht)

namespace Rule

/-- The rule builds its trees from the operands of the one that it replaces. -/
def Builds (rule : Rule α) : Prop := ∀ t r, rule t = some r → t.Built → r.tree.Built

/-- A rule that rewrites a node builds a tree that the constructors build. -/
theorem IsRewriting.builds {rule : Rule α} (h : rule.IsRewriting) : rule.Builds :=
  fun t r hr ht => (h t r hr).built ht

end Rule

/-- The constructors build the leaf of a rounded number. -/
theorem built_roundedLeaf (d : Decimals) (a : α) : (roundedLeaf d a).Built := by
  unfold roundedLeaf
  dsimp only
  split
  · exact .number _
  · split
    · exact .withNegative _ (.number _)
    · exact .number _

variable [DecidableEq α] {d : Decimals} {t r : Expr α} {steps : List Step}

/-- The constructors build the leaf that a constant tree is folded to. -/
theorem built_of_foldConstant? (h : foldConstant? d t = some (r, steps)) : r.Built := by
  obtain ⟨a, -, ha⟩ := Option.map_eq_some_iff.mp h
  cases ha
  exact built_roundedLeaf d a

/-- Every run builds its tree from the one that it started with. -/
theorem Simplifies.built (h : Simplifies d t r steps) (ht : t.Built) : r.Built := by
  induction h with
  | constant hfold => exact built_of_foldConstant? hfold
  | var d negative => exact ht
  | unaryConstant _ _ hagain => exact built_of_foldConstant? hagain
  | unary _ _ _ ih => exact .withNegative _ (.apply1 _ (ih ht.operand))
  | binaryConstant _ _ _ hagain => exact built_of_foldConstant? hagain
  | binary _ _ _ _ _ iha ihb =>
    exact .withNegative _ (.apply2 _ (iha ht.operands.1) (ihb ht.operands.2))
  | @replaced _ negative op _ _ _ _ _ _ _ _ _ _ _ _ _ hrule _ _ iha ihb ihfinal =>
    have hnode := Expr.Built.apply2 op (iha ht.operands.1) (ihb ht.operands.2)
    have hrebuilt := hnode.withNegative negative
    exact ihfinal ((Rule.all_rewrites _ _ hrule).built hrebuilt)
  | @rebuilt _ negative op _ _ _ _ _ _ _ _ _ _ _ _ _ _ _ hrule _ _ _ iha ihb ihwhole ihfinal =>
    have hnode := Expr.Built.apply2 op (iha ht.operands.1) (ihb ht.operands.2)
    have hrebuilt := hnode.withNegative negative
    exact ihfinal (ihwhole ((Rule.all_rewrites _ _ hrule).built hrebuilt))

variable [LawfulScalar α]

/-- The constructors build a simplified tree. -/
theorem Expr.Built.simplify (ht : t.Built) (d : Decimals) : (t.simplify d).Built :=
  (simplifies_iff.mpr rfl : Simplifies d t (t.simplify d) (t.simplifyWithSteps d).2).built ht

/-- The constructors build what a rule answers with, simplified again or not. -/
theorem Rule.Builds.run? {rule : Rule α} (hrule : rule.Builds) (h : rule.run? t = some (r, steps))
    (ht : t.Built) : r.Built := by
  obtain ⟨reduct, hreduct, hrun⟩ := Option.map_eq_some_iff.mp h
  have hbuilt := hrule t reduct hreduct ht
  split at hrun
  · cases hrun
    exact hbuilt.simplify .unrounded
  · cases hrun
    exact hbuilt

end Univariate
