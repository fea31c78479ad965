import Univariate.Expr.Arithmetic
import Univariate.Source.Operand
import Univariate.Source.Outline

/-!
# Reading expressions

An expression is read from the outside inwards. The brackets around a segment are stripped, the
operation that is applied last divides it, and the parts are read in the same way. Every part is
shorter than the segment. The right operand of an operator is read before the left one, so that of
two faults the one on the right is reported.
-/

namespace Univariate

variable {α : Type} [Scalar α] [HasNumerals α]

/-- Reads a segment of a source text. -/
def parseSegment (letter : Char) (s : Segment) : Except ParseError (Expr α) :=
  match _hnest : nest s.strip.glyphs with
  | .error e => .error e
  | .ok [] => .error ⟨.missingOperand, [.within s.stop s.strip.start]⟩
  | .ok (first :: rest) =>
    match _houtline : outline s.strip (first :: rest) with
    | .error e => .error e
    | .ok .operand => readOperand letter first rest
    | .ok (.negation inner) => do
      let t ← parseSegment letter inner
      return -t
    | .ok (.dangling position right) => do
      let _ : Expr α ← parseSegment letter right
      .error (.atPosition .missingOperand position)
    | .ok (.operator op left right) => do
      let r ← parseSegment letter right
      let l ← parseSegment letter left
      return .apply2 op l r
    | .ok (.call1 op argument) => do
      let t ← parseSegment letter argument
      return .apply1 op t
    | .ok (.call2 op first second) => do
      let l ← parseSegment letter first
      let r ← parseSegment letter second
      return .apply2 op l r
termination_by s.glyphs.length
decreasing_by
  all_goals
    have hglyphs := congrArg List.length (toGlyph_of_nest _hnest)
    have hstrip := s.length_strip_le
    have hparts := outline_shorter _houtline
    simp [Outline.parts] at hparts hglyphs
    omega

/-- Reads a source text as an expression over a variable. Any character can be the variable;
capitals of ASCII and their lower-case forms are the same. -/
def parse (letter : Char) (source : List Char) : Except ParseError (Expr α) :=
  parseSegment letter.toLower (Segment.ofSource source)

end Univariate
