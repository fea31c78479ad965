import Univariate.Source.Split

/-!
# The outline of a text

The outline of a text is the operation that is applied last with the segments of its operands. It is
found without reading the operands.
-/

namespace Univariate

/-- The form of a text on its topmost level. -/
inductive Outline where
  /-- No operation: the variable or a number. -/
  | operand
  /-- A minus before an operand. -/
  | negation (inner : Segment)
  /-- An operator at a position, with nothing on its left. -/
  | dangling (position : Nat) (right : Segment)
  /-- An operator between two operands. -/
  | operator (op : BinaryOp) (left right : Segment)
  /-- A function of one argument. -/
  | call1 (op : UnaryOp) (argument : Segment)
  /-- A function of two arguments. -/
  | call2 (op : BinaryOp) (first second : Segment)
  deriving DecidableEq, Repr

namespace Outline

/-- The segments that an outline leaves to be read. -/
def parts : Outline → List Segment
  | operand => []
  | negation inner => [inner]
  | dangling _ right => [right]
  | operator _ left right => [left, right]
  | call1 _ argument => [argument]
  | call2 _ first second => [first, second]

end Outline

/-- A list divided at its first element with a property. -/
def cutAt {α : Type} (p : α → Bool) : List α → Option (List α × α × List α)
  | [] => none
  | a :: as => if p a then some ([], a, as) else (cutAt p as).map fun (l, m, r) => (a :: l, m, r)

/-- A text that is cut is what stands before the cut, the element there, and what stands after it.
-/
theorem append_of_cutAt {α : Type} {p : α → Bool} {as l r : List α} {m : α}
    (h : cutAt p as = some (l, m, r)) : as = l ++ m :: r := by
  induction as generalizing l with
  | nil => cases h
  | cons a as ih =>
    unfold cutAt at h
    split at h
    · cases h
      rfl
    · obtain ⟨⟨l', m', r'⟩, hcut, heq⟩ := Option.map_eq_some_iff.mp h
      cases heq
      rw [ih hcut]
      rfl

/-- The segment of characters whose depths are known. -/
def segmentOf (start stop : Nat) (gs : List NestedGlyph) : Segment :=
  ⟨start, stop, gs.map NestedGlyph.toGlyph⟩

/-- The outline of a text that is divided at an operator: the characters before it, the position of
the operator, and the characters after it. -/
def outlineOperator (s : Segment) (op : BinaryOp) (before : List NestedGlyph) (position : Nat)
    (after : List NestedGlyph) : Except ParseError Outline :=
  let right := segmentOf (position + 1) s.stop after
  if after.isEmpty then .error (.atPosition .missingOperand position)
  else if before.isEmpty then
    if op = .subtraction then .ok (.negation right) else .ok (.dangling position right)
  else .ok (.operator op (segmentOf s.start position before) right)

/-- The outline of a function with its keyword at a position, applied to the characters between an
opening bracket and its partner. -/
def outlineArguments (op : Operation) (position : Nat) (opening : NestedGlyph)
    (arguments : List NestedGlyph) (closing : Nat) : Except ParseError Outline :=
  let start := opening.position + 1
  if arguments.isEmpty then .error (.atPosition .missingOperand opening.position)
  else
    match op with
    | .unary op => .ok (.call1 op (segmentOf start closing arguments))
    | .binary op =>
      match cutAt (fun g => g.char = ';' && g.depth = opening.depth) arguments with
      | none => .error (.atPosition (.missingSeparator op) position)
      | some (first, separator, second) =>
        if first.isEmpty || second.isEmpty then
          .error (.atPosition .missingOperand separator.position)
        else
          .ok (.call2 op (segmentOf start separator.position first)
            (segmentOf (separator.position + 1) closing second))

/-- The outline of a text that starts with a keyword at a position. The characters after the keyword
must be a bracketed group and nothing else. -/
def outlineKeyword (op : Operation) (position : Nat) :
    List NestedGlyph → Except ParseError Outline
  | [] => .error (.atPosition .missingOperand position)
  | opening :: rest =>
    if opening.char = '(' then
      match cutAt (fun g => g.char = ')' && g.depth = opening.depth) rest with
      | none => .error (.atPosition (.unbalancedBracket true) opening.position)
      | some (arguments, closing, []) =>
        outlineArguments op position opening arguments closing.position
      | some (_, _, extra :: _) =>
        .error (.atPosition (.unexpectedCharacter extra.char) extra.position)
    else .error (.atPosition (.unexpectedCharacter opening.char) opening.position)

/-- The outline of the characters of a segment. A keyword must come first in it. -/
def outline (s : Segment) (gs : List NestedGlyph) : Except ParseError Outline :=
  match splitPoint gs with
  | none => .ok .operand
  | some split =>
    match gs.drop split.start with
    | [] => .ok .operand
    | symbol :: after =>
      match split.op.operator? with
      | some op => outlineOperator s op (gs.take split.start) symbol.position after
      | none =>
        if split.start = 0 then
          outlineKeyword split.op symbol.position (gs.drop split.op.symbol.length)
        else .error (.atPosition (.unexpectedCharacter symbol.char) symbol.position)

/-- The segment of nested characters has as many characters. -/
theorem length_segmentOf (start stop : Nat) (gs : List NestedGlyph) :
    (segmentOf start stop gs).glyphs.length = gs.length := by
  simp [segmentOf]

/-- The operands of an operator are shorter than the text that it divides. -/
theorem outlineOperator_shorter {s : Segment} {op : BinaryOp} {before after : List NestedGlyph}
    {position : Nat} {o : Outline} (h : outlineOperator s op before position after = .ok o) :
    ∀ part ∈ o.parts, part.glyphs.length < before.length + 1 + after.length := by
  unfold outlineOperator at h
  dsimp only at h
  split at h
  · cases h
  · split at h
    · have hright : ∀ part ∈ [segmentOf (position + 1) s.stop after],
          part.glyphs.length < before.length + 1 + after.length := by
        simp [length_segmentOf]
      split at h <;> cases h <;> exact hright
    · cases h
      simp [Outline.parts, length_segmentOf]
      omega

/-- The arguments of a function are no longer than what stands in its brackets. -/
theorem outlineArguments_shorter {op : Operation} {position closing : Nat} {opening : NestedGlyph}
    {arguments : List NestedGlyph} {o : Outline}
    (h : outlineArguments op position opening arguments closing = .ok o) :
    ∀ part ∈ o.parts, part.glyphs.length ≤ arguments.length := by
  unfold outlineArguments at h
  dsimp only at h
  split at h
  · cases h
  · split at h
    · cases h
      simp [Outline.parts, length_segmentOf]
    · split at h
      · cases h
      · next first separator second hcut =>
        split at h
        · cases h
        · cases h
          rw [append_of_cutAt hcut]
          simp [Outline.parts, length_segmentOf]
          omega

/-- The arguments of a function are shorter than the text behind its keyword. -/
theorem outlineKeyword_shorter {op : Operation} {position : Nat} {gs : List NestedGlyph}
    {o : Outline} (h : outlineKeyword op position gs = .ok o) :
    ∀ part ∈ o.parts, part.glyphs.length < gs.length := by
  unfold outlineKeyword at h
  split at h
  · cases h
  · next opening rest =>
    split at h
    · split at h
      · cases h
      · next arguments closing hcut =>
        intro part hpart
        have hle := outlineArguments_shorter h part hpart
        rw [append_of_cutAt hcut]
        simp
        omega
      · cases h
    · cases h

/-- Every segment that an outline leaves to be read is shorter than the text. -/
theorem outline_shorter {s : Segment} {gs : List NestedGlyph} {o : Outline}
    (h : outline s gs = .ok o) : ∀ part ∈ o.parts, part.glyphs.length < gs.length := by
  unfold outline at h
  split at h
  · cases h
    simp [Outline.parts]
  · next split hsplit =>
    split at h
    · cases h
      simp [Outline.parts]
    · next symbol after hdrop =>
      have hlength : (gs.take split.start).length + 1 + after.length = gs.length := by
        have happend := congrArg List.length (List.take_append_drop split.start gs)
        rw [hdrop] at happend
        simp only [List.length_append, List.length_cons] at happend
        omega
      split at h
      · intro part hpart
        have hlt := outlineOperator_shorter h part hpart
        omega
      · split at h
        · intro part hpart
          have hlt := outlineKeyword_shorter h part hpart
          simp only [List.length_drop] at hlt
          omega
        · cases h

end Univariate
