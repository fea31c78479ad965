import Univariate.Source.Parse

/-!
# Reading by index

A text can be read by index as well: the characters that are read of it and their depths are looked
up in lists, and the parts of the text are cut out of it between two positions. Every access is
checked. A lookup outside of its list, a range that is no range of its list and a part that is not
shorter than the text are no faults of the text; they leave reading without any result.
-/

namespace Univariate

namespace Indexed

/-- The elements of a list from an index up to but not including another, if they are a range of the
list. -/
def slice? {β : Type} (xs : List β) (start stop : Nat) : Option (List β) :=
  if start ≤ stop ∧ stop ≤ xs.length then some (xs.extract start stop) else none

/-- The first index with a property from an index up to but not including another. -/
def findIndex? (p : Nat → Option Bool) (start stop : Nat) : Option (Option Nat) :=
  (List.range' start (stop - start)).findM? p

/-- The last index at which a number stands in a list. -/
def lastIndex? (n : Nat) : List Nat → Option Nat
  | [] => none
  | m :: ms =>
    match lastIndex? n ms with
    | some i => some (i + 1)
    | none => if m = n then some 0 else none

/-- Whether the first and the last character are a bracket pair around everything between them. -/
def isEnclosed : List Glyph → Bool
  | [] => false
  | first :: rest =>
    match rest.getLast? with
    | none => false
    | some last =>
      first.char = '(' && last.char = ')' && balancedFrom 0 (rest.dropLast.map Glyph.char)

/-- A segment without the bracket pairs that enclose all of it. -/
def strip (s : Segment) : Option Segment :=
  if isEnclosed s.glyphs then do
    let opening ← s.glyphs[0]?
    let closing ← s.glyphs[s.glyphs.length - 1]?
    let inner ← slice? s.glyphs 1 (s.glyphs.length - 1)
    if _h : inner.length < s.glyphs.length then
      strip ⟨opening.position + 1, closing.position, inner⟩
    else none
  else some s
termination_by s.glyphs.length

/-- The keyword with a number of letters that ends at an index. -/
def keywordOfLength? (gs : List Glyph) (i length : Nat) : Option (Option Split) :=
  if length ≤ i + 1 then do
    let letters ← slice? gs (i + 1 - length) (i + 1)
    let op? := (Operation.ofSymbol? (letters.map Glyph.char)).filter Operation.isKeyword
    return op?.map fun op => ⟨op, i + 1 - length⟩
  else return none

/-- The keyword that ends at an index. Keywords have three letters or two. -/
def keywordEndingAt (gs : List Glyph) (i : Nat) : Option (Option Split) :=
  [3, 2].findSomeM? (keywordOfLength? gs i)

/-- Whether the character before an index is an operator, so that a minus at the index is a sign. -/
def followsOperator (gs : List Glyph) (i : Nat) : Option Bool :=
  if 0 < i then do
    let previous ← gs[i - 1]?
    return isOperatorSymbol previous.char
  else return false

/-- The operation whose symbol ends at an index. -/
def operationEndingAt (gs : List Glyph) (i : Nat) : Option (Option Split) := do
  let g ← gs[i]?
  match BinaryOp.ofOperator? g.char with
  | some op =>
    if g.char = '-' then
      if ← followsOperator gs i then return none
      else return some ⟨.binary op, i⟩
    else return some ⟨.binary op, i⟩
  | none => keywordEndingAt gs i

/-- Of the operations that end on a level before an index, met backwards, and of the best one behind
it, the one that is applied last. -/
def findBefore (gs : List Glyph) (depths : List Nat) (level : Nat) :
    Nat → Option Split → Option (Option Split)
  | 0, best => some best
  | i + 1, best => do
    let depth ← depths[i]?
    if depth = level then
      match ← operationEndingAt gs i with
      | none => findBefore gs depths level i best
      | some found =>
        if best.all fun other => found.op.precedence.looserThan other.op.precedence then
          findBefore gs depths level i (some found)
        else findBefore gs depths level i best
    else findBefore gs depths level i best

/-- The operation that is applied last, if the text is more than bracketed groups. -/
def findSplit (gs : List Glyph) (depths : List Nat) : Option (Option Split) :=
  match depths.min? with
  | none => some none
  | some level =>
    if 0 < level then some none
    else
      match lastIndex? level depths with
      | none => some none
      | some last => findBefore gs depths level (last + 1) none

/-- Whether an operand ends before an index and another one starts there. -/
def joinsAt (gs : List Glyph) (i : Nat) : Option Bool := do
  let g ← gs[i]?
  let previous ← gs[i - 1]?
  return g.char = '(' || previous.char = ')'

/-- The first of two indices that may have been found. -/
def earlier : Option Nat → Option Nat → Option Nat
  | some i, some j => some (min i j)
  | i?, j? => i?.or j?

/-- The index of the first character that joins two operands, or that cannot be an operand. -/
def findJoint (letter : Char) (gs : List Glyph) (depths : List Nat) : Option (Option Nat) := do
  let stray := (gs.zip depths).findIdx? fun place =>
    place.2 = 0 && isLetter place.1.char && place.1.char != letter
  let boundary ← findIndex? (joinsAt gs) 1 gs.length
  return earlier stray boundary

/-- Whether a point stands at an index. -/
def isPointAt (gs : List Glyph) (i : Nat) : Option Bool := do
  let g ← gs[i]?
  return g.char = '.'

/-- The index of the second point of a text, or of the first if there is only one. -/
def findPoint (gs : List Glyph) : Option (Option Nat) := do
  match ← findIndex? (isPointAt gs) 0 gs.length with
  | none => return none
  | some first =>
    let second ← findIndex? (isPointAt gs) (first + 1) gs.length
    return second.or (some first)

/-- The index of the character at which a text without an operation is no operand. -/
def findMisplaced (letter : Char) (gs : List Glyph) (depths : List Nat) : Option (Option Nat) :=
  if gs.any fun g => g.char = '(' || g.char = ')' then findJoint letter gs depths
  else do
    let first ← gs[0]?
    if first.char = letter then return some 1
    else
      let point ← findPoint gs
      return (gs.findIdx? fun g => !isNumeric g.char).or point

/-- Reading that stops at an error of the text, and has no result at all if an access fails. -/
abbrev Checked := ExceptT ParseError Option

/-- The value of an access, without which there is no result. -/
def checked {β : Type} (access : Option β) : Checked β := ExceptT.lift access

section Reading

variable {α : Type} [Scalar α] [HasNumerals α]

/-- Reads a text without an operation. -/
def readOperand (letter : Char) (gs : List Glyph) (depths : List Nat) : Checked (Expr α) := do
  let first ← checked gs[0]?
  if gs.length = 1 ∧ first.char = letter then return .var false
  else
    match numeralOf? (gs.map Glyph.char) with
    | some n => return .ofNumber (HasNumerals.ofNumeral n)
    | none =>
      let found ← checked (findMisplaced letter gs depths)
      let misplaced ← checked gs[found.getD 0]?
      throw (.atPosition (.unexpectedCharacter misplaced.char) misplaced.position)

variable (part : Nat → Nat → Checked (Expr α))

/-- Reads a text that an operator at an index divides, with the parts between two positions of it
read by `part`. -/
def readOperator (s : Segment) (op : BinaryOp) (i : Nat) : Checked (Expr α) := do
  let symbol ← checked s.glyphs[i]?
  if i + 1 = s.glyphs.length then throw (.atPosition .missingOperand symbol.position)
  else
    let r ← part (symbol.position + 1) s.stop
    if i = 0 then
      if op = .subtraction then return -r
      else throw (.atPosition .missingOperand symbol.position)
    else
      let l ← part s.start symbol.position
      return .apply2 op l r

/-- Whether a mark stands at an index, on the level of a depth. -/
def standsAt (gs : List Glyph) (depths : List Nat) (mark : Char) (level i : Nat) : Option Bool := do
  let g ← gs[i]?
  let depth ← depths[i]?
  return g.char = mark && depth = level

/-- Reads the two arguments of a function with its keyword at an index, between the brackets at two
other indices. -/
def readSeparated (gs : List Glyph) (depths : List Nat) (op : BinaryOp)
    (keyword opening closing : Nat) : Checked (Expr α) := do
  let first ← checked gs[opening]?
  let last ← checked gs[closing]?
  let level ← checked depths[opening]?
  match ← checked (findIndex? (standsAt gs depths ';' level) (opening + 1) closing) with
  | none => do
    let symbol ← checked gs[keyword]?
    throw (.atPosition (.missingSeparator op) symbol.position)
  | some i => do
    let separator ← checked gs[i]?
    if i = opening + 1 ∨ i + 1 = closing then
      throw (.atPosition .missingOperand separator.position)
    else
      let l ← part (first.position + 1) separator.position
      let r ← part (separator.position + 1) last.position
      return .apply2 op l r

/-- Reads the arguments of a function with its keyword at an index, between the brackets at two
other indices. -/
def readArguments (gs : List Glyph) (depths : List Nat) (op : Operation)
    (keyword opening closing : Nat) : Checked (Expr α) := do
  let first ← checked gs[opening]?
  let last ← checked gs[closing]?
  if closing = opening + 1 then throw (.atPosition .missingOperand first.position)
  else
    match op with
    | .unary op => do
      let t ← part (first.position + 1) last.position
      return .apply1 op t
    | .binary op => readSeparated part gs depths op keyword opening closing

/-- Reads a text with a keyword at an index. -/
def readKeyword (gs : List Glyph) (depths : List Nat) (op : Operation) (i : Nat) :
    Checked (Expr α) := do
  let symbol ← checked gs[i]?
  if 0 < i then throw (.atPosition (.unexpectedCharacter symbol.char) symbol.position)
  else
    let opening := i + op.symbol.length
    match gs[opening]? with
    | none => throw (.atPosition .missingOperand symbol.position)
    | some first =>
      if first.char = '(' then
        let level ← checked depths[opening]?
        match ← checked (findIndex? (standsAt gs depths ')' level) (opening + 1) gs.length) with
        | none => throw (.atPosition (.unbalancedBracket true) first.position)
        | some closing =>
          if closing + 1 < gs.length then do
            let extra ← checked gs[closing + 1]?
            throw (.atPosition (.unexpectedCharacter extra.char) extra.position)
          else readArguments part gs depths op i opening closing
      else throw (.atPosition (.unexpectedCharacter first.char) first.position)

/-- Reads a text through the operation that is applied last. -/
def readSplit (s : Segment) (depths : List Nat) (split : Split) : Checked (Expr α) :=
  match split.op.operator? with
  | some op => readOperator part s op split.start
  | none => readKeyword part s.glyphs depths split.op split.start

/-- The part of a text between two positions, if it is a shorter one. -/
def part? (text : List Char) (start stop : Nat) :
    Option {t : List Char // t.length < text.length} := do
  let t ← slice? text start stop
  if h : t.length < text.length then some ⟨t, h⟩ else none

/-- Reads a text. Errors of its parts are moved to their places in the text. -/
def read (letter : Char) (text : List Char) : Checked (Expr α) := do
  let s ← checked (strip (.ofSource text))
  if s.glyphs.isEmpty then throw ⟨.missingOperand, [.within text.length s.start]⟩
  else
    match nest s.glyphs with
    | .error e => throw e
    | .ok ns =>
      let depths := ns.map NestedGlyph.depth
      let part start stop : Checked (Expr α) := do
        let t ← checked (part? text start stop)
        (read letter t.val).adapt (ParseError.shift start)
      match ← checked (findSplit s.glyphs depths) with
      | none => readOperand letter s.glyphs depths
      | some split => readSplit part s depths split
termination_by text.length
decreasing_by exact t.property

end Reading

end Indexed

end Univariate
