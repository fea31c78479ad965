import Univariate.Text.Blank

/-!
# Segments of a source text

A source text is read without its blanks, in lower case, and with a decimal point for a decimal
comma. Each remaining character keeps its position. A segment is a range of positions with the
characters in it, and stripping removes the bracket pairs that enclose a whole segment.
-/

namespace Univariate

/-- A character that is read, with its position in the source text. -/
structure Glyph where
  /-- The character as it is read. -/
  char : Char
  /-- The position of the character in the source text. -/
  position : Nat
  deriving DecidableEq, Repr

/-- A character as it is read: a decimal comma is a decimal point, and capitals of ASCII are
lower-case letters. -/
def readAs (c : Char) : Char := if c = ',' then '.' else c.toLower

/-- The characters of a text that are not blank, as they are read, in a source text in which the
text starts at a position. -/
def glyphsFrom (position : Nat) : List Char → List Glyph
  | [] => []
  | c :: cs =>
    if isBlank c then glyphsFrom (position + 1) cs
    else ⟨readAs c, position⟩ :: glyphsFrom (position + 1) cs

/-- Whether every bracket has a partner, when `depth` brackets are open already. -/
def balancedFrom : Nat → List Char → Bool
  | depth, [] => depth = 0
  | depth, '(' :: cs => balancedFrom (depth + 1) cs
  | 0, ')' :: _ => false
  | depth + 1, ')' :: cs => balancedFrom depth cs
  | depth, _ :: cs => balancedFrom depth cs

/-- The positions of a source text from `start` up to but not including `stop`, with the characters
that are read there. -/
structure Segment where
  /-- The first position of the segment. -/
  start : Nat
  /-- The position after the last one of the segment. -/
  stop : Nat
  /-- The characters that are read between those positions. -/
  glyphs : List Glyph
  deriving DecidableEq, Repr

namespace Segment

/-- The segment of a whole source text. -/
def ofSource (source : List Char) : Segment := ⟨0, source.length, glyphsFrom 0 source⟩

/-- The segment between the brackets of a pair that encloses all of a segment. -/
def strip? (s : Segment) : Option Segment :=
  match s.glyphs with
  | [] => none
  | first :: rest =>
    match rest.getLast? with
    | none => none
    | some last =>
      let inner := rest.dropLast
      if first.char = '(' ∧ last.char = ')' ∧ balancedFrom 0 (inner.map Glyph.char) then
        some ⟨first.position + 1, last.position, inner⟩
      else none

/-- Stripping brackets shortens a segment. -/
theorem length_of_strip? {s t : Segment} (h : s.strip? = some t) :
    t.glyphs.length < s.glyphs.length := by
  unfold strip? at h
  split at h
  · cases h
  · next first rest hglyphs =>
    split at h
    · cases h
    · dsimp only at h
      split at h
      · cases h
        rw [hglyphs]
        simp only [List.length_dropLast, List.length_cons]
        omega
      · cases h

/-- A segment without the bracket pairs that enclose all of it. -/
def strip (s : Segment) : Segment :=
  match _h : s.strip? with
  | some inner => strip inner
  | none => s
termination_by s.glyphs.length
decreasing_by exact length_of_strip? _h

/-- A segment without the brackets around it is no longer. -/
theorem length_strip_le (s : Segment) : s.strip.glyphs.length ≤ s.glyphs.length := by
  fun_induction strip s with
  | case1 s inner h ih => exact Nat.le_trans ih (Nat.le_of_lt (length_of_strip? h))
  | case2 s h => exact Nat.le_refl _

end Segment

end Univariate
