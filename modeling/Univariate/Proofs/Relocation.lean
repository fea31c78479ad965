import Univariate.Proofs.Placement

/-!
# Parts are read like texts of their own

A segment that is moved is read in the same way, with the places of its faults moved along. A part of
a text is therefore read as if it were a source text of its own: the places of its faults are those
in the part, moved by the position at which the part starts.
-/

namespace Univariate

/-- A character further to the right. -/
def Glyph.shift (distance : Nat) (g : Glyph) : Glyph := ⟨g.char, g.position + distance⟩

/-- A segment further to the right. -/
def Segment.shift (distance : Nat) (s : Segment) : Segment :=
  ⟨s.start + distance, s.stop + distance, s.glyphs.map (Glyph.shift distance)⟩

/-- The result of reading a text that starts further to the right: what is read is moved by a
function, and an error by the distance. -/
def moved {β : Type} (distance : Nat) (f : β → β) : Except ParseError β → Except ParseError β
  | .ok b => .ok (f b)
  | .error e => .error (e.shift distance)

section Moving

variable {distance : Nat}

/-- Moving by a distance keeps the position behind every character next to it. -/
theorem keepsNext_add (gs : List Glyph) : KeepsNext (· + distance) gs :=
  fun g _ => Nat.add_right_comm g.position 1 distance

/-- A fault at a position is shifted by shifting the position. -/
theorem atPosition_shift (fault : Fault) (position : Nat) :
    (ParseError.atPosition fault position).shift distance =
      .atPosition fault (position + distance) := by
  simp [ParseError.atPosition, ParseError.shift, Span.shift, Span.single, Nat.add_right_comm]

/-- The span within a text is shifted with the text. -/
theorem within_shift (stop position : Nat) :
    Span.within (stop + distance) (position + distance) =
      (Span.within stop position).shift distance := by
  unfold Span.within
  simp only [Nat.add_lt_add_iff_right]
  split
  · rw [Span.single, Span.single, Span.shift, Nat.add_right_comm]
  · rfl

/-- What is placed further to the right by a distance is moved by the distance. -/
theorem Placed.eq_moved {β : Type} {x y : Except ParseError β} (h : Placed (· + distance) id x y) :
    y = moved distance id x := by
  cases h with
  | ok b => rfl
  | character fault position => rw [moved, atPosition_shift]
  | empty stop start =>
    rw [within_shift]
    rfl

variable {α : Type} [Scalar α] [HasNumerals α] {letter : Char}

/-- A segment that is moved is read in the same way, with the places of its faults moved along. -/
theorem parseSegment_shift (s : Segment) :
    (parseSegment letter (s.shift distance) : Except ParseError (Expr α)) =
      moved distance id (parseSegment letter s) := by
  have hplaced : Placed (· + distance) id (parseSegment letter s : Except ParseError (Expr α))
      (parseSegment letter (s.shift distance)) := parseSegment_place (keepsNext_add s.glyphs)
  exact hplaced.eq_moved

end Moving

/-- The characters of a text that starts further to the right are shifted. -/
theorem glyphsFrom_shift (start distance : Nat) (text : List Char) :
    glyphsFrom (start + distance) text = (glyphsFrom start text).map (Glyph.shift distance) := by
  induction text generalizing start with
  | nil => rfl
  | cons c text ih =>
    unfold glyphsFrom
    rw [Nat.add_right_comm, ih]
    split <;> rfl

/-- What follows some of the characters that are read of a text is what is read of its end, which
starts behind the last of them. -/
theorem exists_drop_of_glyphsFrom {start : Nat} {source : List Char} {before after : List Glyph}
    (h : glyphsFrom start source = before ++ after) :
    ∃ left right, source = left ++ right ∧ glyphsFrom (start + left.length) right = after ∧
      start + left.length = (before.getLast?.map fun g => g.position + 1).getD start := by
  rcases List.eq_nil_or_concat before with rfl | ⟨earlier, last, rfl⟩
  · exact ⟨[], source, rfl, h, rfl⟩
  · rw [List.concat_eq_append, List.append_assoc, List.singleton_append] at h
    obtain ⟨left, raw, right, hsource, -, -, hlast, hafter⟩ := exists_of_glyphsFrom h
    refine ⟨left ++ [raw], right, by simp [hsource], ?_, ?_⟩
    · rwa [List.length_append, List.length_singleton, ← Nat.add_assoc]
    · simp [hlast, Nat.add_assoc]

/-- Some of the first characters that are read of a text are what is read of its beginning, which
ends where the next character stands. -/
theorem exists_take_of_glyphsFrom {start : Nat} {source : List Char} {before after : List Glyph}
    (h : glyphsFrom start source = before ++ after) :
    ∃ left right, source = left ++ right ∧ glyphsFrom start left = before ∧
      start + left.length = (after.head?.map Glyph.position).getD (start + source.length) := by
  cases after with
  | nil => exact ⟨source, [], by simp, by simpa using h, rfl⟩
  | cons next later =>
    obtain ⟨left, raw, right, hsource, -, hbefore, hnext, -⟩ := exists_of_glyphsFrom h
    exact ⟨left, raw :: right, hsource, hbefore, by simp [hnext]⟩

namespace Segment

/-- The segment of a text that starts at a position of a source text. -/
def ofText (start : Nat) (text : List Char) : Segment :=
  ⟨start, start + text.length, glyphsFrom start text⟩

/-- A segment is made of some characters in a row of a source text, its blanks included. -/
def IsPiece (source : List Char) (s : Segment) : Prop :=
  ∃ left text right, source = left ++ text ++ right ∧ s = ofText left.length text

/-- The segments that reading a source text comes to, unless a fault stops it before. -/
inductive Reached (source : List Char) : Segment → Prop
  | source : Reached source (ofSource source)
  | part {s part : Segment} {ns : List NestedGlyph} {o : Outline} (hs : Reached source s)
      (hnest : nest s.strip.glyphs = .ok ns) (houtline : outline s.strip ns = .ok o)
      (hpart : part ∈ o.parts) : Reached source part

variable {source : List Char} {s part : Segment}

/-- A text at a position is the source text shifted to it. -/
theorem ofText_eq_shift (start : Nat) (text : List Char) :
    ofText start text = (ofSource text).shift start := by
  have hglyphs := glyphsFrom_shift 0 start text
  rw [Nat.zero_add] at hglyphs
  rw [ofText, ofSource, shift, hglyphs, Nat.zero_add, Nat.add_comm]

/-- A source text is a piece of itself. -/
theorem isPiece_ofSource (source : List Char) : (ofSource source).IsPiece source :=
  ⟨[], source, [], by simp, by simp [ofText, ofSource]⟩

/-- A part of a piece of a source text is a piece of it. -/
theorem IsPiece.of_isPart (hs : s.IsPiece source) (h : part.IsPart s) : part.IsPiece source := by
  obtain ⟨left, text, right, hsource, rfl⟩ := hs
  obtain ⟨before, after, hglyphs, hstart, hstop⟩ := h
  have hglyphs : glyphsFrom left.length text = before ++ (part.glyphs ++ after) := by
    rw [← List.append_assoc]
    exact hglyphs
  -- The blanks at the ends of the part belong to it, so its ends are those of its neighbours.
  obtain ⟨skipped, rest, htext, hrest, hbegin⟩ := exists_drop_of_glyphsFrom hglyphs
  obtain ⟨taken, later, hrest', htaken, hend⟩ := exists_take_of_glyphsFrom hrest
  have hstart : part.start = (left ++ skipped).length := by
    rw [hstart, List.length_append, hbegin]
    rfl
  have hstop : part.stop = part.start + taken.length := by
    rw [hstart, List.length_append, hend, hstop, htext]
    simp [ofText, Nat.add_assoc]
  have htaken : glyphsFrom part.start taken = part.glyphs := by
    rw [hstart, List.length_append]
    exact htaken
  refine ⟨left ++ skipped, taken, later ++ right, by simp [hsource, htext, hrest'], ?_⟩
  rw [ofText, ← hstart, ← hstop, htaken]

/-- Without the brackets around it, a piece of a source text is a piece. -/
theorem IsPiece.strip (hs : s.IsPiece source) : s.strip.IsPiece source := by
  fun_induction Segment.strip s with
  | case1 s inner hinner ih => exact ih (hs.of_isPart (isPart_of_strip? hinner))
  | case2 s hnone => exact hs

/-- Every segment that reading comes to is a piece of the source text. -/
theorem Reached.isPiece (h : s.Reached source) : s.IsPiece source := by
  induction h with
  | source => exact isPiece_ofSource source
  | part _ hnest houtline hpart hs =>
    exact hs.strip.of_isPart (isPart_of_outline (toGlyph_of_nest hnest) houtline _ hpart).1

end Segment

variable {α : Type} [Scalar α] [HasNumerals α]

/-- Every segment that reading a source text comes to is read like a source text of its own, with
the places of its faults moved by the position at which it starts. -/
theorem parseSegment_of_reached (letter : Char) {source : List Char} {s : Segment}
    (h : s.Reached source) : ∃ left text right, source = left ++ text ++ right ∧
      s = .ofText left.length text ∧
      (parseSegment letter.toLower s : Except ParseError (Expr α)) =
        moved left.length id (parse letter text) := by
  obtain ⟨left, text, right, hsource, rfl⟩ := h.isPiece
  refine ⟨left, text, right, hsource, rfl, ?_⟩
  rw [Segment.ofText_eq_shift, parseSegment_shift, parse]

end Univariate
