import Univariate.Proofs.Reading
import Univariate.Proofs.SegmentParts

/-!
# Characters in other places

Reading depends on the positions of characters only for the places of faults. If the characters of a
segment stand at other positions, each with the position behind it moved along, then every stage of
reading has the same result with its places moved: brackets are stripped and counted, operations are
found and operands are read in the same way. Only a segment without characters has a place of its
own, which depends on where the segment ends.
-/

namespace Univariate

/-- A character at another position. -/
def Glyph.place (π : Nat → Nat) (g : Glyph) : Glyph := ⟨g.char, π g.position⟩

/-- A nested character at another position. -/
def NestedGlyph.place (π : Nat → Nat) (g : NestedGlyph) : NestedGlyph :=
  ⟨g.toGlyph.place π, g.depth⟩

/-- A segment at other positions. -/
def Segment.place (π : Nat → Nat) (s : Segment) : Segment :=
  ⟨π s.start, π s.stop, s.glyphs.map (Glyph.place π)⟩

/-- An outline of a text at other positions. -/
def Outline.place (π : Nat → Nat) : Outline → Outline
  | operand => operand
  | negation inner => negation (inner.place π)
  | dangling position right => dangling (π position) (right.place π)
  | operator op left right => operator op (left.place π) (right.place π)
  | call1 op argument => call1 op (argument.place π)
  | call2 op first second => call2 op (first.place π) (second.place π)

/-- The positions behind some characters are moved along with the characters. -/
def KeepsNext (π : Nat → Nat) (gs : List Glyph) : Prop :=
  ∀ g ∈ gs, π (g.position + 1) = π g.position + 1

/-- The result of reading a text and that of reading the text at other positions: what is read is
moved by a function, and the place of a fault by the positions. -/
inductive Placed (π : Nat → Nat) {β : Type} (f : β → β) :
    Except ParseError β → Except ParseError β → Prop
  | ok (b : β) : Placed π f (.ok b) (.ok (f b))
  | character (fault : Fault) (position : Nat) :
      Placed π f (.error (.atPosition fault position)) (.error (.atPosition fault (π position)))
  | empty (stop start : Nat) : Placed π f (.error ⟨.missingOperand, [.within stop start]⟩)
      (.error ⟨.missingOperand, [.within (π stop) (π start)]⟩)

variable {π : Nat → Nat}

/-- Positions behind the characters of a text that are kept next to them are so in a piece of it. -/
theorem KeepsNext.of_infix {gs hs : List Glyph} (h : KeepsNext π hs) (hgs : gs <:+: hs) :
    KeepsNext π gs :=
  fun g hg => h g (hgs.subset hg)

/-- The place of a segment without characters is its start, wherever it ends. -/
theorem offset_within (stop start : Nat) :
    ParseError.offset ⟨.missingOperand, [.within stop start]⟩ = start := by
  show (Span.within stop start).start = start
  unfold Span.within
  split <;> rfl

namespace Placed

variable {β γ : Type}

/-- What is read of a text is read of the text at other positions. -/
theorem eq_ok {f : β → β} {b : β} {y : Except ParseError β} (h : Placed π f (.ok b) y) :
    y = .ok (f b) := by
  cases h
  rfl

/-- A fault is moved in the same way whatever was to be read. -/
theorem exists_error {f : β → β} {e : ParseError} {y : Except ParseError β}
    (h : Placed π f (.error e) y) (g : γ → γ) :
    ∃ e', y = .error e' ∧ Placed π g (.error e) (.error e') := by
  cases h with
  | character fault position => exact ⟨_, rfl, .character fault position⟩
  | empty stop start => exact ⟨_, rfl, .empty stop start⟩

/-- A fault stays what it is, and the position that it points at is moved. -/
theorem exists_offset {f : β → β} {e : ParseError} {y : Except ParseError β}
    (h : Placed π f (.error e) y) :
    ∃ e', y = .error e' ∧ e'.fault = e.fault ∧ e'.offset = π e.offset := by
  cases h with
  | character fault position => exact ⟨_, rfl, rfl, rfl⟩
  | empty stop start => exact ⟨_, rfl, rfl, by rw [offset_within, offset_within]⟩

/-- Results that are moved alike stay so if what is read is put into something that is moved. -/
theorem map {p : β → β} {q : γ → γ} {x y : Except ParseError β} (h : Placed π p x y)
    {f g : β → γ} (hg : ∀ b, g (p b) = q (f b)) : Placed π q (x.map f) (y.map g) := by
  cases x with
  | ok b =>
    rw [h.eq_ok, Except.map, Except.map, hg]
    exact .ok (f b)
  | error e =>
    obtain ⟨e', rfl, herror⟩ := h.exists_error q
    exact herror

/-- Results that are moved alike are bound alike. -/
theorem bind {x y : Except ParseError β} (h : Placed π id x y) {f g : β → Except ParseError γ}
    (hg : ∀ b, Placed π id (f b) (g b)) : Placed π id (x >>= f) (y >>= g) := by
  cases x with
  | ok b =>
    rw [h.eq_ok]
    exact hg b
  | error e =>
    obtain ⟨e', rfl, herror⟩ := h.exists_error id
    exact herror

end Placed

section Placing

/-- A character at another position is the same character. -/
@[simp] theorem Glyph.char_place (g : Glyph) : (g.place π).char = g.char := rfl

/-- The position of a character that is moved is the new one. -/
@[simp] theorem Glyph.position_place (g : Glyph) : (g.place π).position = π g.position := rfl

/-- Forgetting the depth of a character that is moved leaves the moved character. -/
@[simp] theorem NestedGlyph.toGlyph_place (g : NestedGlyph) :
    (g.place π).toGlyph = g.toGlyph.place π := rfl

/-- A character that is moved keeps its depth. -/
@[simp] theorem NestedGlyph.depth_place (g : NestedGlyph) : (g.place π).depth = g.depth := rfl

/-- The text of characters at other positions is the same. -/
theorem char_map_place (gs : List Glyph) :
    (gs.map (Glyph.place π)).map Glyph.char = gs.map Glyph.char :=
  List.map_map

/-- Brackets around a segment are stripped at other positions, too. -/
theorem Segment.strip?_place {s : Segment} (hs : KeepsNext π s.glyphs) :
    (s.place π).strip? = s.strip?.map (Segment.place π) := by
  obtain ⟨start, stop, glyphs⟩ := s
  cases glyphs with
  | nil => rfl
  | cons first rest =>
    simp only [strip?, place, List.map_cons, List.getLast?_map]
    cases rest.getLast? with
    | none => rfl
    | some last =>
      simp only [Option.map_some, Glyph.char_place, ← List.map_dropLast, char_map_place,
        Glyph.position_place, ← hs first List.mem_cons_self]
      split <;> rfl

/-- All brackets around a segment are stripped at other positions, too. -/
theorem Segment.strip_place {s : Segment} (hs : KeepsNext π s.glyphs) :
    (s.place π).strip = s.strip.place π := by
  fun_induction Segment.strip s with
  | case1 s inner hinner ih =>
    have hplaced : (s.place π).strip? = some (inner.place π) := by
      rw [strip?_place hs, hinner, Option.map_some]
    rw [strip_of_strip? hplaced, ih (hs.of_infix (isPart_of_strip? hinner).isInfix)]
  | case2 s hnone =>
    exact strip_of_none (by rw [strip?_place hs, hnone, Option.map_none])

/-- Characters at other positions are nested in the same way, and a stray bracket is moved along. -/
theorem nestFrom_place (opened : List Nat) (gs : List Glyph) :
    Placed π (List.map (NestedGlyph.place π)) (nestFrom opened gs)
      (nestFrom (opened.map π) (gs.map (Glyph.place π))) := by
  induction gs generalizing opened with
  | nil =>
    cases opened with
    | nil => exact .ok []
    | cons position outer => exact .character _ position
  | cons g gs ih =>
    have hcons (depth : Nat) (opened : List Nat) : Placed π (List.map (NestedGlyph.place π))
        ((nestFrom opened gs).map (⟨g, depth⟩ :: ·))
        ((nestFrom (opened.map π) (gs.map (Glyph.place π))).map (⟨g.place π, depth⟩ :: ·)) :=
      (ih opened).map fun _ => rfl
    unfold nestFrom
    simp only [List.map_cons, Glyph.char_place, Glyph.position_place, List.length_map]
    split
    · exact hcons _ (g.position :: opened)
    · split
      · cases opened with
        | nil => exact .character _ g.position
        | cons position outer => exact hcons _ outer
      · exact hcons _ opened

/-- The operations of a text do not depend on the positions of its characters. -/
theorem operationsAfter_place (before : List Char) (ns : List NestedGlyph) :
    operationsAfter before (ns.map (NestedGlyph.place π)) = operationsAfter before ns := by
  induction ns generalizing before with
  | nil => rfl
  | cons g ns ih =>
    simp only [List.map_cons, operationsAfter, NestedGlyph.toGlyph_place, Glyph.char_place,
      NestedGlyph.depth_place, ih]

/-- Cutting the images of some elements is cutting the elements. -/
theorem cutAt_map {β γ : Type} (f : β → γ) (p : γ → Bool) (as : List β) :
    cutAt p (as.map f) =
      (cutAt (fun a => p (f a)) as).map fun (l, m, r) => (l.map f, f m, r.map f) := by
  induction as with
  | nil => rfl
  | cons a as ih =>
    rw [List.map_cons, cutAt, cutAt]
    split
    · rfl
    · rw [ih, Option.map_map, Option.map_map]
      rfl

/-- Characters at other positions are cut at the same separator. -/
theorem cutAt_place (c : Char) (depth : Nat) (ns : List NestedGlyph) :
    cutAt (fun g => g.char = c && g.depth = depth) (ns.map (NestedGlyph.place π)) =
      (cutAt (fun g => g.char = c && g.depth = depth) ns).map fun (l, m, r) =>
        (l.map (NestedGlyph.place π), m.place π, r.map (NestedGlyph.place π)) :=
  cutAt_map _ _ _

/-- The segment of characters at other positions is the segment at those positions. -/
theorem segmentOf_place (start stop : Nat) (ns : List NestedGlyph) :
    segmentOf (π start) (π stop) (ns.map (NestedGlyph.place π)) =
      (segmentOf start stop ns).place π := by
  simp [segmentOf, Segment.place, Function.comp_def]

/-- The outline of an operator is the one at other positions. -/
theorem outlineOperator_place (s : Segment) (op : BinaryOp) (before after : List NestedGlyph)
    {position : Nat} (hnext : π (position + 1) = π position + 1) :
    Placed π (Outline.place π) (outlineOperator s op before position after)
      (outlineOperator (s.place π) op (before.map (NestedGlyph.place π)) (π position)
        (after.map (NestedGlyph.place π))) := by
  have hright : segmentOf (π position + 1) (s.place π).stop (after.map (NestedGlyph.place π)) =
      (segmentOf (position + 1) s.stop after).place π := by
    rw [← hnext]
    exact segmentOf_place _ _ _
  have hleft : segmentOf (s.place π).start (π position) (before.map (NestedGlyph.place π)) =
      (segmentOf s.start position before).place π := segmentOf_place _ _ _
  unfold outlineOperator
  dsimp only
  rw [hright, hleft, List.isEmpty_map, List.isEmpty_map]
  split
  · exact .character _ position
  · split
    · split <;> exact .ok _
    · exact .ok _

/-- The outline of the arguments of a function is the one at other positions. -/
theorem outlineArguments_place (op : Operation) (position closing : Nat) {opening : NestedGlyph}
    {arguments : List NestedGlyph} (hopening : π (opening.position + 1) = π opening.position + 1)
    (harguments : ∀ g ∈ arguments, π (g.position + 1) = π g.position + 1) :
    Placed π (Outline.place π) (outlineArguments op position opening arguments closing)
      (outlineArguments op (π position) (opening.place π) (arguments.map (NestedGlyph.place π))
        (π closing)) := by
  have hpart (start stop : Nat) (ns : List NestedGlyph) (hstart : π (start + 1) = π start + 1) :
      segmentOf (π start + 1) (π stop) (ns.map (NestedGlyph.place π)) =
        (segmentOf (start + 1) stop ns).place π := by
    rw [← hstart]
    exact segmentOf_place _ _ _
  unfold outlineArguments
  dsimp only
  rw [List.isEmpty_map, NestedGlyph.toGlyph_place, Glyph.position_place, hpart _ _ _ hopening]
  split
  · exact .character _ opening.position
  · cases op with
    | unary op => exact .ok _
    | binary op =>
      dsimp only
      rw [NestedGlyph.depth_place, cutAt_place]
      cases hcut : cutAt (fun g => g.char = ';' && g.depth = opening.depth) arguments with
      | none => exact .character _ position
      | some cut =>
        obtain ⟨first, separator, second⟩ := cut
        have hseparator : separator ∈ arguments := by simp [append_of_cutAt hcut]
        dsimp only [Option.map_some]
        rw [List.isEmpty_map, List.isEmpty_map, NestedGlyph.toGlyph_place, Glyph.position_place,
          hpart _ _ _ hopening, hpart _ _ _ (harguments separator hseparator)]
        split
        · exact .character _ separator.position
        · exact .ok _

/-- The outline of a function is the one at other positions. -/
theorem outlineKeyword_place (op : Operation) (position : Nat) {ns : List NestedGlyph}
    (hns : ∀ g ∈ ns, π (g.position + 1) = π g.position + 1) :
    Placed π (Outline.place π) (outlineKeyword op position ns)
      (outlineKeyword op (π position) (ns.map (NestedGlyph.place π))) := by
  cases ns with
  | nil => exact .character _ position
  | cons opening rest =>
    obtain ⟨hopening, hrest⟩ := List.forall_mem_cons.mp hns
    rw [List.map_cons, outlineKeyword, outlineKeyword, NestedGlyph.toGlyph_place, Glyph.char_place,
      Glyph.position_place, NestedGlyph.depth_place, cutAt_place]
    split
    · cases hcut : cutAt (fun g => g.char = ')' && g.depth = opening.depth) rest with
      | none => exact .character _ opening.position
      | some cut =>
        obtain ⟨arguments, closing, after⟩ := cut
        cases after with
        | nil =>
          have harguments : ∀ g ∈ arguments, g ∈ rest := by
            rw [append_of_cutAt hcut]
            exact fun g hg => List.mem_append_left _ hg
          exact outlineArguments_place op position closing.position hopening fun g hg =>
            hrest g (harguments g hg)
        | cons extra after => exact .character _ extra.position
    · exact .character _ opening.position

/-- The outline of a text at other positions is the outline of the text, moved. -/
theorem outline_place (s : Segment) {ns : List NestedGlyph}
    (hns : ∀ g ∈ ns, π (g.position + 1) = π g.position + 1) :
    Placed π (Outline.place π) (outline s ns)
      (outline (s.place π) (ns.map (NestedGlyph.place π))) := by
  unfold outline splitPoint
  rw [operationsAfter_place]
  cases loosest (operationsAfter [] ns) with
  | none => exact .ok Outline.operand
  | some split =>
    dsimp only
    rw [← List.map_drop, ← List.map_drop, ← List.map_take]
    cases hdrop : ns.drop split.start with
    | nil => exact .ok Outline.operand
    | cons symbol after =>
      have hsymbol : symbol ∈ ns := List.mem_of_mem_drop (hdrop ▸ List.mem_cons_self)
      rw [List.map_cons]
      cases split.op.operator? with
      | some op => exact outlineOperator_place s _ _ _ (hns symbol hsymbol)
      | none =>
        dsimp only
        split
        · exact outlineKeyword_place _ _ fun g hg => hns g (List.mem_of_mem_drop hg)
        · exact .character _ symbol.position

/-- The first joint is the same character at another position. -/
theorem findJoint_place (letter : Char) (previous : Option Char) (ns : List NestedGlyph) :
    findJoint letter previous (ns.map (NestedGlyph.place π)) =
      (findJoint letter previous ns).map (NestedGlyph.place π) := by
  induction ns generalizing previous with
  | nil => rfl
  | cons g ns ih =>
    rw [List.map_cons, findJoint, findJoint, ih, NestedGlyph.toGlyph_place, Glyph.char_place,
      NestedGlyph.depth_place]
    split
    · rfl
    · split <;> rfl

/-- The first superfluous point is the same character at another position. -/
theorem findPoint_place (ns : List NestedGlyph) :
    findPoint (ns.map (NestedGlyph.place π)) = (findPoint ns).map (NestedGlyph.place π) := by
  have hpoints : (ns.map (NestedGlyph.place π)).filter (fun g => g.char = '.') =
      (ns.filter fun g => g.char = '.').map (NestedGlyph.place π) := List.filter_map
  unfold findPoint
  rw [hpoints]
  generalize (ns.filter fun g => decide (g.char = '.')) = points
  rcases points with _ | ⟨first, _ | ⟨second, later⟩⟩ <;> rfl

/-- The misplaced character is the same at another position. -/
theorem findMisplaced_place (letter : Char) (first : NestedGlyph) (rest : List NestedGlyph) :
    findMisplaced letter (first.place π) (rest.map (NestedGlyph.place π)) =
      (findMisplaced letter first rest).place π := by
  have hbrackets : ((first :: rest).map (NestedGlyph.place π)).any
      (fun g => g.char = '(' || g.char = ')') =
        (first :: rest).any fun g => g.char = '(' || g.char = ')' := List.any_map
  have hfind : ((first :: rest).map (NestedGlyph.place π)).find? (fun g => !isNumeric g.char) =
      ((first :: rest).find? fun g => !isNumeric g.char).map (NestedGlyph.place π) :=
    List.find?_map
  have hgetD (found : Option NestedGlyph) :
      (found.map (NestedGlyph.place π)).getD (first.place π) = (found.getD first).place π :=
    Option.getD_map _ _ _
  unfold findMisplaced
  dsimp only
  rw [← List.map_cons, hbrackets, findJoint_place, hfind, findPoint_place, List.head?_map,
    ← Option.map_or, NestedGlyph.toGlyph_place, Glyph.char_place, ← hgetD]
  split
  · rfl
  · split <;> rfl

variable {α : Type} [Scalar α] [HasNumerals α] {letter : Char}

/-- An operand is read in the same way at other positions. -/
theorem readOperand_place (letter : Char) (first : NestedGlyph) (rest : List NestedGlyph) :
    Placed π id (readOperand letter first rest : Except ParseError (Expr α))
      (readOperand letter (first.place π) (rest.map (NestedGlyph.place π))) := by
  have hchars : ((first.place π :: rest.map (NestedGlyph.place π)).map fun g => g.char) =
      (first :: rest).map fun g => g.char := by
    rw [← List.map_cons, List.map_map]
    rfl
  unfold readOperand
  dsimp only
  rw [hchars, List.isEmpty_map, NestedGlyph.toGlyph_place, Glyph.char_place, findMisplaced_place]
  split
  · exact .ok _
  · split
    · exact .ok _
    · exact .character _ (findMisplaced letter first rest).position

/-- An outline is read in the same way at other positions if its parts are. -/
theorem Outline.read_place (first : NestedGlyph) (rest : List NestedGlyph) {o : Outline}
    (hparts : ∀ part ∈ o.parts, Placed π id
      (parseSegment letter part : Except ParseError (Expr α))
      (parseSegment letter (part.place π))) :
    Placed π id (o.read letter first rest : Except ParseError (Expr α))
      ((o.place π).read letter (first.place π) (rest.map (NestedGlyph.place π))) := by
  cases o with
  | operand => exact readOperand_place letter first rest
  | negation inner => exact (hparts inner (by simp [parts])).bind fun t => .ok (-t)
  | dangling position right =>
    exact (hparts right (by simp [parts])).bind fun _ => .character _ position
  | operator op left right =>
    refine (hparts right (by simp [parts])).bind fun r => ?_
    exact (hparts left (by simp [parts])).bind fun l => .ok (Expr.apply2 op l r)
  | call1 op argument =>
    exact (hparts argument (by simp [parts])).bind fun t => .ok (Expr.apply1 op t)
  | call2 op first second =>
    refine (hparts first (by simp [parts])).bind fun l => ?_
    exact (hparts second (by simp [parts])).bind fun r => .ok (Expr.apply2 op l r)

/-- A segment at other positions is read in the same way, with the places of its faults moved
along. -/
theorem parseSegment_place {s : Segment} (hs : KeepsNext π s.glyphs) :
    Placed π id (parseSegment letter s : Except ParseError (Expr α))
      (parseSegment letter (s.place π)) := by
  -- The parts of the outline are shorter, and every stage before them commutes with moving.
  induction hn : s.glyphs.length using Nat.strongRecOn generalizing s with
  | ind n ih =>
    subst hn
    have hstripped : KeepsNext π s.strip.glyphs := hs.of_infix s.strip_isInfix
    have hnested : Placed π (List.map (NestedGlyph.place π)) (nest s.strip.glyphs)
        (nest (s.strip.place π).glyphs) := nestFrom_place [] _
    rw [parseSegment_eq, parseSegment_eq, Segment.strip_place hs]
    cases hnest : nest s.strip.glyphs with
    | error e =>
      rw [hnest] at hnested
      obtain ⟨e', he', herror⟩ := hnested.exists_error id
      rw [he']
      exact herror
    | ok ns =>
      rw [hnest] at hnested
      rw [hnested.eq_ok]
      cases ns with
      | nil => exact .empty s.stop s.strip.start
      | cons first rest =>
        have hglyphs := toGlyph_of_nest hnest
        have houtlined : Placed π (Outline.place π) (outline s.strip (first :: rest))
            (outline (s.strip.place π) ((first :: rest).map (NestedGlyph.place π))) :=
          outline_place _ fun g hg => hstripped g.toGlyph (hglyphs ▸ List.mem_map_of_mem hg)
        rw [List.map_cons] at houtlined ⊢
        dsimp only
        cases houtline : outline s.strip (first :: rest) with
        | error e =>
          rw [houtline] at houtlined
          obtain ⟨e', he', herror⟩ := houtlined.exists_error id
          rw [he']
          exact herror
        | ok o =>
          rw [houtline] at houtlined
          rw [houtlined.eq_ok]
          refine Outline.read_place first rest fun part hpart => ih _ ?_ ?_ rfl
          · have hshorter := outline_shorter houtline part hpart
            have hlength := congrArg List.length hglyphs
            rw [List.length_map] at hlength
            have hstrip := s.length_strip_le
            omega
          · exact hstripped.of_infix (isPart_of_outline hglyphs houtline part hpart).1.isInfix

end Placing

end Univariate
