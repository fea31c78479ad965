import Univariate.Proofs.OutlineParts

/-!
# Parts of a segment

What is left to be read of a segment are pieces of it: the text between its brackets, and the parts of
its outline. Each piece keeps the positions of its characters, which stand one after the other in
front of its end.
-/

namespace Univariate

namespace Segment

variable {s part : Segment}

/-- A part of a segment holds some of its characters in a row. It starts behind the character before
them and ends where the next one stands, or at the ends of the segment. -/
def IsPart (part s : Segment) : Prop :=
  ∃ before after, s.glyphs = before ++ part.glyphs ++ after ∧
    part.start = (before.getLast?.map fun g => g.position + 1).getD s.start ∧
    part.stop = (after.head?.map Glyph.position).getD s.stop

/-- The characters of a segment stand one after the other in front of its end. -/
structure Ordered (s : Segment) : Prop where
  increasing : s.glyphs.Pairwise fun g h => g.position < h.position
  lt_stop : ∀ g ∈ s.glyphs, g.position < s.stop

/-- The characters of a part stand in the segment in a row. -/
theorem IsPart.isInfix (h : part.IsPart s) : part.glyphs <:+: s.glyphs := by
  obtain ⟨before, after, hglyphs, -, -⟩ := h
  exact ⟨before, after, hglyphs.symm⟩

/-- A part of an ordered segment is ordered. -/
theorem Ordered.of_isPart (hs : s.Ordered) (h : part.IsPart s) : part.Ordered := by
  obtain ⟨before, after, hglyphs, -, hstop⟩ := h
  obtain ⟨hincreasing, hlt⟩ := hs
  rw [hglyphs] at hincreasing hlt
  obtain ⟨hleft, -, hcross⟩ := List.pairwise_append.mp hincreasing
  refine ⟨(List.pairwise_append.mp hleft).2.1, fun g hg => ?_⟩
  have hmem : g ∈ before ++ part.glyphs := List.mem_append_right _ hg
  rw [hstop]
  cases after with
  | nil => exact hlt g (List.mem_append_left _ hmem)
  | cons next after => exact hcross g hmem next List.mem_cons_self

/-- The text between the brackets of a pair around a segment is a part of it. -/
theorem isPart_of_strip? (h : s.strip? = some part) : part.IsPart s := by
  obtain ⟨first, last, hglyphs, hstart, hstop, -⟩ := exists_of_strip? h
  exact ⟨[first], [last], hglyphs, hstart, hstop⟩

/-- A segment without its brackets starts behind the first one. -/
theorem start_of_strip? (h : s.strip? = some part) :
    ∃ first rest, s.glyphs = first :: rest ∧ part.start = first.position + 1 := by
  obtain ⟨first, last, hglyphs, hstart, -⟩ := exists_of_strip? h
  exact ⟨first, _, hglyphs, hstart⟩

/-- An ordered segment is ordered without its brackets. -/
theorem Ordered.strip (hs : s.Ordered) : s.strip.Ordered := by
  fun_induction Segment.strip s with
  | case1 s inner hinner ih => exact ih (hs.of_isPart (isPart_of_strip? hinner))
  | case2 s hnone => exact hs

/-- The characters of a segment without its brackets stand in the segment in a row. -/
theorem strip_isInfix (s : Segment) : s.strip.glyphs <:+: s.glyphs := by
  fun_induction Segment.strip s with
  | case1 s inner hinner ih => exact ih.trans (isPart_of_strip? hinner).isInfix
  | case2 s hnone => exact List.infix_rfl

/-- If stripping leaves nothing of a text, the place of what is left follows an opening bracket with
a closing one next to it. -/
theorem exists_of_strip_eq_nil (h : s.strip.glyphs = []) (hne : s.glyphs ≠ []) :
    ∃ before opening closing after, s.glyphs = before ++ opening :: closing :: after ∧
      opening.char = '(' ∧ closing.char = ')' ∧ s.strip.start = opening.position + 1 := by
  fun_induction Segment.strip s with
  | case1 s inner hinner ih =>
    obtain ⟨first, last, hglyphs, hfirst, hlast, -⟩ := glyphs_of_strip? hinner
    by_cases hnil : inner.glyphs = []
    · obtain ⟨first', rest, hglyphs', hstart⟩ := start_of_strip? hinner
      have hstrip : inner.strip = inner := strip_of_none (by rw [strip?, hnil])
      rw [hnil] at hglyphs
      obtain ⟨rfl, -⟩ := List.cons.inj (hglyphs'.symm.trans hglyphs)
      exact ⟨[], first', last, [], hglyphs, hfirst, hlast, by rw [hstrip, hstart]⟩
    · obtain ⟨before, opening, closing, after, hinner', hbrackets⟩ := ih h hnil
      refine ⟨first :: before, opening, closing, after ++ [last], ?_, hbrackets⟩
      rw [hglyphs, hinner']
      simp
  | case2 s hnone => exact absurd h hne

end Segment

section Outline

variable {s : Segment} {ns : List NestedGlyph} {o : Outline}

/-- Nested characters between others are a part of the segment. -/
theorem isPart_segmentOf (hns : ns.map NestedGlyph.toGlyph = s.glyphs)
    (before ms after : List NestedGlyph) (hsplit : ns = before ++ ms ++ after) {start stop : Nat}
    (hstart : start = (before.getLast?.map fun g => g.position + 1).getD s.start)
    (hstop : stop = (after.head?.map fun g => g.position).getD s.stop) :
    (segmentOf start stop ms).IsPart s := by
  refine ⟨before.map NestedGlyph.toGlyph, after.map NestedGlyph.toGlyph, ?_, ?_, ?_⟩
  · rw [← hns, hsplit, List.map_append, List.map_append]
    rfl
  · rw [List.getLast?_map, Option.map_map]
    exact hstart
  · rw [List.head?_map, Option.map_map]
    exact hstop

/-- The segment of some nested characters is not empty. -/
theorem glyphs_segmentOf_ne_nil {ms : List NestedGlyph} (h : ¬ms.isEmpty = true)
    (start stop : Nat) : (segmentOf start stop ms).glyphs ≠ [] := by
  rw [List.isEmpty_iff] at h
  exact fun hnil => h (List.map_eq_nil_iff.mp hnil)

/-- The operands of an operator are parts of the segment that are not empty. -/
theorem isPart_of_outlineOperator (hns : ns.map NestedGlyph.toGlyph = s.glyphs) {op : BinaryOp}
    {ls rs : List NestedGlyph} {g : NestedGlyph} (hsplit : ns = ls ++ g :: rs)
    (h : outlineOperator s op ls g.position rs = .ok o) :
    ∀ part ∈ o.parts, part.IsPart s ∧ part.glyphs ≠ [] := by
  have hright : (segmentOf (g.position + 1) s.stop rs).IsPart s :=
    isPart_segmentOf hns (ls ++ [g]) rs [] (by simp [hsplit]) (by simp) rfl
  have hleft : (segmentOf s.start g.position ls).IsPart s :=
    isPart_segmentOf hns [] ls (g :: rs) hsplit rfl rfl
  unfold outlineOperator at h
  dsimp only at h
  split at h
  · cases h
  · next hrs =>
    have hrs := glyphs_segmentOf_ne_nil hrs (g.position + 1) s.stop
    split at h
    · split at h <;> cases h <;> simpa [Outline.parts] using ⟨hright, hrs⟩
    · next hls =>
      have hls := glyphs_segmentOf_ne_nil hls s.start g.position
      cases h
      simpa [Outline.parts] using ⟨⟨hleft, hls⟩, hright, hrs⟩

/-- The arguments of a function are parts of the segment that are not empty. -/
theorem isPart_of_outlineArguments (hns : ns.map NestedGlyph.toGlyph = s.glyphs) {op : Operation}
    {position : Nat} {before arguments : List NestedGlyph} {opening closing : NestedGlyph}
    (hsplit : ns = before ++ [opening] ++ arguments ++ [closing])
    (h : outlineArguments op position opening arguments closing.position = .ok o) :
    ∀ part ∈ o.parts, part.IsPart s ∧ part.glyphs ≠ [] := by
  unfold outlineArguments at h
  dsimp only at h
  split at h
  · cases h
  · next harguments =>
    split at h
    · cases h
      have hpart : (segmentOf (opening.position + 1) closing.position arguments).IsPart s :=
        isPart_segmentOf hns (before ++ [opening]) arguments [closing] hsplit (by simp) rfl
      simpa [Outline.parts] using ⟨hpart, glyphs_segmentOf_ne_nil harguments _ _⟩
    · split at h
      · cases h
      · next first separator second hcut =>
        have hcut := append_of_cutAt hcut
        split at h
        · cases h
        · next hempty =>
          rw [Bool.or_eq_true, not_or] at hempty
          cases h
          have hfirst : (segmentOf (opening.position + 1) separator.position first).IsPart s :=
            isPart_segmentOf hns (before ++ [opening]) first (separator :: second ++ [closing])
              (by simp [hsplit, hcut]) (by simp) rfl
          have hsecond : (segmentOf (separator.position + 1) closing.position second).IsPart s :=
            isPart_segmentOf hns (before ++ [opening] ++ first ++ [separator]) second [closing]
              (by simp [hsplit, hcut]) (by rw [List.getLast?_concat]; rfl) rfl
          simpa [Outline.parts] using ⟨⟨hfirst, glyphs_segmentOf_ne_nil hempty.1 _ _⟩, hsecond,
            glyphs_segmentOf_ne_nil hempty.2 _ _⟩

/-- What stands in the brackets of a function are parts of the segment that are not empty. -/
theorem isPart_of_outlineKeyword (hns : ns.map NestedGlyph.toGlyph = s.glyphs) {op : Operation}
    {position : Nat} {ks gs : List NestedGlyph} (hsplit : ns = ks ++ gs)
    (h : outlineKeyword op position gs = .ok o) :
    ∀ part ∈ o.parts, part.IsPart s ∧ part.glyphs ≠ [] := by
  unfold outlineKeyword at h
  split at h
  · cases h
  · next opening rest =>
    split at h
    · split at h
      · cases h
      · next arguments closing hcut =>
        have hns' : ns = ks ++ [opening] ++ arguments ++ [closing] := by
          simp [hsplit, append_of_cutAt hcut]
        exact isPart_of_outlineArguments hns hns' h
      · cases h
    · cases h

/-- What an outline leaves to be read are parts of the segment with characters in them. -/
theorem isPart_of_outline (hns : ns.map NestedGlyph.toGlyph = s.glyphs) (h : outline s ns = .ok o) :
    ∀ part ∈ o.parts, part.IsPart s ∧ part.glyphs ≠ [] := by
  cases division_outline s ns with
  | operand hresult =>
    cases h.symm.trans hresult
    exact nofun
  | operator hsplit _ _ _ _ hresult =>
    exact isPart_of_outlineOperator hns hsplit (hresult.symm.trans h)
  | keyword hsplit _ _ hresult => exact isPart_of_outlineKeyword hns hsplit (hresult.symm.trans h)
  | misplaced _ hresult => cases h.symm.trans hresult

end Outline

/-- A character that is read stands in the source text at its position, with what is read before it
on its left and what is read after it on its right. -/
theorem exists_of_glyphsFrom {start : Nat} {source : List Char} {before after : List Glyph}
    {g : Glyph} (h : glyphsFrom start source = before ++ g :: after) :
    ∃ left raw right, source = left ++ raw :: right ∧ isBlank raw = false ∧
      glyphsFrom start left = before ∧ g = ⟨readAs raw, start + left.length⟩ ∧
      glyphsFrom (start + left.length + 1) right = after := by
  induction source generalizing start before with
  | nil => simp [glyphsFrom] at h
  | cons c source ih =>
    have hlength (left : List Char) : start + (c :: left).length = start + 1 + left.length := by
      rw [List.length_cons]
      omega
    unfold glyphsFrom at h
    split at h
    · next hblank =>
      obtain ⟨left, raw, right, rfl, hraw, hbefore, hg, hafter⟩ := ih h
      have hbefore' : glyphsFrom start (c :: left) = before := by
        rw [glyphsFrom, if_pos hblank, hbefore]
      exact ⟨c :: left, raw, right, rfl, hraw, hbefore', hlength left ▸ hg, hlength left ▸ hafter⟩
    · next hblank =>
      cases before with
      | nil =>
        obtain ⟨rfl, rfl⟩ := List.cons.inj h
        exact ⟨[], c, source, rfl, Bool.eq_false_iff.mpr hblank, rfl, rfl, rfl⟩
      | cons first before =>
        obtain ⟨rfl, hrest⟩ := List.cons.inj h
        obtain ⟨left, raw, right, rfl, hraw, hbefore, hg, hafter⟩ := ih hrest
        have hbefore' : glyphsFrom start (c :: left) = ⟨readAs c, start⟩ :: before := by
          rw [glyphsFrom, if_neg hblank, hbefore]
        exact ⟨c :: left, raw, right, rfl, hraw, hbefore', hlength left ▸ hg,
          hlength left ▸ hafter⟩

end Univariate
