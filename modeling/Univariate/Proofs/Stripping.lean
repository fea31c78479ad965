import Univariate.Proofs.BracketFaults
import Univariate.Proofs.Reformatting

/-!
# What stripping takes off

Stripping keeps the characters of a segment and its range in step. Each bracket pair that it takes
off has blanks around it and a text with paired brackets between it, so that by induction on the
text what lies outside the range are blanks and brackets, of which the ones on the left are the
partners of those on the right, the outermost with the outermost.
-/

namespace Univariate

/-- A text is balanced if the characters that are read of it are. -/
theorem balanced_of_balanced_glyphsFrom (start : Nat) {source : List Char}
    (h : Balanced ((glyphsFrom start source).map Glyph.char)) : Balanced source := by
  rw [char_glyphsFrom start, ← char_glyphsFrom 0] at h
  have hnesting := nesting_nest source
  rw [nest_eq_ok_iff.mpr ⟨h, rfl⟩] at hnesting
  cases hnesting with
  | balanced hsource => exact hsource

/-- Brackets are stripped from a text that has nothing but blanks outside them, and what is left is
the text between them. -/
theorem exists_of_strip?_ofText {start : Nat} {text : List Char} {inner : Segment}
    (h : (Segment.ofText start text).strip? = some inner) :
    ∃ a m b, text = a ++ '(' :: (m ++ ')' :: b) ∧ a.all isBlank = true ∧ b.all isBlank = true ∧
      Paired m ∧ inner = .ofText (start + a.length + 1) m := by
  obtain ⟨first, last, hglyphs, hstart, hstop, hfirst, hlast, hbalanced⟩ := exists_of_strip? h
  have hglyphs : glyphsFrom start text = [] ++ first :: (inner.glyphs ++ [last]) := hglyphs
  obtain ⟨a, opening, rest, rfl, -, ha, rfl, hrest⟩ := exists_of_glyphsFrom hglyphs
  obtain ⟨m, closing, b, rfl, -, hm, rfl, hb⟩ := exists_of_glyphsFrom hrest
  have hopening : opening = '(' := (readAs_eq_bracket_iff (.inl rfl)).mp hfirst
  have hclosing : closing = ')' := (readAs_eq_bracket_iff (.inr rfl)).mp hlast
  have hpaired : Paired m := by
    refine paired_iff_balanced.mpr (balanced_of_balanced_glyphsFrom (start + a.length + 1) ?_)
    rw [hm]
    exact hbalanced
  refine ⟨a, m, b, by rw [hopening, hclosing], all_isBlank_of_glyphsFrom ha,
    all_isBlank_of_glyphsFrom hb, hpaired, ?_⟩
  rw [Segment.ofText, hm]
  exact congrArg₂ (Segment.mk · · inner.glyphs) hstart hstop

/-- A text stands between two others that hold nothing but blanks and the bracket pairs around
it. -/
inductive Encloses : List Char → List Char → List Char → Prop
  | bare (m : List Char) : Encloses [] m []
  | pair {a l m r b : List Char} (ha : a.all isBlank = true) (hb : b.all isBlank = true)
      (hpaired : Paired (l ++ m ++ r)) (h : Encloses l m r) :
      Encloses (a ++ '(' :: l) m (r ++ ')' :: b)

/-- Stripping a text leaves a text between blanks and bracket pairs, at its place. -/
theorem strip_ofText (start : Nat) (text : List Char) : ∃ l m r, text = l ++ m ++ r ∧
    Encloses l m r ∧ (Segment.ofText start text).strip = .ofText (start + l.length) m := by
  induction hn : text.length using Nat.strongRecOn generalizing start text with
  | ind n ih =>
    subst hn
    cases hstrip : (Segment.ofText start text).strip? with
    | none => exact ⟨[], text, [], by simp, .bare text, strip_of_none hstrip⟩
    | some inner =>
      obtain ⟨a, w, b, rfl, ha, hb, hw, rfl⟩ := exists_of_strip?_ofText hstrip
      have hlength : w.length < (a ++ '(' :: (w ++ ')' :: b)).length := by
        simp only [List.length_append, List.length_cons]
        omega
      obtain ⟨l, m, r, rfl, hencloses, hinner⟩ := ih _ hlength (start + a.length + 1) w rfl
      have hplace : start + a.length + 1 + l.length = start + (a ++ '(' :: l).length := by
        simp only [List.length_append, List.length_cons]
        omega
      refine ⟨a ++ '(' :: l, m, r ++ ')' :: b, by simp, .pair ha hb hw hencloses, ?_⟩
      rw [strip_of_strip? hstrip, hinner, hplace]

/-- The positions of the characters of a text that are not blank, in a source text in which the text
starts at a position. -/
def visiblePositions (start : Nat) (text : List Char) : List Nat :=
  (glyphsFrom start text).map Glyph.position

/-- The visible positions of two texts are those of the first and those of the second behind it. -/
theorem visiblePositions_append (start : Nat) (v w : List Char) : visiblePositions start (v ++ w) =
    visiblePositions start v ++ visiblePositions (start + v.length) w := by
  rw [visiblePositions, glyphsFrom_append, List.map_append]
  rfl

/-- A blank text has no visible positions. -/
theorem visiblePositions_of_all_isBlank {w : List Char} (hw : w.all isBlank = true) (start : Nat) :
    visiblePositions start w = [] := by
  induction w generalizing start with
  | nil => rfl
  | cons c w ih =>
    rw [List.all_cons, Bool.and_eq_true] at hw
    rw [visiblePositions, glyphsFrom, if_pos hw.1]
    exact ih hw.2 (start + 1)

/-- A character that is not blank stands at the first visible position. -/
theorem visiblePositions_cons {c : Char} (hc : isBlank c = false) (start : Nat) (w : List Char) :
    visiblePositions start (c :: w) = start :: visiblePositions (start + 1) w := by
  rw [visiblePositions, glyphsFrom, if_neg (by rw [hc]; exact Bool.false_ne_true)]
  rfl

/-- The visible positions of a text that starts further to the right are moved along. -/
theorem visiblePositions_shift (start distance : Nat) (w : List Char) :
    visiblePositions (start + distance) w = (visiblePositions start w).map (· + distance) := by
  rw [visiblePositions, glyphsFrom_shift, visiblePositions, List.map_map, List.map_map]
  rfl

/-- Partners in a part of a text are partners in the text. -/
theorem ArePartners.within {w : List Char} {i j : Nat} (h : ArePartners w i j) (l r : List Char) :
    ArePartners (l ++ w ++ r) (i + l.length) (j + l.length) := by
  obtain ⟨l', v, r', rfl, hv, rfl, rfl⟩ := h
  refine ⟨l ++ l', v, r' ++ r, by simp, hv, ?_, by omega⟩
  rw [List.length_append, Nat.add_comm]

/-- What encloses a text are blanks, and opening brackets on the left and closing ones on the right.
-/
theorem Encloses.brackets {l m r : List Char} (h : Encloses l m r) :
    (∀ c ∈ l, isBlank c = true ∨ c = '(') ∧ ∀ c ∈ r, isBlank c = true ∨ c = ')' := by
  induction h with
  | bare => simp
  | @pair a l m r b ha hb _ _ ih =>
    have ha : ∀ c ∈ a, isBlank c = true := List.all_eq_true.mp ha
    have hb : ∀ c ∈ b, isBlank c = true := List.all_eq_true.mp hb
    rw [List.forall_mem_append, List.forall_mem_cons, List.forall_mem_append, List.forall_mem_cons]
    exact ⟨⟨fun c hc => .inl (ha c hc), .inr rfl, ih.1⟩,
      ih.2, .inr rfl, fun c hc => .inl (hb c hc)⟩

/-- The brackets on the left are the partners of those on the right, from the outermost inwards. -/
theorem Encloses.partners {l m r : List Char} (h : Encloses l m r) :
    List.Forall₂ (ArePartners (l ++ m ++ r)) (visiblePositions 0 l)
      (visiblePositions (l ++ m).length r).reverse := by
  induction h with
  | bare => exact .nil
  | @pair a l m r b ha hb hpaired _ ih =>
    have hsource : a ++ '(' :: l ++ m ++ (r ++ ')' :: b) =
        a ++ ['('] ++ (l ++ m ++ r) ++ ')' :: b := by simp
    have hstart : (a ++ '(' :: l ++ m).length = (l ++ m).length + (a ++ ['(']).length := by
      simp only [List.length_append, List.length_cons, List.length_nil]
      omega
    have hstop : (l ++ m).length + (a ++ ['(']).length + r.length =
        a.length + (l ++ m ++ r).length + 1 := by
      simp only [List.length_append, List.length_cons, List.length_nil]
      omega
    have hleft : visiblePositions 0 (a ++ '(' :: l) =
        a.length :: (visiblePositions 0 l).map (· + (a ++ ['(']).length) := by
      rw [visiblePositions_append, visiblePositions_of_all_isBlank ha, List.nil_append,
        visiblePositions_cons rfl, ← visiblePositions_shift]
      simp
    have hright : (visiblePositions (a ++ '(' :: l ++ m).length (r ++ ')' :: b)).reverse =
        (a.length + (l ++ m ++ r).length + 1) ::
          (visiblePositions (l ++ m).length r).reverse.map (· + (a ++ ['(']).length) := by
      rw [hstart, visiblePositions_append, hstop, visiblePositions_cons rfl,
        visiblePositions_of_all_isBlank hb, List.reverse_append, visiblePositions_shift,
        List.map_reverse]
      rfl
    rw [hsource, hleft, hright]
    refine .cons ?_ ?_
    · exact ⟨a, l ++ m ++ r, b, by simp, hpaired, rfl, rfl⟩
    · rw [List.forall₂_map_left_iff, List.forall₂_map_right_iff]
      exact ih.imp fun i j hij => hij.within _ _

/-- A segment is a range of a source text that no bracket pair encloses. Outside the range lie only
blanks and as many opening brackets on the left as closing ones on the right, which are partners in
the source text, the first opening with the last closing one and so on inwards. -/
structure IsInnermost (source : List Char) (s : Segment) : Prop where
  start_le_stop : s.start ≤ s.stop
  stop_le_length : s.stop ≤ source.length
  glyphs_eq : s.glyphs = (glyphsFrom 0 (source.extract s.start s.stop)).map (Glyph.shift s.start)
  text_ne : ∀ v, Paired v → s.text ≠ '(' :: v ++ [')']
  before : ∀ c ∈ source.take s.start, isBlank c = true ∨ c = '('
  behind : ∀ c ∈ source.drop s.stop, isBlank c = true ∨ c = ')'
  partners : List.Forall₂ (ArePartners source) (visiblePositions 0 (source.take s.start))
    (visiblePositions s.stop (source.drop s.stop)).reverse

/-- Stripping a source text leaves the characters that are read of the range within all its bracket
pairs, with their positions. -/
theorem strip_keeps_range (source : List Char) :
    IsInnermost source (Segment.ofSource source).strip := by
  have hwhole : Segment.ofSource source = .ofText 0 source := by
    rw [Segment.ofSource, Segment.ofText, Nat.zero_add]
  obtain ⟨l, m, r, hsource, hencloses, hstrip⟩ := strip_ofText 0 source
  have hinner := strip?_strip (Segment.ofSource source)
  rw [hwhole, hstrip, Nat.zero_add] at hinner ⊢
  generalize hs : Segment.ofText l.length m = s at hinner ⊢
  have hstart : s.start = l.length := by rw [← hs]; rfl
  have hstop : s.stop = (l ++ m).length := by rw [← hs, List.length_append]; rfl
  have hleft : source.take s.start = l := by rw [hstart, hsource, List.append_assoc, List.take_left]
  have hright : source.drop s.stop = r := by rw [hstop, hsource, List.drop_left]
  have hmiddle : source.extract s.start s.stop = m := by
    rw [List.extract_eq_take_drop, hstart, hstop, hsource, List.append_assoc, List.drop_left,
      List.length_append, Nat.add_sub_cancel_left, List.take_left]
  constructor
  case start_le_stop =>
    rw [hstart, hstop]
    exact (List.prefix_append l m).length_le
  case stop_le_length =>
    rw [hstop, hsource]
    exact (List.prefix_append (l ++ m) r).length_le
  case glyphs_eq =>
    rw [hmiddle, hstart, ← glyphsFrom_shift, Nat.zero_add, ← hs]
    rfl
  case text_ne =>
    intro v hv htext
    obtain ⟨inner, hsome, -⟩ := exists_strip? (paired_iff_balanced.mp hv) htext
    cases hinner.symm.trans hsome
  case before => exact hleft ▸ hencloses.brackets.1
  case behind => exact hright ▸ hencloses.brackets.2
  case partners =>
    rw [hleft, hright, hstop, hsource]
    exact hencloses.partners

end Univariate
