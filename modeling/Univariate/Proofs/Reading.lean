import Univariate.Proofs.OutlineOf
import Univariate.Source.Parse

/-!
# Reading follows the grammar

A segment is read as a tree exactly if the grammar derives its text as an expression with that tree.
Reading finds a derivation, by induction on the length of the segment; and every derivation is found,
by induction on the derivation.
-/

namespace Univariate

variable {α : Type} [Scalar α] [HasNumerals α] {letter : Char}

/-- Two steps succeed exactly if the first one does and the second one does with its result. -/
theorem bind_eq_ok_iff {ε β γ : Type} {x : Except ε β} {f : β → Except ε γ} {c : γ} :
    (x >>= f) = .ok c ↔ ∃ b, x = .ok b ∧ f b = .ok c := by
  constructor
  · intro h
    cases x with
    | error e => cases h
    | ok b => exact ⟨b, rfl, h⟩
  · rintro ⟨b, rfl, h⟩
    exact h

/-- What is read of a text with an outline. -/
def Outline.read (letter : Char) (first : NestedGlyph) (rest : List NestedGlyph) :
    Outline → Except ParseError (Expr α)
  | .operand => readOperand letter first rest
  | .negation inner => do
    let t ← parseSegment letter inner
    return -t
  | .dangling position right => do
    let _ : Expr α ← parseSegment letter right
    .error (.atPosition .missingOperand position)
  | .operator op left right => do
    let r ← parseSegment letter right
    let l ← parseSegment letter left
    return .apply2 op l r
  | .call1 op argument => do
    let t ← parseSegment letter argument
    return .apply1 op t
  | .call2 op first second => do
    let l ← parseSegment letter first
    let r ← parseSegment letter second
    return .apply2 op l r

/-- A segment is read in four stages: stripping, nesting, the outline, and its parts. -/
theorem parseSegment_eq (s : Segment) : (parseSegment letter s : Except ParseError (Expr α)) =
    match nest s.strip.glyphs with
    | .error e => .error e
    | .ok [] => .error ⟨.missingOperand, [.within s.stop s.strip.start]⟩
    | .ok (first :: rest) =>
      match outline s.strip (first :: rest) with
      | .error e => .error e
      | .ok o => o.read letter first rest := by
  rw [parseSegment]
  split
  · next hnest => rw [hnest]
  · next hnest => rw [hnest]
  · next first rest hnest =>
    rw [hnest]
    dsimp only
    split <;> rename_i houtline <;> rw [houtline] <;> rfl

/-- A segment is read through its outline. -/
theorem parseSegment_of_outline {s : Segment} {first : NestedGlyph} {rest : List NestedGlyph}
    {o : Outline} (hnest : nest s.strip.glyphs = .ok (first :: rest))
    (houtline : outline s.strip (first :: rest) = .ok o) :
    (parseSegment letter s : Except ParseError (Expr α)) = o.read letter first rest := by
  rw [parseSegment_eq, hnest]
  dsimp only
  rw [houtline]

/-- What an outline leaves to be read for a text to be read as a tree. -/
def Outline.Reads (letter : Char) (first : NestedGlyph) (rest : List NestedGlyph) :
    Outline → Expr α → Prop
  | .operand, t => readOperand letter first rest = .ok t
  | .negation inner, t => ∃ u, parseSegment letter inner = .ok u ∧ -u = t
  | .dangling _ _, _ => False
  | .operator op left right, t => ∃ r, parseSegment letter right = .ok r ∧
      ∃ l, parseSegment letter left = .ok l ∧ .apply2 op l r = t
  | .call1 op argument, t => ∃ u, parseSegment letter argument = .ok u ∧ .apply1 op u = t
  | .call2 op first second, t => ∃ l, parseSegment letter first = .ok l ∧
      ∃ r, parseSegment letter second = .ok r ∧ .apply2 op l r = t

/-- A segment is read as a tree exactly if its outline leaves the right things to be read. -/
theorem parseSegment_iff_reads {s : Segment} {t : Expr α} {first : NestedGlyph}
    {rest : List NestedGlyph} {o : Outline} (hnest : nest s.strip.glyphs = .ok (first :: rest))
    (houtline : outline s.strip (first :: rest) = .ok o) :
    parseSegment letter s = .ok t ↔ o.Reads letter first rest t := by
  rw [parseSegment_of_outline hnest houtline]
  cases o <;> simp [Outline.read, Outline.Reads, bind_eq_ok_iff, pure, Except.pure]

/-- Only segments with an outline are read. -/
theorem exists_outline_of_parseSegment {s : Segment} {t : Expr α}
    (h : parseSegment letter s = .ok t) : ∃ first rest o,
      nest s.strip.glyphs = .ok (first :: rest) ∧ outline s.strip (first :: rest) = .ok o := by
  rw [parseSegment_eq] at h
  split at h
  · cases h
  · cases h
  · next first rest hnest =>
    split at h
    · cases h
    · next o houtline => exact ⟨first, rest, o, hnest, houtline⟩

/-- Brackets around a segment make no difference. -/
theorem parseSegment_of_strip {s s' : Segment} {t : Expr α} (hstrip : s.strip = s'.strip)
    (h : parseSegment letter s' = .ok t) : parseSegment letter s = .ok t := by
  obtain ⟨first, rest, o, hnest, houtline⟩ := exists_outline_of_parseSegment h
  have hreads := (parseSegment_iff_reads hnest houtline).mp h
  rw [← hstrip] at hnest houtline
  exact (parseSegment_iff_reads hnest houtline).mpr hreads

/-- A text that is read through its outline is derived if its parts are. -/
theorem Outline.Describes.derives (hletter : isLetter letter = true) {o : Outline}
    {gs : List Glyph} {first : NestedGlyph} {rest : List NestedGlyph} {t : Expr α}
    (hgs : nestAt 0 gs = first :: rest) (hdescribes : o.Describes (first :: rest))
    (hreads : o.Reads letter first rest t)
    (hparts : ∀ part ∈ o.parts, ∀ u : Expr α, parseSegment letter part = .ok u →
      Derives letter (.chain .sum) part.text u) :
    Derives letter (.chain .sum) (gs.map Glyph.char) t := by
  have htext : gs.map Glyph.char = nestedText (first :: rest) := by
    rw [← hgs, nestedText_nestAt]
  cases o with
  | operand =>
    rw [htext]
    exact .sum_of_chain (.literal ((readOperand_eq_ok_iff hletter).mp hreads))
  | negation inner =>
    obtain ⟨g, rs, hns, hdepth, hg, hinner, hlevels⟩ := hdescribes
    obtain ⟨u, hu, rfl⟩ := hreads
    rw [hns] at hgs htext
    have hstart : nestAt 0 gs = [] ++ g :: rs := hgs
    obtain ⟨-, gs₂, -, hrs⟩ := exists_of_nestAt_eq hstart (by rw [hg]; decide) (by rw [hg]; decide)
    rw [hdepth] at hrs
    rw [← hrs] at hlevels
    have hu := hparts inner (by simp [Outline.parts]) u hu
    have hsigned := hu.signed_of_lt_sum hletter (by rw [hinner, ← hrs, nestedText_nestAt]) hlevels
    rw [htext, nestedText_cons, hg, ← hinner]
    exact .operand (.minus hsigned)
  | dangling position right => exact hreads.elim
  | operator op left right =>
    obtain ⟨ls, g, rs, hns, hdepth, hop, hleft, hright, hlevelsl, hlevelsr⟩ := hdescribes
    obtain ⟨r, hr, l, hl, rfl⟩ := hreads
    obtain ⟨hopen, hclose⟩ := not_bracket_of_ofOperator? hop
    obtain ⟨hoperator, hsymbol⟩ := Operation.ofOperator?_eq_some_iff.mp hop
    have hfunction := precedence_ne_function hoperator
    rw [hns] at hgs htext
    obtain ⟨gs₁, gs₂, hls, hrs⟩ := exists_of_nestAt_eq hgs hopen hclose
    rw [hdepth] at hrs
    rw [← hls] at hlevelsl
    rw [← hrs] at hlevelsr
    have hl := (hparts left (by simp [Outline.parts]) l hl).chain_of_le hletter hfunction
      (by rw [hleft, ← hls, nestedText_nestAt]) hlevelsl
    have hr := (hparts right (by simp [Outline.parts]) r hr).signed_of_lt hletter hfunction
      (by rw [hright, ← hrs, nestedText_nestAt]) (endsWithOperator_cons hop _) hlevelsr
    have hw : nestedText (ls ++ g :: rs) = left.text ++ op.symbol ++ right.text := by
      rw [hleft, hright, hsymbol]
      simp
    rw [htext, hw]
    exact .sum_of_chain (.operation hoperator rfl hl hr)
  | call1 op argument =>
    obtain ⟨u, hu, rfl⟩ := hreads
    rw [htext, hdescribes]
    exact .sum_of_chain (.call1 op (hparts argument (by simp [Outline.parts]) u hu))
  | call2 op left right =>
    obtain ⟨hop, hns⟩ := hdescribes
    obtain ⟨l, hl, r, hr, rfl⟩ := hreads
    rw [htext, hns]
    exact .sum_of_chain (.call2 hop (hparts left (by simp [Outline.parts]) l hl)
      (hparts right (by simp [Outline.parts]) r hr))

/-- What is derived for the text between brackets is derived for the text with them. -/
theorem derives_of_strip {s : Segment} {t : Expr α}
    (h : Derives letter (.chain .sum) s.strip.text t) : Derives letter (.chain .sum) s.text t := by
  fun_induction Segment.strip s with
  | case1 s inner hinner ih =>
    rw [text_of_strip? hinner]
    exact .sum_of_chain (.brackets (ih h))
  | case2 s hnone => exact h

/-- What is read is derived by the grammar. -/
theorem derives_of_parseSegment (hletter : isLetter letter = true) {s : Segment} {t : Expr α}
    (h : parseSegment letter s = .ok t) : Derives letter (.chain .sum) s.text t := by
  induction hn : s.glyphs.length using Nat.strongRecOn generalizing s t with
  | ind n ih =>
    subst hn
    obtain ⟨first, rest, o, hnest, houtline⟩ := exists_outline_of_parseSegment h
    have hreads := (parseSegment_iff_reads hnest houtline).mp h
    have hlength := congrArg List.length (toGlyph_of_nest hnest)
    rw [List.length_map] at hlength
    refine derives_of_strip ((describes_of_outline houtline).derives hletter
      (nest_eq_ok_iff.mp hnest).2 hreads fun part hpart u hu => ?_)
    have hshorter := outline_shorter houtline part hpart
    have hstrip := s.length_strip_le
    exact ih part.glyphs.length (by omega) hu rfl

/-- A segment with a text of the grammar is read through the outline of its nested characters. -/
theorem parseSegment_of_nestAt (hletter : isLetter letter = true) {c : Category} {s : Segment}
    {t : Expr α} {o : Outline} (ht : Derives letter c s.text t) (hstrip : s.strip = s)
    (houtline : outline s (nestAt 0 s.glyphs) = .ok o)
    (hreads : ∀ first rest, nestAt 0 s.glyphs = first :: rest → o.Reads letter first rest t) :
    parseSegment letter s = .ok t := by
  obtain ⟨first, rest, hcons⟩ : ∃ first rest, nestAt 0 s.glyphs = first :: rest := by
    refine List.exists_cons_of_ne_nil fun hnil => ht.ne_nil hletter ?_
    rw [Segment.text, ← char_nestAt 0, hnil]
    rfl
  have hnest : nest s.strip.glyphs = .ok (first :: rest) := by
    rw [hstrip]
    exact nest_eq_ok_iff.mpr ⟨ht.balanced hletter, hcons⟩
  have houtline : outline s.strip (first :: rest) = .ok o := by
    rw [hstrip, ← hcons]
    exact houtline
  exact (parseSegment_iff_reads hnest houtline).mpr (hreads first rest hcons)

/-- A segment with a function applied to a bracketed group is divided at its keyword. -/
theorem exists_outline_call {s : Segment} {op : Operation} {w : List Char}
    (hop : op.isKeyword = true) (hw : Balanced w)
    (hs : s.text = op.symbol ++ ('(' :: w ++ [')'])) :
    s.strip = s ∧ ∃ inner position opening closing, inner.map Glyph.char = w ∧
      opening.depth = 1 ∧ outline s (nestAt 0 s.glyphs) =
        outlineArguments op position opening (nestAt 1 inner) closing := by
  refine ⟨strip_of_plain hs (symbol_ne_nil op) (isPlain_of_mem_symbol hop), ?_⟩
  obtain ⟨ks, rest, hglyphs, hks, hrest⟩ := List.map_eq_append_iff.mp hs
  obtain ⟨first, inner, last, rfl, hfirst, hinner, hlast⟩ := exists_of_brackets hrest
  obtain ⟨position, houtline⟩ := outline_keyword (s := s) hop hks hfirst hlast (hinner ▸ hw)
  rw [← hglyphs] at houtline
  exact ⟨inner, position, ⟨first, 1⟩, last.position, hinner, rfl, houtline⟩

/-- Every segment with a text is read as a tree. -/
def ParsedAs (letter : Char) (w : List Char) (t : Expr α) : Prop :=
  ∀ s : Segment, s.text = w → parseSegment letter s = .ok t

namespace ParsedAs

variable {v w : List Char} {l r t : Expr α}

/-- An operator between texts that are parsed as its operands is parsed as the operation. -/
theorem operation (hletter : isLetter letter = true) {op : BinaryOp} (hop : op.isOperator = true)
    (hl : Derives letter (.chain op.precedence) v l)
    (hr : Derives letter (.signed op.precedence) w r) (hv : ParsedAs letter v l)
    (hw : ParsedAs letter w r) : ParsedAs letter (v ++ op.symbol ++ w) (.apply2 op l r) := by
  intro s hs
  have hwhole := Derives.operation hop rfl hl hr
  obtain ⟨x, hx, -⟩ := hl.exists_level_eq hletter hop rfl hs []
  obtain ⟨ls, g, rs, hgs, hls, hrs, hg⟩ := exists_of_operator hop hs
  have hends : endsWithOperator (ls.map Glyph.char).reverse = false := by
    rw [hls, ← List.append_nil v.reverse]
    exact hl.endsWithOperator_eq_false hletter []
  have hleft := hl.level_le hletter hls [] (by simp)
  have hright := hr.level_le hletter hrs (g.char :: (ls.map Glyph.char).reverse) fun _ _ =>
    endsWithOperator_cons hg _
  have htighter := level_tighter_lt (precedence_ne_function hop)
  have houtline := outline_operator (s := s) (hls ▸ hl.balanced hletter) hg hends
    (hl.glyphs_ne_nil hletter hls) (hr.glyphs_ne_nil hletter hrs) hleft
    fun y hy => Nat.lt_of_le_of_lt (hright y hy) htighter
  rw [← hgs] at houtline
  have hstrip := strip_of_topOperations (List.ne_nil_of_mem hx)
  exact parseSegment_of_nestAt hletter (hs ▸ hwhole) hstrip houtline fun first rest hcons =>
    ⟨r, hw _ (text_segmentOf_nestAt hrs _ _ 0), l, hv _ (text_segmentOf_nestAt hls _ _ 0), rfl⟩

/-- A minus in front of a text that is parsed as a tree is parsed as the negated tree. -/
theorem minus (hletter : isLetter letter = true) {p : Precedence}
    (ht : Derives letter (.signed p) w t) (hw : ParsedAs letter w t) :
    ParsedAs letter ('-' :: w) (-t) := by
  intro s hs
  have hwhole := Derives.minus ht
  obtain ⟨g, rs, hgs, hg, hrs⟩ := List.map_eq_cons_iff.mp hs
  have hlevels := ht.level_le hletter hrs ['-'] fun _ _ => rfl
  have houtline := outline_negation (s := s) hg (ht.glyphs_ne_nil hletter hrs) fun y hy =>
    Nat.lt_of_le_of_lt (hlevels y hy) (level_tighter_lt_three p)
  rw [← hgs] at houtline
  have hop : BinaryOp.ofOperator? g.char = some .subtraction := by rw [hg]; rfl
  have hstrip : s.strip = s := by
    refine strip_of_topOperations ?_
    rw [hgs, topOperations_operator hop fun _ => rfl]
    simp
  exact parseSegment_of_nestAt hletter (hs ▸ hwhole) hstrip houtline fun first rest hcons =>
    ⟨t, hw _ (text_segmentOf_nestAt hrs _ _ 0), rfl⟩

/-- A literal is parsed as its tree. -/
theorem literal (hletter : isLetter letter = true) (ht : Literal letter w t) :
    ParsedAs letter w t := by
  intro s hs
  have hwhole := Derives.literal ht
  have hstrip : s.strip = s := by
    rw [← List.append_nil w] at hs
    exact strip_of_plain hs ht.ne_nil (ht.isPlain hletter)
  have houtline := outline_operand (s := s) (ht.topOperations_eq_nil hletter hs)
  refine parseSegment_of_nestAt hletter (hs ▸ hwhole) hstrip houtline fun first rest hcons => ?_
  refine (readOperand_eq_ok_iff hletter).mpr ?_
  have hchars : s.glyphs.map Glyph.char = w := hs
  rw [← hcons, char_nestAt, hchars]
  exact ht

/-- A text in brackets is parsed as the text alone. -/
theorem brackets (hbalanced : Balanced w) (hw : ParsedAs letter w t) :
    ParsedAs letter ('(' :: w ++ [')']) t := by
  intro s hs
  obtain ⟨inner, hinner, htext⟩ := exists_strip? hbalanced hs
  exact parseSegment_of_strip (strip_of_strip? hinner) (hw inner htext)

/-- A function of one argument is parsed as the function of the tree of the argument. -/
theorem call1 (hletter : isLetter letter = true) (op : UnaryOp)
    (ht : Derives letter (.chain .sum) w t) (hw : ParsedAs letter w t) :
    ParsedAs letter (op.symbol ++ ('(' :: w ++ [')'])) (.apply1 op t) := by
  intro s hs
  have hwhole := Derives.call1 op ht
  obtain ⟨hstrip, inner, position, opening, closing, hinner, -, houtline⟩ :=
    exists_outline_call (isKeyword_unary op) (ht.balanced hletter) hs
  rw [outlineArguments_call1 (ht.glyphs_ne_nil hletter hinner)] at houtline
  exact parseSegment_of_nestAt hletter (hs ▸ hwhole) hstrip houtline fun first rest hcons =>
    ⟨t, hw _ (text_segmentOf_nestAt hinner _ _ 1), rfl⟩

/-- A function of two arguments is parsed as the operation on the trees of the arguments. -/
theorem call2 (hletter : isLetter letter = true) {op : BinaryOp} (hop : op.isOperator = false)
    (hl : Derives letter (.chain .sum) v l) (hr : Derives letter (.chain .sum) w r)
    (hv : ParsedAs letter v l) (hw : ParsedAs letter w r) :
    ParsedAs letter (op.symbol ++ ('(' :: (v ++ ';' :: w) ++ [')'])) (.apply2 op l r) := by
  intro s hs
  have hwhole := Derives.call2 hop hl hr
  have hbalanced := (hl.balanced hletter).separated (hr.balanced hletter)
  obtain ⟨hstrip, inner, position, opening, closing, hinner, hdepth, houtline⟩ :=
    exists_outline_call (isKeyword_of_not_isOperator hop) hbalanced hs
  obtain ⟨ls, rest, rfl, hls, hrest⟩ := List.map_eq_append_iff.mp hinner
  obtain ⟨separator, rs, rfl, hseparator, hrs⟩ := List.map_eq_cons_iff.mp hrest
  rw [outlineArguments_call2 hdepth hseparator (hls ▸ hl.balanced hletter)
    (hl.glyphs_ne_nil hletter hls) (hr.glyphs_ne_nil hletter hrs)
    (hl.enclosesSeparators hletter 1 ls hls)] at houtline
  exact parseSegment_of_nestAt hletter (hs ▸ hwhole) hstrip houtline fun first rest hcons =>
    ⟨l, hv _ (text_segmentOf_nestAt hls _ _ 1), r, hw _ (text_segmentOf_nestAt hrs _ _ 1), rfl⟩

end ParsedAs

/-- What the grammar derives is read as the tree of the derivation. -/
theorem parseSegment_of_derives (hletter : isLetter letter = true) {c : Category} {w : List Char}
    {t : Expr α} (h : Derives letter c w t) : ParsedAs letter w t := by
  induction h with
  | operation hop hp hl hr ihl ihr =>
    subst hp
    exact .operation hletter hop hl hr ihl ihr
  | operand ht ih => exact ih
  | tighter hp ht ih => exact ih
  | minus ht ih => exact .minus hletter ht ih
  | unsigned ht ih => exact ih
  | literal ht => exact .literal hletter ht
  | brackets ht ih => exact .brackets (ht.balanced hletter) ih
  | call1 op ht ih => exact .call1 hletter op ht ih
  | call2 hop hl hr ihl ihr => exact .call2 hletter hop hl hr ihl ihr

/-- A source text as the grammar sees it: without blanks, in lower case, and with a decimal point for
a decimal comma. -/
def cleaned (source : List Char) : List Char := (source.filter fun c => !isBlank c).map readAs

/-- Two texts after each other are cleaned one by one. -/
theorem cleaned_append (v w : List Char) : cleaned (v ++ w) = cleaned v ++ cleaned w := by
  simp [cleaned]

/-- A character that is not blank is read first. -/
theorem cleaned_cons {c : Char} (hblank : isBlank c = false) (w : List Char) :
    cleaned (c :: w) = readAs c :: cleaned w := by
  simp [cleaned, hblank]

/-- The characters of a source text have the cleaned text. -/
theorem char_glyphsFrom (position : Nat) (source : List Char) :
    (glyphsFrom position source).map Glyph.char = cleaned source := by
  induction source generalizing position with
  | nil => rfl
  | cons c source ih =>
    rw [glyphsFrom, cleaned, List.filter_cons]
    cases hblank : isBlank c with
    | true => simpa [cleaned] using ih (position + 1)
    | false => simpa [cleaned] using ih (position + 1)

/-- The segment of a source text has the cleaned text. -/
theorem text_ofSource (source : List Char) : (Segment.ofSource source).text = cleaned source :=
  char_glyphsFrom 0 source

/-- What the grammar derives for a source text is what is parsed. -/
theorem parse_of_derives (v : Letter) {source : List Char} {t : Expr α}
    (h : Derives v.char.toLower (.chain .sum) (cleaned source) t) :
    parse v.char source = .ok t :=
  parseSegment_of_derives (isLetter_toLower v.isLetter_char) h _ (text_ofSource source)

/-- A text has one tree. -/
theorem Derives.tree_unique (hletter : isLetter letter = true) {c : Category} {w : List Char}
    {t u : Expr α} (ht : Derives letter c w t) (hu : Derives letter c w u) : t = u := by
  have htext : (⟨0, 0, w.map fun c => ⟨c, 0⟩⟩ : Segment).text = w := by
    simp [Segment.text, Function.comp_def]
  have hread := parseSegment_of_derives hletter ht _ htext
  rw [parseSegment_of_derives hletter hu _ htext] at hread
  exact (Except.ok.inj hread).symm

/-- A source text is parsed as a tree exactly if the grammar derives it as an expression with that
tree. -/
theorem parse_eq_ok_iff_derives (v : Letter) (source : List Char) (t : Expr α) :
    parse v.char source = .ok t ↔
      Derives v.char.toLower (.chain .sum) (cleaned source) t := by
  constructor
  · intro h
    rw [← text_ofSource]
    exact derives_of_parseSegment (isLetter_toLower v.isLetter_char) h
  · exact parse_of_derives v

end Univariate
