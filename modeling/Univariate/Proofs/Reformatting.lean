import Mathlib.Data.List.Forall2
import Univariate.Proofs.BracketFaults
import Univariate.Proofs.FaultPlaces

/-!
# Reformatting a text

Blanks, capitals and the sign for the decimal point are no part of what a text says. Every source
text is a numbered text, in which there is room between any two characters, with its characters in
other places. Two texts with the same characters are therefore read alike. Brackets around a text
are stripped, and only move it by one position.
-/

namespace Univariate

/-- Two characters are the same up to the case of ASCII letters and up to the sign for the decimal
point. -/
def SameCharacter (c d : Char) : Prop :=
  c.toLower = d.toLower ∨ ((c = ',' ∨ c = '.') ∧ (d = ',' ∨ d = '.'))

/-- The characters of a text that are not blank. -/
def visible (source : List Char) : List Char := source.filter fun c => !isBlank c

/-- Two texts have the same characters in the same order, whatever their blanks. -/
def SameText (source source' : List Char) : Prop :=
  List.Forall₂ SameCharacter (visible source) (visible source')

/-- Characters that are the same up to reformatting are read alike. -/
theorem SameCharacter.readAs_eq {c d : Char} (h : SameCharacter c d) : readAs c = readAs d := by
  have hcomma {c d : Char} (h : c.toLower = d.toLower) (hc : c = ',') : d = ',' := by
    refine eq_of_toLower_eq (h.symm.trans ?_) (by decide +kernel)
    rw [hc]
    rfl
  rcases h with hlower | ⟨rfl | rfl, rfl | rfl⟩
  · have hiff : c = ',' ↔ d = ',' := ⟨hcomma hlower, hcomma hlower.symm⟩
    simp only [readAs, hiff, hlower]
  · rfl
  · rfl
  · rfl
  · rfl

/-- Texts that are the same up to reformatting are read alike, character by character. -/
theorem map_readAs_eq {v w : List Char} (h : List.Forall₂ SameCharacter v w) :
    v.map readAs = w.map readAs := by
  induction h with
  | nil => rfl
  | cons hcd _ ih => rw [List.map_cons, List.map_cons, hcd.readAs_eq, ih]

/-- Texts with the same characters are cleaned to the same text. -/
theorem SameText.cleaned_eq {source source' : List Char} (h : SameText source source') :
    cleaned source = cleaned source' :=
  map_readAs_eq h

/-- The `k`th character of a text that is not blank, counted from zero, with its position. -/
def VisibleAt (source : List Char) (k position : Nat) (c : Char) : Prop :=
  source[position]? = some c ∧ isBlank c = false ∧ (visible (source.take position)).length = k

-- Where two characters stand side by side, the position behind the first is that of the second.
-- The place behind an opening bracket and that of the next character can be told apart only if
-- there is room between them.
/-- The segment of a text in which the `k`th character stands at the position `2 * k + 1`. -/
def Segment.numbered (w : List Char) : Segment :=
  ⟨0, 2 * w.length + 1, w.mapIdx fun k c => ⟨c, 2 * k + 1⟩⟩

/-- The position in a source text of a position in the numbered text of its characters. -/
def numberedPosition (source : List Char) : Nat → Nat
  | 0 => 0
  | n + 1 => ((glyphsFrom 0 source)[n / 2]?.map Glyph.position).getD source.length + n % 2

variable {source : List Char} {k : Nat}

/-- A character of the numbered text stands where it does in the source text. -/
theorem numberedPosition_character (source : List Char) (k : Nat) :
    numberedPosition source (2 * k + 1) =
      ((glyphsFrom 0 source)[k]?.map Glyph.position).getD source.length := by
  have hdiv : 2 * k / 2 = k := by omega
  have hmod : 2 * k % 2 = 0 := by omega
  rw [numberedPosition, hdiv, hmod, Nat.add_zero]

/-- The position behind a character of the numbered text is moved along with it. -/
theorem numberedPosition_next (source : List Char) (k : Nat) :
    numberedPosition source (2 * k + 2) = numberedPosition source (2 * k + 1) + 1 := by
  have hdiv : (2 * k + 1) / 2 = k := by omega
  have hmod : (2 * k + 1) % 2 = 1 := by omega
  rw [numberedPosition_character, numberedPosition, hdiv, hmod]

/-- The numbered text has its characters at the odd positions. -/
theorem getElem?_numbered (w : List Char) (k : Nat) :
    (Segment.numbered w).glyphs[k]? = w[k]?.map fun c => ⟨c, 2 * k + 1⟩ :=
  List.getElem?_mapIdx

/-- The characters of the cleaned text are those of the source text, in order. -/
theorem getElem?_cleaned (source : List Char) (k : Nat) :
    (cleaned source)[k]? = (glyphsFrom 0 source)[k]?.map Glyph.char := by
  rw [← char_glyphsFrom 0, List.getElem?_map]

/-- A source text has the characters of its numbered text at its own positions. -/
theorem place_numbered (source : List Char) :
    (Segment.numbered (cleaned source)).place (numberedPosition source) = .ofSource source := by
  have hlength : (glyphsFrom 0 source)[(cleaned source).length]? = none := by
    rw [← char_glyphsFrom 0, List.length_map]
    exact List.getElem?_eq_none (Nat.le_refl _)
  have hstop : numberedPosition source (2 * (cleaned source).length + 1) = source.length := by
    rw [numberedPosition_character, hlength]
    rfl
  have hglyphs : (Segment.numbered (cleaned source)).glyphs.map
      (Glyph.place (numberedPosition source)) = glyphsFrom 0 source := by
    refine List.ext_getElem? fun k => ?_
    rw [List.getElem?_map, getElem?_numbered, getElem?_cleaned]
    cases hg : (glyphsFrom 0 source)[k]? with
    | none => rfl
    | some g => simp [Glyph.place, numberedPosition_character, hg]
  rw [Segment.place, hglyphs]
  show (⟨0, numberedPosition source (2 * (cleaned source).length + 1), _⟩ : Segment) = _
  rw [hstop]
  rfl

/-- Every character of the numbered text stands at an odd position. -/
theorem exists_of_mem_numbered {w : List Char} {g : Glyph} (h : g ∈ (Segment.numbered w).glyphs) :
    ∃ k < w.length, g.position = 2 * k + 1 := by
  obtain ⟨k, hk, rfl⟩ := List.mem_mapIdx.mp h
  exact ⟨k, hk, rfl⟩

/-- The positions in the source text are kept next to the characters of the numbered text. -/
theorem keepsNext_numbered (source : List Char) :
    KeepsNext (numberedPosition source) (Segment.numbered (cleaned source)).glyphs := by
  intro g hg
  obtain ⟨k, -, hposition⟩ := exists_of_mem_numbered hg
  rw [hposition]
  exact numberedPosition_next source k

/-- The positions of the numbered text increase. -/
theorem ordered_numbered (w : List Char) : (Segment.numbered w).Ordered where
  increasing := by
    rw [List.pairwise_iff_getElem]
    intro i j hi hj hij
    simp only [Segment.numbered, List.getElem_mapIdx]
    omega
  lt_stop g hg := by
    obtain ⟨k, hk, hposition⟩ := exists_of_mem_numbered hg
    show g.position < 2 * w.length + 1
    omega

/-- Every character of a numbered text stands at its place in the source text. -/
theorem exists_visibleAt {d : Char} (h : (cleaned source)[k]? = some d) :
    ∃ c, readAs c = d ∧ VisibleAt source k (numberedPosition source (2 * k + 1)) c := by
  rw [getElem?_cleaned] at h
  obtain ⟨g, hg, rfl⟩ := Option.map_eq_some_iff.mp h
  obtain ⟨before, after, hgs, rfl⟩ := exists_append_of_getElem? hg
  rw [numberedPosition_character, hg]
  obtain ⟨left, c, right, rfl, hblank, rfl, rfl, -⟩ := exists_of_glyphsFrom hgs
  have hcount : (visible left).length = (glyphsFrom 0 left).length := by
    have hlength := congrArg List.length (char_glyphsFrom 0 left)
    rw [List.length_map, cleaned, List.length_map] at hlength
    exact hlength.symm
  refine ⟨c, rfl, ?_, hblank, ?_⟩
  · simp
  · simpa using hcount

/-- An error about a numbered text points at one of its characters, or behind the opening one of two
brackets with nothing between them. -/
theorem ParseError.IsAbout.exists_number {w : List Char} {e : ParseError}
    (h : e.IsAbout (Segment.numbered w).glyphs) :
    (∃ k c, w[k]? = some c ∧ e.offset = 2 * k + 1) ∨
      ∃ k, w[k]? = some '(' ∧ w[k + 1]? = some ')' ∧ e.fault = .missingOperand ∧
        e.offset = 2 * k + 2 := by
  have hnumber {g : Glyph} {k : Nat} (hg : (Segment.numbered w).glyphs[k]? = some g) :
      w[k]? = some g.char ∧ g.position = 2 * k + 1 := by
    rw [getElem?_numbered] at hg
    obtain ⟨c, hc, rfl⟩ := Option.map_eq_some_iff.mp hg
    exact ⟨hc, rfl⟩
  cases h with
  | @character before after g fault hgs =>
    obtain ⟨hchar, hposition⟩ := hnumber (k := before.length) (g := g) (by simp [hgs])
    exact .inl ⟨before.length, g.char, hchar, hposition⟩
  | @emptyBrackets before after opening closing hgs hopening hclosing =>
    obtain ⟨hchar, hposition⟩ := hnumber (k := before.length) (g := opening) (by simp [hgs])
    obtain ⟨hchar', -⟩ := hnumber (k := before.length + 1) (g := closing) (by simp [hgs])
    exact .inr ⟨before.length, hopening ▸ hchar, hclosing ▸ hchar', rfl,
      congrArg (· + 1) hposition⟩

/-- Two texts are read alike: as the same tree, or with the same fault at the same character. The
place between two brackets with nothing between them and that in a blank text are no characters. -/
inductive Agree {β : Type} (source source' : List Char) :
    Except ParseError β → Except ParseError β → Prop
  | tree (b : β) : Agree source source' (.ok b) (.ok b)
  | character (fault : Fault) {k p p' : Nat} {c c' : Char} (h : VisibleAt source k p c)
      (h' : VisibleAt source' k p' c') :
      Agree source source' (.error (.atPosition fault p)) (.error (.atPosition fault p'))
  | emptyBrackets {k p p' q q' : Nat} (hopening : VisibleAt source k p '(')
      (hclosing : VisibleAt source (k + 1) q ')') (hopening' : VisibleAt source' k p' '(')
      (hclosing' : VisibleAt source' (k + 1) q' ')') :
      Agree source source' (.error (.atPosition .missingOperand (p + 1)))
        (.error (.atPosition .missingOperand (p' + 1)))
  | blank (h : source.all isBlank = true) (h' : source'.all isBlank = true) :
      Agree source source' (.error ⟨.missingOperand, [.within source.length 0]⟩)
        (.error ⟨.missingOperand, [.within source'.length 0]⟩)

section Reading

variable {α : Type} [Scalar α] [HasNumerals α] {letter : Char}

/-- A source text is read like the numbered text, with its faults at the places in the source. -/
theorem placed_numbered (letter : Char) (source : List Char) :
    Placed (numberedPosition source) id
      (parseSegment letter (.numbered (cleaned source)) : Except ParseError (Expr α))
      (parseSegment letter (.ofSource source)) := by
  have hplaced : Placed (numberedPosition source) id
      (parseSegment letter (.numbered (cleaned source)) : Except ParseError (Expr α))
      (parseSegment letter ((Segment.numbered (cleaned source)).place (numberedPosition source))) :=
    parseSegment_place (keepsNext_numbered source)
  rwa [place_numbered] at hplaced

/-- A fault of a numbered text that is not empty is that of the source text, where its place is. -/
theorem parse_of_numbered_eq_error {e : ParseError} (hne : cleaned source ≠ [])
    (he : (parseSegment letter.toLower (.numbered (cleaned source)) : Except ParseError (Expr α)) =
      .error e) :
    (parse letter source : Except ParseError (Expr α)) =
      .error (.atPosition e.fault (numberedPosition source e.offset)) := by
  have hplaced := placed_numbered (α := α) letter.toLower source
  rw [he] at hplaced
  obtain ⟨e', he', hfault, hoffset⟩ := hplaced.exists_offset
  have hglyphs : (Segment.ofSource source).glyphs ≠ [] := by
    rw [← text_ofSource] at hne
    exact fun hnil => hne (by rw [Segment.text, hnil]; rfl)
  have habout := isAbout_of_parseSegment (Segment.ordered_ofSource source) hglyphs he'
  rw [parse, he', habout.eq_atPosition, hfault, hoffset]

/-- A blank text misses an operand, from its start to its end. -/
theorem parse_of_blank (letter : Char) (h : cleaned source = []) :
    source.all isBlank = true ∧ (parse letter source : Except ParseError (Expr α)) =
      .error ⟨.missingOperand, [.within source.length 0]⟩ := by
  have hglyphs : glyphsFrom 0 source = [] := List.map_eq_nil_iff.mp ((char_glyphsFrom 0 _).trans h)
  exact ⟨all_isBlank_of_glyphsFrom hglyphs, parseSegment_of_glyphs_eq_nil hglyphs⟩

/-- A bracket of the cleaned text is a visible one of the source text. -/
theorem visibleAt_bracket {c : Char} (hc : c = '(' ∨ c = ')') (h : (cleaned source)[k]? = some c) :
    VisibleAt source k (numberedPosition source (2 * k + 1)) c := by
  obtain ⟨raw, hraw, hvisible⟩ := exists_visibleAt h
  rwa [(readAs_eq_bracket_iff hc).mp hraw] at hvisible

/-- Texts with the same characters are read alike. -/
theorem agree_parse {source' : List Char} (hsame : cleaned source = cleaned source') :
    Agree source source' (parse letter source : Except ParseError (Expr α))
      (parse letter source') := by
  by_cases hnil : cleaned source = []
  · obtain ⟨hblank, hparse⟩ := parse_of_blank (α := α) letter hnil
    obtain ⟨hblank', hparse'⟩ := parse_of_blank (α := α) letter (hsame ▸ hnil)
    rw [hparse, hparse']
    exact .blank hblank hblank'
  · have hplaced := placed_numbered (α := α) letter.toLower source
    have hplaced' := placed_numbered (α := α) letter.toLower source'
    cases hread : (parseSegment letter.toLower (.numbered (cleaned source)) :
        Except ParseError (Expr α)) with
    | ok t =>
      rw [hread] at hplaced
      rw [← hsame, hread] at hplaced'
      rw [parse, parse, hplaced.eq_ok, hplaced'.eq_ok]
      exact .tree t
    | error e =>
      rw [parse_of_numbered_eq_error hnil hread,
        parse_of_numbered_eq_error (hsame ▸ hnil) (hsame ▸ hread)]
      have hnonempty : (Segment.numbered (cleaned source)).glyphs ≠ [] :=
        fun hempty => hnil (List.mapIdx_eq_nil_iff.mp hempty)
      have habout := isAbout_of_parseSegment (ordered_numbered _) hnonempty hread
      rcases habout.exists_number with
        ⟨k, c, hc, hoffset⟩ | ⟨k, hopening, hclosing, hfault, hoffset⟩
      · obtain ⟨raw, -, hvisible⟩ := exists_visibleAt hc
        obtain ⟨raw', -, hvisible'⟩ := exists_visibleAt (hsame ▸ hc)
        rw [hoffset]
        exact .character e.fault hvisible hvisible'
      · rw [hoffset, hfault, numberedPosition_next, numberedPosition_next]
        exact .emptyBrackets (visibleAt_bracket (.inl rfl) hopening)
          (visibleAt_bracket (.inr rfl) hclosing) (visibleAt_bracket (.inl rfl) (hsame ▸ hopening))
          (visibleAt_bracket (.inr rfl) (hsame ▸ hclosing))

/-- The characters of two texts after each other are those of the first and, moved, of the second.
-/
theorem glyphsFrom_append (start : Nat) (v w : List Char) :
    glyphsFrom start (v ++ w) = glyphsFrom start v ++ glyphsFrom (start + v.length) w := by
  induction v generalizing start with
  | nil => rfl
  | cons c v ih =>
    have hnext : start + 1 + v.length = start + (c :: v).length := by
      rw [List.length_cons]
      omega
    rw [List.cons_append, glyphsFrom, glyphsFrom, ih, hnext]
    split <;> rfl

/-- Stripping the brackets around a text leaves the text, one position further to the right. -/
theorem strip?_brackets (h : Balanced (cleaned source)) :
    (Segment.ofSource ('(' :: source ++ [')'])).strip? =
      some ((Segment.ofSource source).shift 1) := by
  have hglyphs : glyphsFrom 0 ('(' :: source ++ [')']) =
      ⟨'(', 0⟩ :: (glyphsFrom 1 source ++ [⟨')', 1 + source.length⟩]) := by
    rw [List.cons_append, glyphsFrom, if_neg (by decide), glyphsFrom_append]
    rfl
  have hbalanced : balancedFrom 0 ((glyphsFrom 1 source).map Glyph.char) = true := by
    rw [char_glyphsFrom]
    exact h
  rw [← Segment.ofText_eq_shift, Segment.strip?, Segment.ofSource, hglyphs]
  simp [hbalanced, Segment.ofText]

/-- Where a segment ends is of no importance but for the place of a missing operand. -/
theorem parseSegment_of_strip? (letter : Char) {s t : Segment} (h : s.strip? = some t) :
    (parseSegment letter s : Except ParseError (Expr α)) = parseSegment letter t ∨
      ∃ start, (parseSegment letter s : Except ParseError (Expr α)) =
          .error ⟨.missingOperand, [.within s.stop start]⟩ ∧
        (parseSegment letter t : Except ParseError (Expr α)) =
          .error ⟨.missingOperand, [.within t.stop start]⟩ := by
  rw [parseSegment_eq s, parseSegment_eq t, strip_of_strip? h]
  cases nest t.strip.glyphs with
  | error e => exact .inl rfl
  | ok ns =>
    cases ns with
    | nil => exact .inr ⟨t.strip.start, rfl, rfl⟩
    | cons first rest => exact .inl rfl

/-- Brackets around a paired text keep its tree, and move its fault by one position. -/
theorem parse_brackets (letter : Char) (h : Paired source) :
    (∀ t : Expr α, parse letter source = .ok t →
      parse letter ('(' :: source ++ [')']) = .ok t) ∧
    ∀ e, (parse letter source : Except ParseError (Expr α)) = .error e →
      ∃ e', (parse letter ('(' :: source ++ [')']) : Except ParseError (Expr α)) = .error e' ∧
        e'.fault = e.fault ∧ e'.offset = e.offset + 1 := by
  have hbalanced : Balanced (cleaned source) := text_ofSource source ▸ balanced_ofSource h
  have hstripped := parseSegment_of_strip? (α := α) letter.toLower (strip?_brackets hbalanced)
  have hplaced : Placed (· + 1) id (parse letter source : Except ParseError (Expr α))
      (parseSegment letter.toLower ((Segment.ofSource source).shift 1)) :=
    parseSegment_place (keepsNext_add _)
  constructor
  · intro t ht
    rw [ht] at hplaced
    rcases hstripped with hsame | ⟨start, -, hinner⟩
    · exact hsame.trans hplaced.eq_ok
    · cases hplaced.eq_ok.symm.trans hinner
  · intro e he
    rw [he] at hplaced
    obtain ⟨e', he', hfault, hoffset⟩ := hplaced.exists_offset
    rcases hstripped with hsame | ⟨start, houter, hinner⟩
    · exact ⟨e', hsame.trans he', hfault, hoffset⟩
    · cases he'.symm.trans hinner
      rw [offset_within] at hoffset
      exact ⟨_, houter, hfault, (offset_within _ _).trans hoffset⟩

end Reading

/-- Reformatting a text does not change how it is parsed: texts with the same characters are read
alike whatever their blanks, and brackets around a text with paired brackets only move the place of
its fault. -/
theorem parse_ignores_formatting {α : Type} [Scalar α] [HasNumerals α] (letter : Char)
    (source : List Char) :
    (∀ source', SameText source source' →
      Agree source source' (parse letter source : Except ParseError (Expr α))
        (parse letter source')) ∧
    (Paired source →
      (∀ t : Expr α, parse letter source = .ok t →
        parse letter ('(' :: source ++ [')']) = .ok t) ∧
      ∀ e, (parse letter source : Except ParseError (Expr α)) = .error e →
        ∃ e', (parse letter ('(' :: source ++ [')']) : Except ParseError (Expr α)) = .error e' ∧
          e'.fault = e.fault ∧ e'.offset = e.offset + 1) :=
  ⟨fun _ hsame => agree_parse hsame.cleaned_eq, parse_brackets letter⟩

/-- The text `X /` and the text `x/` lack an operand at the same character, and so does `(X /)`. -/
theorem parse_ignores_formatting_quotient :
    let source := ['X', ' ', '/']
    let e : ParseError := .atPosition .missingOperand 2
    SameText source ['x', '/'] ∧ Paired source ∧
      (parse 'x' source : Except ParseError (Expr Float)) = .error e ∧
      Agree source ['x', '/'] (.error e : Except ParseError (Expr Float)) (parse 'x' ['x', '/']) ∧
      ∃ e', (parse 'x' ('(' :: source ++ [')']) : Except ParseError (Expr Float)) = .error e' ∧
        e'.fault = .missingOperand ∧ e'.offset = 3 := by
  intro source e
  have hsame : SameText source ['x', '/'] := .cons (.inl rfl) (.cons (.inl rfl) .nil)
  have hpaired : Paired source := .cons (by decide) (by decide)
    (.cons (by decide) (by decide) (.cons (by decide) (by decide) .nil))
  have hstrip : (Segment.ofSource source).strip = .ofSource source := strip_of_none rfl
  have hparse : (parse 'x' source : Except ParseError (Expr Float)) = .error e :=
    error_of_outline (by rw [hstrip]; rfl) (by rw [hstrip]; rfl)
  obtain ⟨hagree, hbrackets⟩ := parse_ignores_formatting (α := Float) 'x' source
  obtain ⟨-, hfault⟩ := hbrackets hpaired
  exact ⟨hsame, hpaired, hparse, hparse ▸ hagree _ hsame, hfault e hparse⟩

end Univariate
