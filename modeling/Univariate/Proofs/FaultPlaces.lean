import Univariate.Double
import Univariate.Proofs.Reading
import Univariate.Proofs.SegmentParts

/-!
# Faults point at what they are about

Every error has one place, the character of the source text that its fault is about. Whichever part
of the text cannot be read, the fault is found at a character of that part, and a part is a piece of
the text with the positions that its characters have there. Only the place of an empty bracketed
group is not that of a character that is read: it is the position after the opening bracket.
-/

namespace Univariate

/-- What a fault says about the character that it is found at and those that follow. -/
def Fault.Marks (g : Glyph) (after : List Glyph) : Fault → Prop
  | unbalancedBracket opening => g.char = if opening then '(' else ')'
  | unexpectedCharacter c => g.char = c
  | missingOperand => isOperatorSymbol g.char = true ∨ g.char = ';' ∨ g.char = '(' ∨
      ∃ op : Operation, op.isKeyword = true ∧ op.symbol <+: g.char :: after.map Glyph.char
  | missingSeparator function => function.isOperator = false ∧
      function.symbol ++ ['('] <+: g.char :: after.map Glyph.char

/-- An error is about a character of a text, or about two brackets with nothing between them. -/
inductive ParseError.IsAbout (gs : List Glyph) : ParseError → Prop
  | character {before after : List Glyph} {g : Glyph} {fault : Fault}
      (hgs : gs = before ++ g :: after) (hmarks : fault.Marks g after) :
      IsAbout gs (.atPosition fault g.position)
  | emptyBrackets {before after : List Glyph} {opening closing : Glyph}
      (hgs : gs = before ++ opening :: closing :: after) (hopening : opening.char = '(')
      (hclosing : closing.char = ')') :
      IsAbout gs (.atPosition .missingOperand (opening.position + 1))

/-- What a fault says about a text does not depend on what follows the text. -/
theorem Fault.Marks.append {g : Glyph} {after : List Glyph} {fault : Fault}
    (h : fault.Marks g after) (more : List Glyph) : fault.Marks g (after ++ more) := by
  have hlonger : g.char :: after.map Glyph.char <+: g.char :: (after ++ more).map Glyph.char := by
    rw [List.map_append]
    exact List.prefix_append (g.char :: after.map Glyph.char) _
  cases fault with
  | unbalancedBracket | unexpectedCharacter => exact h
  | missingOperand =>
    refine h.imp_right fun h => h.imp_right fun h => h.imp_right ?_
    rintro ⟨op, hop, hsymbol⟩
    exact ⟨op, hop, hsymbol.trans hlonger⟩
  | missingSeparator => exact ⟨h.1, h.2.trans hlonger⟩

namespace ParseError

variable {e : ParseError}

/-- An error about a part of a text is about the text. -/
theorem IsAbout.mono {gs hs : List Glyph} (h : e.IsAbout gs) (hpart : gs <:+: hs) :
    e.IsAbout hs := by
  obtain ⟨left, right, rfl⟩ := hpart
  cases h with
  | @character before after g fault hgs hmarks =>
    have hhs : left ++ gs ++ right = (left ++ before) ++ g :: (after ++ right) := by simp [hgs]
    exact .character hhs (hmarks.append right)
  | @emptyBrackets before after opening closing hgs hopening hclosing =>
    have hhs : left ++ gs ++ right = (left ++ before) ++ opening :: closing :: (after ++ right) := by
      simp [hgs]
    exact .emptyBrackets hhs hopening hclosing

/-- An error about a text is determined by its fault and by the position that it points at. -/
theorem IsAbout.eq_atPosition {gs : List Glyph} (h : e.IsAbout gs) :
    e = .atPosition e.fault e.offset := by
  cases h <;> rfl

/-- The place of an error about the first character of a text. -/
theorem IsAbout.head {g : Glyph} {gs : List Glyph} {fault : Fault} (hmarks : fault.Marks g gs) :
    (atPosition fault g.position).IsAbout (g :: gs) :=
  .character (List.nil_append _).symm hmarks

/-- The place of an error about nested characters. -/
theorem IsAbout.nested {ns ls rs : List NestedGlyph} {g : NestedGlyph} {fault : Fault}
    (hns : ns = ls ++ g :: rs) (hmarks : fault.Marks g.toGlyph (rs.map NestedGlyph.toGlyph)) :
    (atPosition fault g.position).IsAbout (ns.map NestedGlyph.toGlyph) := by
  rw [hns, List.map_append, List.map_cons]
  exact .character rfl hmarks

end ParseError

/-- A function of a result fails exactly as the result does. -/
theorem map_eq_error {ε β γ : Type} {f : β → γ} {x : Except ε β} {e : ε} (h : x.map f = .error e) :
    x = .error e := by
  cases x with
  | error e' => cases h; rfl
  | ok b => cases h

/-- Brackets without a partner are reported where they stand. -/
theorem isAbout_of_nestFrom {opened : List Nat} {gs : List Glyph} {e : ParseError}
    (h : nestFrom opened gs = .error e) :
    e.IsAbout gs ∨ ∃ position ∈ opened, e = .atPosition (.unbalancedBracket true) position := by
  induction gs generalizing opened with
  | nil =>
    cases opened with
    | nil => cases h
    | cons position outer =>
      cases h
      exact .inr ⟨position, List.mem_cons_self, rfl⟩
  | cons g gs ih =>
    have hlater (h : e.IsAbout gs) : e.IsAbout (g :: gs) := h.mono (List.infix_cons List.infix_rfl)
    unfold nestFrom at h
    split at h
    · next hopen =>
      rcases ih (map_eq_error h) with hgs | ⟨position, hposition, he⟩
      · exact .inl (hlater hgs)
      · rcases List.mem_cons.mp hposition with rfl | hposition
        · rw [he]
          exact .inl (.head hopen)
        · exact .inr ⟨position, hposition, he⟩
    · split at h
      · next hclose =>
        split at h
        · cases h
          exact .inl (.head hclose)
        · next position outer =>
          refine (ih (map_eq_error h)).imp hlater ?_
          rintro ⟨position', hposition, he⟩
          exact ⟨position', List.mem_cons_of_mem position hposition, he⟩
      · exact (ih (map_eq_error h)).imp_left hlater

/-- The fault of a stray bracket is about that bracket. -/
theorem isAbout_of_nest {gs : List Glyph} {e : ParseError} (h : nest gs = .error e) :
    e.IsAbout gs := by
  rcases isAbout_of_nestFrom h with hgs | ⟨position, hposition, -⟩
  · exact hgs
  · cases hposition

section Outline

variable {s : Segment} {ns : List NestedGlyph} {e : ParseError}

/-- Forgetting the depths of nested characters keeps their text. -/
theorem char_map_toGlyph (ns : List NestedGlyph) :
    (ns.map NestedGlyph.toGlyph).map Glyph.char = nestedText ns :=
  List.map_map

/-- The fault of an operator without operands is about a character of the text. -/
theorem isAbout_of_outlineOperator {op : BinaryOp} {ls rs : List NestedGlyph} {g : NestedGlyph}
    (hns : ns = ls ++ g :: rs) (hop : BinaryOp.ofOperator? g.char = some op)
    (h : outlineOperator s op ls g.position rs = .error e) :
    e.IsAbout (ns.map NestedGlyph.toGlyph) := by
  have hsymbol : isOperatorSymbol g.char = true := by rw [isOperatorSymbol, hop]; rfl
  unfold outlineOperator at h
  dsimp only at h
  split at h
  · cases h
    exact .nested hns (.inl hsymbol)
  · split at h
    · split at h <;> cases h
    · cases h

/-- What is wrong with the arguments of a keyword is found at its first letter, at the opening
bracket or at the separator. -/
theorem isAbout_of_outlineArguments {op : Operation} {k opening closing : NestedGlyph}
    {ks arguments : List NestedGlyph} (hop : op.operator? = none)
    (hns : ns = k :: ks ++ opening :: (arguments ++ [closing]))
    (hsymbol : nestedText (k :: ks) = op.symbol) (hopening : opening.char = '(')
    (h : outlineArguments op k.position opening arguments closing.position = .error e) :
    e.IsAbout (ns.map NestedGlyph.toGlyph) := by
  unfold outlineArguments at h
  dsimp only at h
  split at h
  · cases h
    exact .nested hns (.inr (.inr (.inl hopening)))
  · split at h
    · cases h
    · next op =>
      have hfunction : op.isOperator = false := by
        cases hoperator : op.isOperator with
        | false => rfl
        | true => simp [Operation.operator?, hoperator] at hop
      split at h
      · cases h
        have htext : nestedText ns =
            (op.symbol ++ ['(']) ++ nestedText (arguments ++ [closing]) := by
          rw [hns, nestedText_append, hsymbol, nestedText_cons, hopening]
          simp [Operation.symbol]
        rw [hns, List.cons_append, List.map_cons]
        refine .head ⟨hfunction, ?_⟩
        rw [char_map_toGlyph]
        exact ⟨_, (htext.symm.trans (by rw [hns]; rfl))⟩
      · next first separator second hcut =>
        have hproperty := cutAt_property hcut
        rw [Bool.and_eq_true, decide_eq_true_eq] at hproperty
        have hns : ns = (k :: ks ++ opening :: first) ++ separator :: (second ++ [closing]) := by
          simp [hns, append_of_cutAt hcut]
        split at h
        · cases h
          exact .nested hns (.inr (.inl hproperty.1))
        · cases h

/-- An operation that is no operator has a keyword. -/
theorem isKeyword_of_operator?_eq_none {op : Operation} (h : op.operator? = none) :
    op.isKeyword = true := by
  rcases op with op | op
  · rfl
  · cases op with
    | logarithm | root => rfl
    | _ => cases h

/-- A keyword that is not applied to one bracketed group is found to be wrong at its first letter or
at a character behind it. -/
theorem isAbout_of_outlineKeyword {op : Operation} {k : NestedGlyph} {ks gs : List NestedGlyph}
    (hop : op.operator? = none) (hns : ns = k :: ks ++ gs)
    (hsymbol : nestedText (k :: ks) = op.symbol) (h : outlineKeyword op k.position gs = .error e) :
    e.IsAbout (ns.map NestedGlyph.toGlyph) := by
  unfold outlineKeyword at h
  split at h
  · cases h
    rw [hns, List.append_nil, List.map_cons]
    refine .head (.inr (.inr (.inr ⟨op, isKeyword_of_operator?_eq_none hop, ?_⟩)))
    rw [char_map_toGlyph, ← hsymbol]
    exact List.prefix_rfl
  · next opening rest =>
    split at h
    · next hopening =>
      split at h
      · cases h
        exact .nested hns hopening
      · next arguments closing hcut =>
        rw [append_of_cutAt hcut] at hns
        exact isAbout_of_outlineArguments hop hns hsymbol hopening h
      · next arguments closing extra after hcut =>
        cases h
        have hns : ns = (k :: ks ++ opening :: (arguments ++ [closing])) ++ extra :: after := by
          simp [hns, append_of_cutAt hcut]
        exact .nested hns rfl
    · cases h
      exact .nested hns rfl

/-- A keyword starts a call. -/
theorem outlineKeyword_ne_dangling {op : Operation} {position place : Nat} {gs : List NestedGlyph}
    {right : Segment} (h : outlineKeyword op position gs = .ok (.dangling place right)) : False := by
  unfold outlineKeyword at h
  split at h
  · cases h
  · split at h
    · split at h
      · cases h
      · unfold outlineArguments at h
        dsimp only at h
        split at h
        · cases h
        · split at h
          · cases h
          · split at h
            · cases h
            · split at h <;> cases h
      · cases h
    · cases h

/-- An outline that is not found fails at a character of the text. -/
theorem isAbout_of_outline (h : outline s ns = .error e) :
    e.IsAbout (ns.map NestedGlyph.toGlyph) := by
  cases division_outline s ns with
  | operand hresult => cases h.symm.trans hresult
  | operator hns _ hop _ _ hresult => exact isAbout_of_outlineOperator hns hop (hresult.symm.trans h)
  | keyword hns hop hsymbol hresult =>
    exact isAbout_of_outlineKeyword hop hns hsymbol (hresult.symm.trans h)
  | misplaced hns hresult =>
    cases h.symm.trans hresult
    exact .nested hns rfl

/-- An operator with nothing on its left is found where it stands. -/
theorem isAbout_of_dangling {position : Nat} {right : Segment}
    (h : outline s ns = .ok (.dangling position right)) :
    (ParseError.atPosition .missingOperand position).IsAbout (ns.map NestedGlyph.toGlyph) := by
  cases division_outline s ns with
  | operand hresult => cases h.symm.trans hresult
  | @operator ls rs g op hns _ hop _ _ hresult =>
    have hsymbol : isOperatorSymbol g.char = true := by rw [isOperatorSymbol, hop]; rfl
    have hposition : position = g.position := by
      rw [hresult] at h
      unfold outlineOperator at h
      dsimp only at h
      split at h
      · cases h
      · split at h
        · split at h <;> cases h
          rfl
        · cases h
    rw [hposition]
    exact .nested hns (.inl hsymbol)
  | keyword _ _ _ hresult => exact (outlineKeyword_ne_dangling (hresult.symm.trans h)).elim
  | misplaced _ hresult => cases h.symm.trans hresult

end Outline

/-- A joint that is found is one of the characters. -/
theorem findJoint_mem {letter : Char} {previous : Option Char} {gs : List NestedGlyph}
    {g : NestedGlyph} (h : findJoint letter previous gs = some g) : g ∈ gs := by
  induction gs generalizing previous with
  | nil => cases h
  | cons first gs ih =>
    unfold findJoint at h
    split at h
    · cases h
      exact List.mem_cons_self
    · split at h
      · cases h
        exact List.mem_cons_self
      · exact List.mem_cons_of_mem first (ih h)

/-- A superfluous point that is found is one of the characters. -/
theorem findPoint_mem {gs : List NestedGlyph} {g : NestedGlyph} (h : findPoint gs = some g) :
    g ∈ gs := by
  unfold findPoint at h
  split at h
  · next first second rest hpoints =>
    cases h
    have hmem : g ∈ gs.filter fun g => g.char = '.' := by simp [hpoints]
    exact (List.mem_filter.mp hmem).1
  · next first rest _ hpoints =>
    cases h
    have hmem : g ∈ gs.filter fun g => g.char = '.' := by simp [hpoints]
    exact (List.mem_filter.mp hmem).1
  · cases h

/-- What is wrong with an operand is found at one of its characters. -/
theorem findMisplaced_mem (letter : Char) (first : NestedGlyph) (rest : List NestedGlyph) :
    findMisplaced letter first rest ∈ first :: rest := by
  unfold findMisplaced
  dsimp only
  split
  · cases hjoint : findJoint letter none (first :: rest) with
    | none => exact List.mem_cons_self
    | some g => exact findJoint_mem hjoint
  · split
    · cases rest with
      | nil => exact List.mem_cons_self
      | cons second rest => exact List.mem_cons_of_mem first List.mem_cons_self
    · cases hfind : (first :: rest).find? fun g => !isNumeric g.char with
      | some g => exact List.mem_of_find?_eq_some hfind
      | none =>
        cases hpoint : findPoint (first :: rest) with
        | none => exact List.mem_cons_self
        | some g => exact findPoint_mem hpoint

section Reading

variable {α : Type} [Scalar α] [HasNumerals α] {letter : Char} {e : ParseError}

/-- The fault of a text that is no operand is about a character of it. -/
theorem isAbout_of_readOperand {first : NestedGlyph} {rest : List NestedGlyph}
    (h : (readOperand letter first rest : Except ParseError (Expr α)) = .error e) :
    e.IsAbout ((first :: rest).map NestedGlyph.toGlyph) := by
  unfold readOperand at h
  split at h
  · cases h
  · split at h
    · cases h
    · cases h
      obtain ⟨before, after, hns⟩ := List.append_of_mem (findMisplaced_mem letter first rest)
      exact .nested hns rfl

/-- The reasons why a segment is not read, with what is found at each stage. -/
inductive Failure (α : Type) [Scalar α] [HasNumerals α] (letter : Char) (s : Segment)
    (e : ParseError) : Prop
  | unbalanced (hnest : nest s.strip.glyphs = .error e)
  | empty (hempty : s.strip.glyphs = [])
      (he : e = ⟨.missingOperand, [.within s.stop s.strip.start]⟩)
  | outline {ns : List NestedGlyph} (hnest : nest s.strip.glyphs = .ok ns)
      (houtline : outline s.strip ns = .error e)
  | operand {first : NestedGlyph} {rest : List NestedGlyph}
      (hnest : nest s.strip.glyphs = .ok (first :: rest))
      (hread : (readOperand letter first rest : Except ParseError (Expr α)) = .error e)
  | part {ns : List NestedGlyph} {o : Outline} {part : Segment}
      (hnest : nest s.strip.glyphs = .ok ns) (houtline : outline s.strip ns = .ok o)
      (hpart : part ∈ o.parts)
      (hfails : (parseSegment letter part : Except ParseError (Expr α)) = .error e)
  | dangling {ns : List NestedGlyph} {position : Nat} {right : Segment}
      (hnest : nest s.strip.glyphs = .ok ns)
      (houtline : outline s.strip ns = .ok (.dangling position right))
      (he : e = .atPosition .missingOperand position)

/-- Two steps fail exactly if the first one does, or the second one with the result of the first. -/
theorem bind_eq_error_iff {ε β γ : Type} {x : Except ε β} {f : β → Except ε γ} {e : ε} :
    (x >>= f) = .error e ↔ x = .error e ∨ ∃ b, x = .ok b ∧ f b = .error e := by
  cases x with
  | error e' => simp [bind, Except.bind]
  | ok b => simp [bind, Except.bind]

/-- A segment is not read for one of the reasons. -/
theorem failure_of_parseSegment {s : Segment}
    (h : (parseSegment letter s : Except ParseError (Expr α)) = .error e) :
    Failure α letter s e := by
  rw [parseSegment_eq] at h
  split at h
  · next e' hnest =>
    cases h
    exact .unbalanced hnest
  · next hnest =>
    cases h
    have hglyphs := toGlyph_of_nest hnest
    exact .empty hglyphs.symm rfl
  · next first rest hnest =>
    split at h
    · next e' houtline =>
      cases h
      exact .outline hnest houtline
    · next o houtline =>
      cases o with
      | operand => exact .operand hnest h
      | negation inner =>
        rcases bind_eq_error_iff.mp h with hinner | ⟨t, -, hrest⟩
        · exact .part hnest houtline (by simp [Outline.parts]) hinner
        · cases hrest
      | dangling position right =>
        rcases bind_eq_error_iff.mp h with hright | ⟨t, -, hrest⟩
        · exact .part hnest houtline (by simp [Outline.parts]) hright
        · cases hrest
          exact .dangling hnest houtline rfl
      | operator op left right =>
        rcases bind_eq_error_iff.mp h with hright | ⟨r, -, hrest⟩
        · exact .part hnest houtline (by simp [Outline.parts]) hright
        · rcases bind_eq_error_iff.mp hrest with hleft | ⟨l, -, hrest⟩
          · exact .part hnest houtline (by simp [Outline.parts]) hleft
          · cases hrest
      | call1 op argument =>
        rcases bind_eq_error_iff.mp h with hargument | ⟨t, -, hrest⟩
        · exact .part hnest houtline (by simp [Outline.parts]) hargument
        · cases hrest
      | call2 op first' second =>
        rcases bind_eq_error_iff.mp h with hfirst | ⟨l, -, hrest⟩
        · exact .part hnest houtline (by simp [Outline.parts]) hfirst
        · rcases bind_eq_error_iff.mp hrest with hsecond | ⟨r, -, hrest⟩
          · exact .part hnest houtline (by simp [Outline.parts]) hsecond
          · cases hrest

/-- The error that stops the reading of a segment is about the characters of the segment. -/
theorem isAbout_of_parseSegment {s : Segment} (hs : s.Ordered) (hne : s.glyphs ≠ [])
    (h : (parseSegment letter s : Except ParseError (Expr α)) = .error e) :
    e.IsAbout s.glyphs := by
  induction hn : s.glyphs.length using Nat.strongRecOn generalizing s e with
  | ind n ih =>
    subst hn
    have hglyphs {ns : List NestedGlyph} (hnest : nest s.strip.glyphs = .ok ns) :
        ns.map NestedGlyph.toGlyph = s.strip.glyphs := toGlyph_of_nest hnest
    have hstripped (h : e.IsAbout s.strip.glyphs) : e.IsAbout s.glyphs :=
      h.mono s.strip_isInfix
    cases failure_of_parseSegment h with
    | unbalanced hnest => exact hstripped (isAbout_of_nest hnest)
    | empty hempty he =>
      obtain ⟨before, opening, closing, after, hsplit, hopening, hclosing, hstart⟩ :=
        Segment.exists_of_strip_eq_nil hempty hne
      have hincreasing := hs.increasing
      rw [hsplit] at hincreasing
      have hlt : opening.position < closing.position :=
        (List.pairwise_cons.mp (List.pairwise_append.mp hincreasing).2.1).1 closing
          List.mem_cons_self
      have hstop : closing.position < s.stop := hs.lt_stop closing (by simp [hsplit])
      have hspan : Span.within s.stop s.strip.start = .single (opening.position + 1) := by
        rw [hstart, Span.within, if_pos (by omega)]
      rw [he, hspan]
      exact .emptyBrackets hsplit hopening hclosing
    | outline hnest houtline => exact hstripped (hglyphs hnest ▸ isAbout_of_outline houtline)
    | operand hnest hread => exact hstripped (hglyphs hnest ▸ isAbout_of_readOperand hread)
    | part hnest houtline hpart hfails =>
      obtain ⟨hispart, hpartne⟩ := isPart_of_outline (hglyphs hnest) houtline _ hpart
      have hshorter := outline_shorter houtline _ hpart
      have hlength := congrArg List.length (hglyphs hnest)
      rw [List.length_map] at hlength
      have hstrip := s.length_strip_le
      have hpartabout := ih _ (by omega) (hs.strip.of_isPart hispart) hpartne hfails rfl
      exact hstripped (hpartabout.mono hispart.isInfix)
    | dangling hnest houtline he =>
      rw [he]
      rw [he] at hstripped
      exact hstripped (hglyphs hnest ▸ isAbout_of_dangling houtline)

end Reading

/-- The characters of a source text stand one after the other in it. -/
theorem position_of_mem_glyphsFrom {start : Nat} {source : List Char} {g : Glyph}
    (h : g ∈ glyphsFrom start source) : start ≤ g.position ∧ g.position < start + source.length := by
  induction source generalizing start with
  | nil => cases h
  | cons c source ih =>
    have hlater (h : g ∈ glyphsFrom (start + 1) source) :
        start ≤ g.position ∧ g.position < start + (c :: source).length := by
      obtain ⟨hle, hlt⟩ := ih h
      rw [List.length_cons]
      omega
    unfold glyphsFrom at h
    split at h
    · exact hlater h
    · rcases List.mem_cons.mp h with rfl | h
      · exact ⟨Nat.le_refl _, Nat.lt_add_of_pos_right (Nat.succ_pos _)⟩
      · exact hlater h

/-- The positions of a source text increase from character to character. -/
theorem pairwise_glyphsFrom (start : Nat) (source : List Char) :
    (glyphsFrom start source).Pairwise fun g h => g.position < h.position := by
  induction source generalizing start with
  | nil => exact List.Pairwise.nil
  | cons c source ih =>
    unfold glyphsFrom
    split
    · exact ih (start + 1)
    · exact List.pairwise_cons.mpr
        ⟨fun g hg => (position_of_mem_glyphsFrom hg).1, ih (start + 1)⟩

/-- The segment of a source text is ordered by its positions. -/
theorem Segment.ordered_ofSource (source : List Char) : (ofSource source).Ordered where
  increasing := pairwise_glyphsFrom 0 source
  lt_stop g hg := by
    have hlt := (position_of_mem_glyphsFrom hg).2
    rwa [Nat.zero_add] at hlt

/-- Only letters have another character in lower case, and that one is a letter. -/
theorem eq_of_toLower_eq {c d : Char} (h : c.toLower = d) (hd : isLetter d = false) : c = d := by
  have hletter : ¬isLetter c = true := fun hletter =>
    Bool.eq_false_iff.mp hd (h ▸ isLetter_toLower hletter)
  unfold Char.toLower at h
  split at h
  · next hupper =>
    have hcapital : c.isUpper = true := decide_eq_true hupper
    have halpha : (c.isUpper || c.isLower) = true := by rw [hcapital, Bool.true_or]
    exact absurd (isLetter_of_isAlpha halpha) hletter
  · exact h

/-- Only letters and the decimal comma are not read as they are. -/
theorem eq_of_readAs {raw c : Char} (h : readAs raw = c) (hmark : c ∈ marks) (hpoint : c ≠ '.') :
    raw = c := by
  unfold readAs at h
  split at h
  · exact absurd h.symm hpoint
  · exact eq_of_toLower_eq h (Bool.eq_false_iff.mpr fun hletter => ne_of_isLetter hletter hmark rfl)

/-- A character that is read as an operator is that operator in the source. -/
theorem isOperatorSymbol_of_readAs {raw : Char} (h : isOperatorSymbol (readAs raw) = true) :
    isOperatorSymbol raw = true := by
  have hpoint : readAs raw ≠ '.' := by
    intro hpoint
    rw [hpoint] at h
    cases h
  rw [eq_of_readAs rfl (mem_marks_of_isOperatorSymbol h) hpoint]
  exact h

/-- What a fault says about the character of the source text at its position. An operand is missing
at an operator, a separator, a bracket or a keyword, or behind an opening bracket, unless the whole
text is blank. -/
def Fault.PlacedAt (source : List Char) (position : Nat) : Fault → Prop
  | unbalancedBracket opening => source[position]? = some (if opening then '(' else ')')
  | unexpectedCharacter c => source[position]?.map readAs = some c
  | missingOperand =>
    (source.all isBlank = true ∧ position = 0) ∨
    (∃ c, source[position]? = some c ∧ (isOperatorSymbol c = true ∨ c = ';' ∨ c = '(')) ∨
    (∃ c op, source[position]? = some c ∧ isBlank c = false ∧ Operation.isKeyword op = true ∧
      op.symbol <+: cleaned (source.drop position)) ∨
    ∃ before, position = before + 1 ∧ source[before]? = some '('
  | missingSeparator function => ∃ c, source[position]? = some c ∧ isBlank c = false ∧
      function.isOperator = false ∧ function.symbol ++ ['('] <+: cleaned (source.drop position)

/-- What a fault says about the characters that are read holds of the source text. -/
theorem Fault.Marks.placedAt {source : List Char} {before after : List Glyph} {g : Glyph}
    {fault : Fault} (hgs : glyphsFrom 0 source = before ++ g :: after)
    (h : fault.Marks g after) : fault.PlacedAt source g.position := by
  obtain ⟨left, raw, right, rfl, hblank, -, rfl, rfl⟩ := exists_of_glyphsFrom hgs
  have hraw : (left ++ raw :: right)[0 + left.length]? = some raw := by simp
  have htext : cleaned ((left ++ raw :: right).drop (0 + left.length)) =
      readAs raw :: (glyphsFrom (0 + left.length + 1) right).map Glyph.char := by
    rw [Nat.zero_add, List.drop_left, cleaned_cons hblank, char_glyphsFrom]
  cases fault with
  | unbalancedBracket opening =>
    have hbracket : raw = if opening then '(' else ')' := by
      cases opening with
      | true => exact eq_of_readAs h (by decide) (by decide)
      | false => exact eq_of_readAs h (by decide) (by decide)
    rw [PlacedAt, hraw, hbracket]
  | unexpectedCharacter c =>
    have hc : readAs raw = c := h
    rw [PlacedAt, hraw, Option.map_some, hc]
  | missingOperand =>
    refine .inr ?_
    rcases h with hoperator | hseparator | hopening | ⟨op, hop, hsymbol⟩
    · exact .inl ⟨raw, hraw, .inl (isOperatorSymbol_of_readAs hoperator)⟩
    · exact .inl ⟨raw, hraw, .inr (.inl (eq_of_readAs hseparator (by decide) (by decide)))⟩
    · exact .inl ⟨raw, hraw, .inr (.inr (eq_of_readAs hopening (by decide) (by decide)))⟩
    · exact .inr (.inl ⟨raw, op, hraw, hblank, hop, htext ▸ hsymbol⟩)
  | missingSeparator function => exact ⟨raw, hraw, hblank, h.1, htext ▸ h.2⟩

/-- An error about the characters that are read has one place in the source text. -/
theorem ParseError.IsAbout.exists_place {source : List Char} {e : ParseError}
    (h : e.IsAbout (glyphsFrom 0 source)) :
    ∃ position < source.length, e.spans = [.single position] ∧
      e.fault.PlacedAt source position := by
  cases h with
  | @character before after g fault hgs hmarks =>
    have hmem : g ∈ glyphsFrom 0 source := by simp [hgs]
    have hlt := (position_of_mem_glyphsFrom hmem).2
    exact ⟨g.position, by omega, rfl, hmarks.placedAt hgs⟩
  | @emptyBrackets before after opening closing hgs hopening _ =>
    have hmem : closing ∈ glyphsFrom 0 source := by simp [hgs]
    have hlt := (position_of_mem_glyphsFrom hmem).2
    have hincreasing := pairwise_glyphsFrom 0 source
    rw [hgs] at hincreasing
    have hnext : opening.position < closing.position :=
      (List.pairwise_cons.mp (List.pairwise_append.mp hincreasing).2.1).1 closing
        List.mem_cons_self
    have hbracket : (Fault.unbalancedBracket true).PlacedAt source opening.position :=
      Fault.Marks.placedAt hgs hopening
    exact ⟨opening.position + 1, by omega, rfl, .inr (.inr (.inr ⟨_, rfl, hbracket⟩))⟩

variable {α : Type} [Scalar α] [HasNumerals α]

/-- A text of blanks is not read. -/
theorem all_isBlank_of_glyphsFrom {start : Nat} {source : List Char}
    (h : glyphsFrom start source = []) : source.all isBlank = true := by
  induction source generalizing start with
  | nil => rfl
  | cons c source ih =>
    unfold glyphsFrom at h
    split at h
    · next hblank => rw [List.all_cons, hblank, ih h, Bool.true_and]
    · cases h

/-- A segment without characters lacks an operand at its start. -/
theorem parseSegment_of_glyphs_eq_nil {letter : Char} {s : Segment} (hs : s.glyphs = []) :
    (parseSegment letter s : Except ParseError (Expr α)) =
      .error ⟨.missingOperand, [.within s.stop s.start]⟩ := by
  have hstrip : s.strip = s := strip_of_none (by rw [Segment.strip?, hs])
  have hnest : nest s.strip.glyphs = .ok [] := by rw [hstrip, hs]; rfl
  rw [parseSegment_eq, hnest, hstrip]

/-- A segment without characters misses an operand between its ends. -/
theorem error_of_glyphs_eq_nil {letter : Char} {s : Segment} {e : ParseError} (hs : s.glyphs = [])
    (h : (parseSegment letter s : Except ParseError (Expr α)) = .error e) :
    e = ⟨.missingOperand, [.within s.stop s.start]⟩ := by
  rw [parseSegment_of_glyphs_eq_nil hs] at h
  exact (Except.error.inj h).symm

/-- A text that is not parsed has one fault at one of its characters, which the fault is about, or
is empty. -/
theorem place_of_parse_eq_error (letter : Char) (source : List Char) (e : ParseError)
    (h : (parse letter source : Except ParseError (Expr α)) = .error e) :
    (source = [] ∧ e = ⟨.missingOperand, [⟨0, 0⟩]⟩) ∨
      ∃ position < source.length, e.spans = [.single position] ∧
        e.fault.PlacedAt source position := by
  by_cases hblank : glyphsFrom 0 source = []
  · rw [error_of_glyphs_eq_nil hblank h]
    cases source with
    | nil => exact .inl ⟨rfl, rfl⟩
    | cons c source =>
      have hplaced : Fault.missingOperand.PlacedAt (c :: source) 0 :=
        .inl ⟨all_isBlank_of_glyphsFrom hblank, rfl⟩
      exact .inr ⟨0, Nat.succ_pos _, rfl, hplaced⟩
  · exact .inr (isAbout_of_parseSegment (Segment.ordered_ofSource source) hblank h).exists_place

/-- A segment is not read if its outline has a fault. -/
theorem error_of_outline {letter : Char} {s : Segment} {first : NestedGlyph}
    {rest : List NestedGlyph} {e : ParseError} (hnest : nest s.strip.glyphs = .ok (first :: rest))
    (houtline : outline s.strip (first :: rest) = .error e) :
    (parseSegment letter s : Except ParseError (Expr α)) = .error e := by
  rw [parseSegment_eq, hnest]
  dsimp only
  rw [houtline]

/-- Of two operands that cannot be read, the fault of the right one is reported. -/
theorem error_of_right {letter : Char} {s left right : Segment} {first : NestedGlyph}
    {rest : List NestedGlyph} {op : BinaryOp} {e : ParseError}
    (hnest : nest s.strip.glyphs = .ok (first :: rest))
    (houtline : outline s.strip (first :: rest) = .ok (.operator op left right))
    (hright : (parseSegment letter right : Except ParseError (Expr α)) = .error e) :
    (parseSegment letter s : Except ParseError (Expr α)) = .error e := by
  rw [parseSegment_of_outline hnest houtline, Outline.read, hright]
  rfl

/-- The operator in `2*(x +)` has nothing on its right. -/
theorem place_of_parse_eq_error_nested :
    let source := ['2', '*', '(', 'x', ' ', '+', ')']
    let e : ParseError := ⟨.missingOperand, [⟨5, 6⟩]⟩
    (parse 'X' source : Except ParseError (Expr Float)) = .error e ∧
      ((source = [] ∧ e = ⟨.missingOperand, [⟨0, 0⟩]⟩) ∨
        ∃ position < source.length, e.spans = [.single position] ∧
          e.fault.PlacedAt source position) := by
  intro source e
  have hsum : (⟨3, 6, [⟨'x', 3⟩, ⟨'+', 5⟩]⟩ : Segment).strip = ⟨3, 6, [⟨'x', 3⟩, ⟨'+', 5⟩]⟩ :=
    strip_of_none rfl
  have hbrackets : (⟨2, 7, [⟨'(', 2⟩, ⟨'x', 3⟩, ⟨'+', 5⟩, ⟨')', 6⟩]⟩ : Segment).strip =
      ⟨3, 6, [⟨'x', 3⟩, ⟨'+', 5⟩]⟩ := (strip_of_strip? rfl).trans hsum
  have hsource : (Segment.ofSource source).strip = Segment.ofSource source := strip_of_none rfl
  have hright : (parseSegment 'x' ⟨2, 7, [⟨'(', 2⟩, ⟨'x', 3⟩, ⟨'+', 5⟩, ⟨')', 6⟩]⟩ :
      Except ParseError (Expr Float)) = .error e :=
    error_of_outline (by rw [hbrackets]; rfl) (by rw [hbrackets]; rfl)
  have hparse : (parse 'X' source : Except ParseError (Expr Float)) = .error e :=
    error_of_right (by rw [hsource]; rfl) (by rw [hsource]; rfl) hright
  exact ⟨hparse, place_of_parse_eq_error 'X' source e hparse⟩

end Univariate
