import Univariate.Proofs.Pairing
import Univariate.Proofs.Relocation

/-!
# Unbalanced brackets are reported first

A text whose brackets are not paired is reported for one of them before anything else is looked at.
In a text whose brackets are paired no fault of this kind is ever found: stripping and dividing it
leave parts whose brackets are paired again, and every opening bracket has a closing one on its
level.
-/

namespace Univariate

section Strip

variable {s : Segment}

/-- A balanced segment is balanced without the brackets around it. -/
theorem balanced_strip (h : Balanced s.text) : Balanced s.strip.text := by
  fun_induction Segment.strip s with
  | case1 s inner hinner ih =>
    obtain ⟨_, _, _, _, _, hbalanced⟩ := glyphs_of_strip? hinner
    exact ih hbalanced
  | case2 s hnone => exact h

/-- Only brackets around a balanced text are stripped. -/
theorem strip_of_not_balanced (h : ¬Balanced s.text) : s.strip = s := by
  refine strip_of_none (Option.eq_none_iff_forall_ne_some.mpr fun t ht => h ?_)
  obtain ⟨_, _, _, _, _, hbalanced⟩ := glyphs_of_strip? ht
  rw [text_of_strip? ht]
  exact hbalanced.brackets

end Strip

section Nested

variable {gs : List Glyph} {ls rs : List NestedGlyph} {g : NestedGlyph}

/-- A character on the level of the brackets that a part leaves open divides it: what stands before
it closes the other brackets, and what stands behind it is balanced. -/
theorem balanced_of_nestAt_eq {j k : Nat} (hgs : balancedFrom j (gs.map Glyph.char) = true)
    (h : nestAt (k + j) gs = ls ++ g :: rs) (hg : g.depth = k) :
    balancedFrom j (nestedText ls) = true ∧ Balanced (nestedText rs) := by
  induction hgs using closing_induction generalizing ls with
  | nil => simp at h
  | @opening j first gs hgs _ hopen ih =>
    rw [nestAt_opening hopen] at h
    cases ls with
    | nil =>
      obtain ⟨rfl, -⟩ := List.cons.inj h
      have hdepth : k + j + 1 = k := hg
      omega
    | cons l ls =>
      obtain ⟨rfl, hrest⟩ := List.cons.inj h
      rw [nestedText_cons, hopen, balancedFrom_opening]
      exact ih hrest
  | @closing j first gs hgs _ hclose ih =>
    rw [nestAt_closing hclose] at h
    cases ls with
    | nil =>
      obtain ⟨rfl, -⟩ := List.cons.inj h
      have hdepth : k + (j + 1) = k := hg
      omega
    | cons l ls =>
      obtain ⟨rfl, hrest⟩ := List.cons.inj h
      rw [nestedText_cons, hclose, balancedFrom_closing]
      exact ih hrest
  | @other j first gs hgs _ hopen hclose ih =>
    rw [nestAt_other hopen hclose] at h
    cases ls with
    | nil =>
      obtain ⟨rfl, rfl⟩ := List.cons.inj h
      have hj : j = 0 := by
        have hdepth : k + j = k := hg
        omega
      subst hj
      rw [nestedText_nestAt]
      exact ⟨rfl, hgs⟩
    | cons l ls =>
      obtain ⟨rfl, hrest⟩ := List.cons.inj h
      rw [nestedText_cons, balancedFrom_other hopen hclose]
      exact ih hrest

/-- The end of a nested part is nested from the depth reached there, and closes what is open. -/
theorem exists_nestAt_suffix {j : Nat} (hgs : balancedFrom j (gs.map Glyph.char) = true)
    (h : nestAt j gs = ls ++ rs) : ∃ depth hs, nestAt depth hs = rs ∧
      balancedFrom depth (hs.map Glyph.char) = true := by
  induction hgs using closing_induction generalizing ls with
  | nil =>
    obtain ⟨-, rfl⟩ := List.append_eq_nil_iff.mp h.symm
    exact ⟨0, [], rfl, rfl⟩
  | opening _ hgs hopen ih =>
    cases ls with
    | nil => exact ⟨_, _, h, hgs⟩
    | cons l ls =>
      rw [nestAt_opening hopen] at h
      exact ih (List.cons.inj h).2
  | closing _ hgs hclose ih =>
    cases ls with
    | nil => exact ⟨_, _, h, hgs⟩
    | cons l ls =>
      rw [nestAt_closing hclose] at h
      exact ih (List.cons.inj h).2
  | other _ hgs hopen hclose ih =>
    cases ls with
    | nil => exact ⟨_, _, h, hgs⟩
    | cons l ls =>
      rw [nestAt_other hopen hclose] at h
      exact ih (List.cons.inj h).2

/-- The search for the closing bracket of a nested opening one finds its partner, with a balanced
text between them. -/
theorem exists_cutAt_closing (hgs : Balanced (gs.map Glyph.char))
    (h : nestAt 0 gs = ls ++ g :: rs) (hg : g.char = '(') : ∃ inner closing after,
      cutAt (fun x => x.char = ')' && x.depth = g.depth) rs =
        some (nestAt g.depth inner, closing, after) ∧ Balanced (inner.map Glyph.char) := by
  obtain ⟨depth, hs, hnested, hbalanced⟩ := exists_nestAt_suffix hgs h
  cases hs with
  | nil => cases hnested
  | cons first hs =>
    obtain ⟨own, next, hcons⟩ := exists_nestAt_cons depth first
    have hopen : first.char = '(' := by
      rw [← hg, ← (List.cons.inj ((hcons hs).symm.trans hnested)).1]
    rw [nestAt_opening hopen] at hnested
    obtain ⟨rfl, rfl⟩ := List.cons.inj hnested
    rw [List.map_cons, hopen, balancedFrom_opening] at hbalanced
    obtain ⟨v, r, htext, hv, -⟩ := exists_closing hbalanced
    obtain ⟨inner, tail, rfl, rfl, htail⟩ := List.map_eq_append_iff.mp htext
    obtain ⟨closing, after, rfl, hclose, -⟩ := List.map_eq_cons_iff.mp htail
    rw [hv.nestAt_append, nestAt_closing hclose]
    refine ⟨inner, _, _, cutAt_append_cons (fun x hx => ?_) (by simp [hclose]), hv⟩
    by_cases hchar : x.char = ')'
    · have hne : x.depth ≠ depth + 1 := Nat.ne_of_gt (lt_depth_of_closing hv (depth + 1) x hx hchar)
      simp [hne]
    · simp [hchar]

end Nested

/-- A result leaves the brackets of every part paired, and reports no bracket. -/
def KeepsBrackets : Except ParseError Outline → Prop
  | .ok o => ∀ part ∈ o.parts, Balanced part.text
  | .error e => ∀ opening, e.fault ≠ .unbalancedBracket opening

section Outline

variable {s : Segment} {gs : List Glyph} {ns ls rs : List NestedGlyph}

/-- The operands of an operator are balanced if the texts on its sides are. -/
theorem keepsBrackets_outlineOperator {op : BinaryOp} {position : Nat}
    (hls : Balanced (nestedText ls)) (hrs : Balanced (nestedText rs)) :
    KeepsBrackets (outlineOperator s op ls position rs) := by
  unfold outlineOperator
  dsimp only
  split
  · exact nofun
  · split
    · split <;> simpa [KeepsBrackets, Outline.parts] using hrs
    · simpa [KeepsBrackets, Outline.parts] using ⟨hls, hrs⟩

/-- The arguments of a function are balanced if the text in its brackets is. -/
theorem keepsBrackets_outlineArguments {op : Operation} {position closing : Nat}
    {opening : NestedGlyph} (hgs : Balanced (gs.map Glyph.char)) :
    KeepsBrackets (outlineArguments op position opening (nestAt opening.depth gs) closing) := by
  unfold outlineArguments
  dsimp only
  split
  · intro _ h
    cases h
  · split
    · simpa [KeepsBrackets, Outline.parts, nestedText_nestAt] using hgs
    · split
      · intro _ h
        cases h
      · next first separator second hcut =>
        have hproperty := cutAt_property hcut
        rw [Bool.and_eq_true, decide_eq_true_eq, decide_eq_true_eq] at hproperty
        obtain ⟨hfirst, hsecond⟩ :=
          balanced_of_nestAt_eq (j := 0) hgs (append_of_cutAt hcut) hproperty.2
        have hfirst : Balanced (nestedText first) := hfirst
        split
        · intro _ h
          cases h
        · simpa [KeepsBrackets, Outline.parts] using ⟨hfirst, hsecond⟩

/-- A keyword is followed by a bracket with a partner, or by no bracket. -/
theorem keepsBrackets_outlineKeyword {op : Operation} {position : Nat}
    (hgs : Balanced (gs.map Glyph.char)) (hns : nestAt 0 gs = ls ++ rs) :
    KeepsBrackets (outlineKeyword op position rs) := by
  unfold outlineKeyword
  split
  · exact nofun
  · next opening rest =>
    split
    · next hopening =>
      obtain ⟨inner, closing, after, hcut, hinner⟩ := exists_cutAt_closing hgs hns hopening
      rw [hcut]
      cases after with
      | nil => exact keepsBrackets_outlineArguments hinner
      | cons extra after => exact nofun
    · exact nofun

/-- The outline of a nested text leaves its brackets paired. -/
theorem keepsBrackets_outline (hnest : nest gs = .ok ns) : KeepsBrackets (outline s ns) := by
  obtain ⟨hgs, rfl⟩ := nest_eq_ok_iff.mp hnest
  cases division_outline s (nestAt 0 gs) with
  | operand hresult =>
    rw [hresult]
    exact nofun
  | operator hns hdepth _ _ _ hresult =>
    rw [hresult]
    obtain ⟨hls, hrs⟩ := balanced_of_nestAt_eq (j := 0) hgs hns hdepth
    exact keepsBrackets_outlineOperator hls hrs
  | keyword hns _ _ hresult =>
    rw [hresult]
    exact keepsBrackets_outlineKeyword hgs hns
  | misplaced _ hresult =>
    rw [hresult]
    exact nofun

end Outline

section Reading

variable {α : Type} [Scalar α] [HasNumerals α] {letter : Char} {s : Segment}

/-- A segment whose brackets are not paired is read as far as the nesting of its characters. -/
theorem parseSegment_of_nest_eq_error {e : ParseError} (h : nest s.glyphs = .error e) :
    (parseSegment letter s : Except ParseError (Expr α)) = .error e := by
  have hstrip : s.strip = s := strip_of_not_balanced fun hbalanced => by
    rw [nest_eq_ok_iff.mpr ⟨hbalanced, rfl⟩] at h
    cases h
  rw [parseSegment_eq, hstrip, h]

/-- Whatever else is wrong with a segment whose brackets are paired, no bracket is reported. -/
theorem fault_ne_unbalancedBracket (hs : Balanced s.text) {e : ParseError}
    (h : (parseSegment letter s : Except ParseError (Expr α)) = .error e) (opening : Bool) :
    e.fault ≠ .unbalancedBracket opening := by
  induction hn : s.glyphs.length using Nat.strongRecOn generalizing s e with
  | ind n ih =>
    subst hn
    cases failure_of_parseSegment h with
    | unbalanced hnest =>
      rw [nest_eq_ok_iff.mpr ⟨balanced_strip hs, rfl⟩] at hnest
      cases hnest
    | empty _ he =>
      rw [he]
      exact nofun
    | outline hnest houtline =>
      have hkeeps := keepsBrackets_outline (s := s.strip) hnest
      rw [houtline] at hkeeps
      exact hkeeps opening
    | operand _ hread =>
      unfold readOperand at hread
      split at hread
      · cases hread
      · split at hread
        · cases hread
        · cases hread
          exact nofun
    | part hnest houtline hpart hfails =>
      have hkeeps := keepsBrackets_outline (s := s.strip) hnest
      rw [houtline] at hkeeps
      have hshorter := outline_shorter houtline _ hpart
      have hlength := congrArg List.length (toGlyph_of_nest hnest)
      rw [List.length_map] at hlength
      have hstrip := s.length_strip_le
      exact ih _ (by omega) (hkeeps _ hpart) hfails rfl
    | dangling _ _ he =>
      rw [he]
      exact nofun

/-- What nesting reports of a source text is what parsing reports. -/
theorem parse_of_nest_eq_error {source : List Char} {e : ParseError}
    (h : nest (glyphsFrom 0 source) = .error e) :
    (parse letter source : Except ParseError (Expr α)) = .error e :=
  parseSegment_of_nest_eq_error h

/-- The characters that are read of a text with paired brackets have paired brackets. -/
theorem balanced_ofSource {source : List Char} (h : Paired source) :
    Balanced (Segment.ofSource source).text := by
  obtain ⟨ns, hnest⟩ := (nesting_nest source).exists_of_paired h
  exact (nest_eq_ok_iff.mp hnest).1

/-- The parts of a text with paired brackets have paired brackets. -/
theorem Segment.Reached.balanced {source : List Char} (h : s.Reached source)
    (hsource : Paired source) : Balanced s.text := by
  induction h with
  | source => exact balanced_ofSource hsource
  | @part s part ns o _ hnest houtline hpart ih =>
    have hkeeps := keepsBrackets_outline (s := s.strip) hnest
    rw [houtline] at hkeeps
    exact hkeeps part hpart

end Reading

/-- Parsing reports a bracket exactly if the brackets of the text are not paired: the first closing
bracket without a partner, or else the last opening one. No part of a text with paired brackets is
reported for one. Behind a keyword the search for the partner of an opening bracket always succeeds,
so that no bracket is reported there. -/
theorem unbalanced_brackets_reported_first {α : Type} [Scalar α] [HasNumerals α] (letter : Char)
    (source : List Char) :
    let result : Except ParseError (Expr α) := parse letter source
    ((∃ opening spans, result = .error ⟨.unbalancedBracket opening, spans⟩) ↔ ¬Paired source) ∧
    ((∃ q, ClosesNothing source q) → ∃ p, IsLeast {p | ClosesNothing source p} p ∧
      result = .error (.atPosition (.unbalancedBracket false) p)) ∧
    (¬Paired source → (∀ q, ¬ClosesNothing source q) →
      ∃ p, IsGreatest {p | NeverClosed source p} p ∧
        result = .error (.atPosition (.unbalancedBracket true) p)) ∧
    (Paired source → ∀ part, part.Reached source → ∀ opening spans,
      (parseSegment letter.toLower part : Except ParseError (Expr α)) ≠
        .error ⟨.unbalancedBracket opening, spans⟩) ∧
    ∀ (gs : List Glyph) (before after : List NestedGlyph), nest gs = .ok (before ++ after) →
      (∀ opening rest, after = opening :: rest → opening.char = '(' →
        (cutAt (fun g => g.char = ')' && g.depth = opening.depth) rest).isSome = true) ∧
      ∀ op position opening spans, outlineKeyword op position after ≠
        .error ⟨.unbalancedBracket opening, spans⟩ := by
  intro result
  have hnesting := nesting_nest source
  have hunreported {part : Segment} (hpart : Balanced part.text) (opening : Bool)
      (spans : List Span) : (parseSegment letter.toLower part : Except ParseError (Expr α)) ≠
        .error ⟨.unbalancedBracket opening, spans⟩ :=
    fun h => fault_ne_unbalancedBracket hpart h opening rfl
  refine ⟨⟨?_, fun hunpaired => ?_⟩, fun hstray => ?_, fun hunpaired hclosed => ?_,
    fun hpaired part hpart => hunreported (hpart.balanced hpaired), fun gs before after hnest => ?_⟩
  · rintro ⟨opening, spans, h⟩ hpaired
    exact hunreported (balanced_ofSource hpaired) opening spans h
  · obtain ⟨opening, position, h⟩ := hnesting.exists_of_not_paired hunpaired
    exact ⟨opening, _, parse_of_nest_eq_error h⟩
  · obtain ⟨p, hp, h⟩ := hnesting.exists_isLeast hstray
    exact ⟨p, hp, parse_of_nest_eq_error h⟩
  · obtain ⟨p, hp, h⟩ := hnesting.exists_isGreatest hunpaired hclosed
    exact ⟨p, hp, parse_of_nest_eq_error h⟩
  · obtain ⟨hgs, hns⟩ := nest_eq_ok_iff.mp hnest
    refine ⟨fun opening rest hafter hopen => ?_, fun op position opening spans h => ?_⟩
    · rw [hafter] at hns
      obtain ⟨inner, closing, later, hcut, -⟩ := exists_cutAt_closing hgs hns hopen
      rw [hcut]
      rfl
    · have hkeeps : KeepsBrackets (outlineKeyword op position after) :=
        keepsBrackets_outlineKeyword hgs hns
      rw [h] at hkeeps
      exact hkeeps opening rfl

end Univariate
