import Mathlib.Order.Bounds.Basic
import Univariate.Proofs.FaultPlaces

/-!
# Brackets and their partners

Two brackets are partners if the brackets between them are paired. Nesting keeps the positions of
the open brackets on a stack. The stack always holds the opening brackets that have no partner yet,
with paired texts between them, so a text that cannot be nested is reported at its first closing
bracket without a partner, and if there is none at its last opening bracket without one.
-/

namespace Univariate

/-- The brackets of a text are paired: they can be grouped into pairs that stand beside each other
or inside one another. -/
inductive Paired : List Char → Prop
  | nil : Paired []
  | cons {c : Char} {w : List Char} (hopen : c ≠ '(') (hclose : c ≠ ')') (hw : Paired w) :
      Paired (c :: w)
  | pair {v w : List Char} (hv : Paired v) (hw : Paired w) : Paired ('(' :: (v ++ ')' :: w))

/-- The brackets at two positions of a text are partners. -/
def ArePartners (w : List Char) (i j : Nat) : Prop :=
  ∃ l v r, w = l ++ '(' :: (v ++ ')' :: r) ∧ Paired v ∧ i = l.length ∧ j = i + v.length + 1

/-- The closing bracket at a position has no partner. -/
def ClosesNothing (w : List Char) (j : Nat) : Prop :=
  w[j]? = some ')' ∧ ∀ i, ¬ArePartners w i j

/-- The opening bracket at a position has no partner. -/
def NeverClosed (w : List Char) (i : Nat) : Prop :=
  w[i]? = some '(' ∧ ∀ j, ¬ArePartners w i j

/-- A part that closes at least one open bracket divides at the partner of the innermost one. -/
theorem exists_closing {k : Nat} {w : List Char} (h : balancedFrom (k + 1) w = true) :
    ∃ v r, w = v ++ ')' :: r ∧ Balanced v ∧ balancedFrom k r = true := by
  induction hn : w.length using Nat.strongRecOn generalizing k w with
  | ind n ih =>
    subst hn
    cases w with
    | nil => simp [balancedFrom] at h
    | cons c w =>
      have hlength : w.length < (c :: w).length := Nat.lt_succ_self _
      by_cases hopen : c = '('
      · -- the bracket is closed first, and what follows closes the one around it
        subst hopen
        rw [balancedFrom_opening] at h
        obtain ⟨v, r, rfl, hv, hr⟩ := ih _ hlength h rfl
        have hlength' : r.length < ('(' :: (v ++ ')' :: r)).length := by
          rw [List.length_cons, List.length_append, List.length_cons]
          omega
        obtain ⟨v', r', rfl, hv', hr'⟩ := ih _ hlength' hr rfl
        exact ⟨'(' :: v ++ [')'] ++ v', r', by simp, hv.brackets.append hv', hr'⟩
      · by_cases hclose : c = ')'
        · subst hclose
          rw [balancedFrom_closing] at h
          exact ⟨[], w, rfl, .nil, h⟩
        · rw [balancedFrom_other hopen hclose] at h
          obtain ⟨v, r, rfl, hv, hr⟩ := ih _ hlength h rfl
          exact ⟨c :: v, r, rfl, .cons hopen hclose hv, hr⟩

/-- The brackets of a text are paired exactly if counting finds it balanced. -/
theorem paired_iff_balanced {w : List Char} : Paired w ↔ Balanced w := by
  constructor
  · intro h
    induction h with
    | nil => exact .nil
    | cons hopen hclose _ ih => exact .cons hopen hclose ih
    | @pair v w _ _ ihv ihw =>
      have hpair : '(' :: (v ++ ')' :: w) = '(' :: v ++ [')'] ++ w := by simp
      rw [hpair]
      exact ihv.brackets.append ihw
  · intro h
    induction hn : w.length using Nat.strongRecOn generalizing w with
    | ind n ih =>
      subst hn
      cases w with
      | nil => exact .nil
      | cons c w =>
        by_cases hopen : c = '('
        · subst hopen
          rw [Balanced, balancedFrom_opening] at h
          obtain ⟨v, r, rfl, hv, hr⟩ := exists_closing h
          have hlength : ('(' :: (v ++ ')' :: r)).length = v.length + r.length + 2 := by
            rw [List.length_cons, List.length_append, List.length_cons]
            omega
          exact .pair (ih _ (by omega) hv rfl) (ih _ (by omega) hr rfl)
        · by_cases hclose : c = ')'
          · subst hclose
            cases h
          · rw [Balanced, balancedFrom_other hopen hclose] at h
            exact .cons hopen hclose (ih _ (Nat.lt_succ_self _) h rfl)

/-- Before the end of a balanced text no closing bracket follows a balanced one. -/
theorem Balanced.not_before_closing {v w r : List Char} (hw : Balanced w)
    (h : w = v ++ ')' :: r) : ¬Balanced v := by
  intro hv
  rw [h, Balanced, ← Nat.zero_add 0, balancedFrom_append hv] at hw
  cases hw

/-- What stands at the end of a text that closes all open brackets closes those that are open
there. -/
theorem exists_depth_of_append {k : Nat} {l w : List Char} (h : balancedFrom k (l ++ w) = true) :
    ∃ depth, balancedFrom depth w = true := by
  induction l generalizing k with
  | nil => exact ⟨k, h⟩
  | cons c l ih =>
    rw [List.cons_append] at h
    by_cases hopen : c = '('
    · subst hopen
      rw [balancedFrom_opening] at h
      exact ih h
    · by_cases hclose : c = ')'
      · subst hclose
        cases k with
        | zero => cases h
        | succ k =>
          rw [balancedFrom_closing] at h
          exact ih h
      · rw [balancedFrom_other hopen hclose] at h
        exact ih h

/-- The opening brackets of a balanced text have partners. -/
theorem Balanced.exists_partner {l r w : List Char} (hw : Balanced w) (h : w = l ++ '(' :: r) :
    ∃ v r', r = v ++ ')' :: r' ∧ Balanced v := by
  rw [h, Balanced] at hw
  obtain ⟨depth, hdepth⟩ := exists_depth_of_append hw
  rw [balancedFrom_opening] at hdepth
  obtain ⟨v, r', hr, hv, -⟩ := exists_closing hdepth
  exact ⟨v, r', hr, hv⟩

/-- An opening bracket with nothing but a balanced text behind it is never closed. -/
theorem Balanced.not_after_opening {l v w : List Char} (hw : Balanced w)
    (h : w = l ++ '(' :: v) : ¬Balanced v := by
  intro hv
  obtain ⟨v', r', hr, hv'⟩ := hw.exists_partner h
  exact hv.not_before_closing hr hv'

/-- The brackets at some positions of a text, the innermost first, are open at its end. The texts
before, between and behind them are balanced. -/
inductive Opens : List Nat → List Char → Prop
  | balanced {w : List Char} (hw : Balanced w) : Opens [] w
  | opening {opened : List Nat} {l r : List Char} (hl : Opens opened l) (hr : Balanced r) :
      Opens (l.length :: opened) (l ++ '(' :: r)

namespace Opens

variable {opened : List Nat} {v w r : List Char}

/-- A balanced text leaves the stack as it is. -/
theorem append (h : Opens opened w) (hv : Balanced v) : Opens opened (w ++ v) := by
  cases h with
  | balanced hw => exact .balanced (hw.append hv)
  | opening hl hr =>
    rw [List.append_assoc, List.cons_append]
    exact .opening hl (hr.append hv)

/-- A closing bracket takes its partner off the stack. -/
theorem concat_closing {position : Nat} (h : Opens (position :: opened) w) :
    Opens opened (w ++ [')']) := by
  cases h with
  | opening hl hr =>
    rw [List.append_assoc]
    exact hl.append hr.brackets

/-- While some brackets are open or none, no closing bracket was without a partner. -/
theorem not_before_closing (h : Opens opened w) (hw : w = v ++ ')' :: r) : ¬Balanced v := by
  induction h generalizing v r with
  | balanced hbalanced => exact hbalanced.not_before_closing hw
  | @opening opened l r' _ hr ih =>
    rcases List.append_eq_append_iff.mp hw with ⟨as, rfl, has⟩ | ⟨bs, hl, hbs⟩
    · cases as with
      | nil => cases has
      | cons c as =>
        rw [List.cons_append] at has
        obtain ⟨rfl, rfl⟩ := List.cons.inj has
        intro hv
        obtain ⟨x, y, rfl, hx⟩ := hv.exists_partner rfl
        exact hr.not_before_closing (by rw [List.append_assoc, List.cons_append]) hx
    · cases bs with
      | nil => cases hbs
      | cons c bs =>
        obtain ⟨rfl, -⟩ := List.cons.inj hbs
        exact ih hl

end Opens

/-- Brackets are read as they are. -/
theorem readAs_eq_bracket_iff {c d : Char} (hd : d = '(' ∨ d = ')') : readAs c = d ↔ c = d := by
  constructor
  · intro h
    obtain rfl | rfl := hd
    · exact eq_of_readAs h (by decide) (by decide)
    · exact eq_of_readAs h (by decide) (by decide)
  · rintro rfl
    obtain rfl | rfl := hd <;> decide

/-- What nesting finds out about a text. -/
inductive Nesting (w : List Char) : Except ParseError (List NestedGlyph) → Prop
  | balanced {ns : List NestedGlyph} (hw : Balanced w) : Nesting w (.ok ns)
  | stray {l r : List Char} (hw : w = l ++ ')' :: r) (hl : Balanced l) :
      Nesting w (.error (.atPosition (.unbalancedBracket false) l.length))
  | unclosed {opened : List Nat} {l r : List Char} (hw : w = l ++ '(' :: r) (hl : Opens opened l)
      (hr : Balanced r) : Nesting w (.error (.atPosition (.unbalancedBracket true) l.length))

/-- What nesting finds out about a text does not depend on what is made of the depths. -/
theorem Nesting.map {w : List Char} {x : Except ParseError (List NestedGlyph)} (h : Nesting w x)
    (f : List NestedGlyph → List NestedGlyph) : Nesting w (x.map f) := by
  cases h with
  | balanced hw => exact .balanced hw
  | stray hw hl => exact .stray hw hl
  | unclosed hw hl hr => exact .unclosed hw hl hr

/-- Nesting goes on from a stack that holds the open brackets of what was read before. -/
theorem nesting_of_opens {opened : List Nat} {before : List Char} (h : Opens opened before)
    (w : List Char) :
    Nesting (before ++ w) (nestFrom opened (glyphsFrom before.length w)) := by
  -- Every character keeps the stack right, or is the first closing bracket without a partner.
  induction w generalizing opened before with
  | nil =>
    rw [List.append_nil, glyphsFrom]
    cases h with
    | balanced hw => exact .balanced hw
    | opening hl hr => exact .unclosed rfl hl hr
  | cons c w ih =>
    have hsplit : before ++ c :: w = before ++ [c] ++ w := by simp
    have hnext : before.length + 1 = (before ++ [c]).length := by simp
    have hother (hopen : c ≠ '(') (hclose : c ≠ ')') : Opens opened (before ++ [c]) :=
      h.append (.singleton hopen hclose)
    rw [glyphsFrom, hnext]
    cases hblank : isBlank c with
    | true =>
      have hopen : c ≠ '(' := by rintro rfl; cases hblank
      have hclose : c ≠ ')' := by rintro rfl; cases hblank
      rw [hsplit]
      exact ih (hother hopen hclose)
    | false =>
      rw [if_neg Bool.false_ne_true]
      unfold nestFrom
      simp only [readAs_eq_bracket_iff (.inl rfl), readAs_eq_bracket_iff (.inr rfl)]
      split
      · next hopen =>
        subst hopen
        rw [hsplit]
        exact (ih (.opening h .nil)).map _
      · next hopen =>
        split
        · next hclose =>
          subst hclose
          cases opened with
          | nil =>
            cases h with
            | balanced hw => exact .stray rfl hw
          | cons position outer =>
            rw [hsplit]
            exact (ih h.concat_closing).map _
        · next hclose =>
          rw [hsplit]
          exact (ih (hother hopen hclose)).map _

/-- Nesting finds out what a source text is like. -/
theorem nesting_nest (source : List Char) : Nesting source (nest (glyphsFrom 0 source)) :=
  nesting_of_opens (.balanced .nil) source

/-- The character at a position divides the text. -/
theorem exists_append_of_getElem? {β : Type} {w : List β} {p : Nat} {c : β} (h : w[p]? = some c) :
    ∃ l r, w = l ++ c :: r ∧ l.length = p := by
  obtain ⟨hlt, rfl⟩ := List.getElem?_eq_some_iff.mp h
  refine ⟨w.take p, w.drop (p + 1), ?_, List.length_take_of_le (Nat.le_of_lt hlt)⟩
  rw [List.getElem_cons_drop, List.take_append_drop]

/-- Partners in the first part of a text are partners in the text. -/
theorem ArePartners.append {w : List Char} {i j : Nat} (h : ArePartners w i j) (r : List Char) :
    ArePartners (w ++ r) i j := by
  obtain ⟨l, v, r', rfl, hv, hi, hj⟩ := h
  exact ⟨l, v, r' ++ r, by simp, hv, hi, hj⟩

/-- Where no closing bracket was without a partner, each of them has one. -/
theorem Opens.exists_partner {opened : List Nat} {l r w : List Char} (h : Opens opened w)
    (hw : w = l ++ ')' :: r) : ∃ l' v, l = l' ++ '(' :: v ∧ Balanced v := by
  have hnesting := nesting_nest l
  generalize nest (glyphsFrom 0 l) = result at hnesting
  cases hnesting with
  | balanced hl => exact (h.not_before_closing hw hl).elim
  | stray hl hv =>
    rw [hl, List.append_assoc, List.cons_append] at hw
    exact (h.not_before_closing hw hv).elim
  | unclosed hl _ hv => exact ⟨_, _, hl, hv⟩

/-- No closing bracket is without a partner while brackets are open. -/
theorem Opens.not_closesNothing {opened : List Nat} {w : List Char} (h : Opens opened w) (p : Nat) :
    ¬ClosesNothing w p := by
  rintro ⟨hchar, hpartners⟩
  obtain ⟨l, r, hw, hp⟩ := exists_append_of_getElem? hchar
  obtain ⟨l', v, rfl, hv⟩ := h.exists_partner hw
  refine hpartners l'.length ⟨l', v, r, by simp [hw], paired_iff_balanced.mpr hv, rfl, ?_⟩
  rw [← hp, List.length_append, List.length_cons, Nat.add_assoc]

/-- A closing bracket behind a balanced text is the first one without a partner. -/
theorem isLeast_closesNothing {l : List Char} (hl : Balanced l) (r : List Char) :
    IsLeast {p | ClosesNothing (l ++ ')' :: r) p} l.length := by
  refine ⟨⟨by simp, ?_⟩, fun p hp => Nat.not_lt.mp fun hlt => ?_⟩
  · rintro i ⟨l', v, r', hw, hv, rfl, hlength⟩
    have hw : l ++ ')' :: r = (l' ++ '(' :: v) ++ ')' :: r' := by simp [hw]
    have hlength : l.length = (l' ++ '(' :: v).length := by
      rw [hlength, List.length_append, List.length_cons, Nat.add_assoc]
    exact hl.not_after_opening (List.append_inj hw hlength).1 (paired_iff_balanced.mp hv)
  · obtain ⟨hchar, hpartners⟩ := hp
    rw [List.getElem?_append_left hlt] at hchar
    exact (Opens.balanced hl).not_closesNothing p ⟨hchar, fun i hi => hpartners i (hi.append _)⟩

/-- An opening bracket in front of a balanced text is the last one without a partner. -/
theorem isGreatest_neverClosed (l : List Char) {r : List Char} (hr : Balanced r) :
    IsGreatest {p | NeverClosed (l ++ '(' :: r) p} l.length := by
  refine ⟨⟨by simp, ?_⟩, fun p hp => Nat.not_lt.mp fun hlt => ?_⟩
  · rintro j ⟨l', v, r', hw, hv, hlength, -⟩
    obtain ⟨-, htail⟩ := List.append_inj hw hlength
    exact hr.not_before_closing (List.cons.inj htail).2 (paired_iff_balanced.mp hv)
  · obtain ⟨hchar, hpartners⟩ := hp
    have hw : l ++ '(' :: r = (l ++ ['(']) ++ r := by simp
    have hle : (l ++ ['(']).length ≤ p := by
      rw [List.length_append]
      exact hlt
    rw [hw, List.getElem?_append_right hle] at hchar
    obtain ⟨l', r', hr', hp⟩ := exists_append_of_getElem? hchar
    obtain ⟨v, r'', rfl, hv⟩ := hr.exists_partner hr'
    refine hpartners (p + v.length + 1) ⟨l ++ '(' :: l', v, r'', by simp [hr'],
      paired_iff_balanced.mpr hv, ?_, rfl⟩
    simp only [List.length_append, List.length_cons, List.length_nil] at hp hle ⊢
    omega

namespace Nesting

variable {w : List Char} {result : Except ParseError (List NestedGlyph)}

/-- A text with paired brackets is nested. -/
theorem exists_of_paired (h : Nesting w result) (hw : Paired w) : ∃ ns, result = .ok ns := by
  have hbalanced := paired_iff_balanced.mp hw
  cases h with
  | balanced _ => exact ⟨_, rfl⟩
  | stray hsplit hl => exact (hbalanced.not_before_closing hsplit hl).elim
  | unclosed hsplit _ hr => exact (hbalanced.not_after_opening hsplit hr).elim

/-- A text with unpaired brackets is reported for one of them. -/
theorem exists_of_not_paired (h : Nesting w result) (hw : ¬Paired w) : ∃ opening position,
    result = .error (.atPosition (.unbalancedBracket opening) position) := by
  cases h with
  | balanced hbalanced => exact absurd (paired_iff_balanced.mpr hbalanced) hw
  | stray _ _ => exact ⟨_, _, rfl⟩
  | unclosed _ _ _ => exact ⟨_, _, rfl⟩

/-- If some closing bracket has no partner, the first one is reported. -/
theorem exists_isLeast (h : Nesting w result) (hw : ∃ q, ClosesNothing w q) :
    ∃ p, IsLeast {p | ClosesNothing w p} p ∧
      result = .error (.atPosition (.unbalancedBracket false) p) := by
  obtain ⟨q, hq⟩ := hw
  cases h with
  | balanced hbalanced => exact absurd hq ((Opens.balanced hbalanced).not_closesNothing q)
  | stray hsplit hl =>
    rw [hsplit]
    exact ⟨_, isLeast_closesNothing hl _, rfl⟩
  | unclosed hsplit hl hr =>
    rw [hsplit] at hq
    exact absurd hq ((Opens.opening hl hr).not_closesNothing q)

/-- If every closing bracket has a partner but not every opening one, the last of these is
reported. -/
theorem exists_isGreatest (h : Nesting w result) (hw : ¬Paired w)
    (hclosed : ∀ q, ¬ClosesNothing w q) : ∃ p, IsGreatest {p | NeverClosed w p} p ∧
      result = .error (.atPosition (.unbalancedBracket true) p) := by
  cases h with
  | balanced hbalanced => exact absurd (paired_iff_balanced.mpr hbalanced) hw
  | stray hsplit hl =>
    rw [hsplit] at hclosed
    exact absurd (isLeast_closesNothing hl _).1 (hclosed _)
  | unclosed hsplit hl hr =>
    rw [hsplit]
    exact ⟨_, isGreatest_neverClosed _ hr, rfl⟩

end Nesting

end Univariate
