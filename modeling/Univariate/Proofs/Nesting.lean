import Univariate.Source.Depth

/-!
# Nesting of brackets

Measuring depths succeeds exactly on balanced texts, and the depths are then those of a plain
counter. A balanced part of a text leaves the counter where it was, so that the depths on both sides
of it can be computed apart.
-/

namespace Univariate

/-- An opening bracket is counted. -/
@[simp] theorem balancedFrom_opening (depth : Nat) (cs : List Char) :
    balancedFrom depth ('(' :: cs) = balancedFrom (depth + 1) cs := by
  simp [balancedFrom]

/-- A closing bracket takes one from the count. -/
@[simp] theorem balancedFrom_closing (depth : Nat) (cs : List Char) :
    balancedFrom (depth + 1) (')' :: cs) = balancedFrom depth cs := by
  simp [balancedFrom]

/-- Any other character leaves the count of brackets as it is. -/
theorem balancedFrom_other {c : Char} (hopen : c ≠ '(') (hclose : c ≠ ')') (depth : Nat)
    (cs : List Char) : balancedFrom depth (c :: cs) = balancedFrom depth cs := by
  cases depth <;> simp [balancedFrom, hclose]

/-- A part of a text that closes the innermost `j` brackets leaves the other brackets open. -/
theorem balancedFrom_append {j : Nat} {v : List Char} (hv : balancedFrom j v = true) (k : Nat)
    (w : List Char) : balancedFrom (k + j) (v ++ w) = balancedFrom k w := by
  induction v generalizing j with
  | nil =>
    have hj : j = 0 := by simpa [balancedFrom] using hv
    simp [hj]
  | cons c v ih =>
    by_cases hopen : c = '('
    · subst hopen
      rw [balancedFrom_opening] at hv
      rw [List.cons_append, balancedFrom_opening, Nat.add_assoc, ih hv]
    · by_cases hclose : c = ')'
      · subst hclose
        cases j with
        | zero => simp [balancedFrom] at hv
        | succ j =>
          rw [balancedFrom_closing] at hv
          rw [List.cons_append, ← Nat.add_assoc, balancedFrom_closing, ih hv]
      · rw [balancedFrom_other hopen hclose] at hv
        rw [List.cons_append, balancedFrom_other hopen hclose, ih hv]

/-- A text with the same number of opening and closing brackets that never closes too many. -/
def Balanced (w : List Char) : Prop := balancedFrom 0 w = true

namespace Balanced

/-- The empty text is balanced. -/
theorem nil : Balanced [] := rfl

/-- Two balanced texts after each other are balanced. -/
theorem append {v w : List Char} (hv : Balanced v) (hw : Balanced w) : Balanced (v ++ w) :=
  (balancedFrom_append hv 0 w).trans hw

/-- A single character other than a bracket is balanced. -/
theorem singleton {c : Char} (hopen : c ≠ '(') (hclose : c ≠ ')') : Balanced [c] := by
  rw [Balanced, balancedFrom_other hopen hclose]
  rfl

/-- A character other than a bracket in front of a balanced text leaves it balanced. -/
theorem cons {c : Char} {w : List Char} (hopen : c ≠ '(') (hclose : c ≠ ')') (hw : Balanced w) :
    Balanced (c :: w) :=
  append (singleton hopen hclose) hw

/-- Two balanced texts with a semicolon between them are balanced. -/
theorem separated {v w : List Char} (hv : Balanced v) (hw : Balanced w) :
    Balanced (v ++ ';' :: w) :=
  hv.append (cons (by decide) (by decide) hw)

/-- A text without brackets is balanced. -/
theorem of_forall {w : List Char} (h : ∀ c ∈ w, c ≠ '(' ∧ c ≠ ')') : Balanced w := by
  induction w with
  | nil => exact nil
  | cons c w ih =>
    obtain ⟨hopen, hclose⟩ := h c List.mem_cons_self
    exact cons hopen hclose (ih fun d hd => h d (List.mem_cons_of_mem c hd))

/-- A balanced text in brackets is balanced. -/
theorem brackets {w : List Char} (hw : Balanced w) : Balanced ('(' :: w ++ [')']) := by
  rw [Balanced, List.cons_append, balancedFrom_opening]
  exact balancedFrom_append hw 1 [')']

end Balanced

/-- The characters with their depths, when `depth` brackets are open before them. -/
def nestAt : Nat → List Glyph → List NestedGlyph
  | _, [] => []
  | depth, g :: gs =>
    if g.char = '(' then ⟨g, depth + 1⟩ :: nestAt (depth + 1) gs
    else if g.char = ')' then ⟨g, depth⟩ :: nestAt (depth - 1) gs
    else ⟨g, depth⟩ :: nestAt depth gs

/-- A function of a result succeeds exactly if there is a result. -/
theorem map_eq_ok_iff {ε α β : Type} {f : α → β} {x : Except ε α} {b : β} :
    x.map f = .ok b ↔ ∃ a, x = .ok a ∧ f a = b := by
  constructor
  · exact map_eq_ok
  · rintro ⟨a, rfl, rfl⟩
    rfl

/-- Depths are found exactly for the texts that close all open brackets, and they are counted. -/
theorem nestFrom_eq_ok_iff {opened : List Nat} {gs : List Glyph} {ns : List NestedGlyph} :
    nestFrom opened gs = .ok ns ↔
      balancedFrom opened.length (gs.map Glyph.char) = true ∧ nestAt opened.length gs = ns := by
  induction gs generalizing opened ns with
  | nil =>
    cases opened with
    | nil => simp [nestFrom, balancedFrom, nestAt]
    | cons position outer => simp [nestFrom, balancedFrom]
  | cons g gs ih =>
    unfold nestFrom nestAt
    rw [List.map_cons]
    split
    · next hopen =>
      rw [map_eq_ok_iff, hopen, balancedFrom_opening]
      simp only [ih, List.length_cons, and_assoc, exists_and_left, exists_eq_left']
    · next hopen =>
      split
      · next hclose =>
        rw [hclose]
        cases opened with
        | nil => simp [balancedFrom]
        | cons position outer =>
          rw [map_eq_ok_iff, List.length_cons, balancedFrom_closing]
          simp only [ih, Nat.add_sub_cancel, and_assoc, exists_and_left, exists_eq_left']
      · next hclose =>
        rw [map_eq_ok_iff, balancedFrom_other hopen hclose]
        simp only [ih, and_assoc, exists_and_left, exists_eq_left']

/-- Depths are found exactly for balanced texts. -/
theorem nest_eq_ok_iff {gs : List Glyph} {ns : List NestedGlyph} :
    nest gs = .ok ns ↔ Balanced (gs.map Glyph.char) ∧ nestAt 0 gs = ns :=
  nestFrom_eq_ok_iff

/-- The empty text has no depths. -/
@[simp] theorem nestAt_nil (depth : Nat) : nestAt depth [] = [] := rfl

/-- An opening bracket lies at the depth of the group that it opens. -/
theorem nestAt_opening {g : Glyph} (hg : g.char = '(') (depth : Nat) (gs : List Glyph) :
    nestAt depth (g :: gs) = ⟨g, depth + 1⟩ :: nestAt (depth + 1) gs := by
  rw [nestAt, if_pos hg]

/-- A closing bracket lies at the depth of the group that it closes. -/
theorem nestAt_closing {g : Glyph} (hg : g.char = ')') (depth : Nat) (gs : List Glyph) :
    nestAt depth (g :: gs) = ⟨g, depth⟩ :: nestAt (depth - 1) gs := by
  rw [nestAt, if_neg (by rw [hg]; decide), if_pos hg]

/-- Any other character lies at the depth reached before it. -/
theorem nestAt_other {g : Glyph} (hopen : g.char ≠ '(') (hclose : g.char ≠ ')') (depth : Nat)
    (gs : List Glyph) : nestAt depth (g :: gs) = ⟨g, depth⟩ :: nestAt depth gs := by
  rw [nestAt, if_neg hopen, if_neg hclose]

/-- The depth of a character and the depth after it do not depend on what follows. -/
theorem exists_nestAt_cons (depth : Nat) (g : Glyph) :
    ∃ own next, ∀ gs, nestAt depth (g :: gs) = ⟨g, own⟩ :: nestAt next gs := by
  simp only [nestAt]
  split
  · exact ⟨_, _, fun gs => rfl⟩
  · split <;> exact ⟨_, _, fun gs => rfl⟩

/-- Without their depths, nested characters are the characters. -/
theorem toGlyph_nestAt (depth : Nat) (gs : List Glyph) :
    (nestAt depth gs).map NestedGlyph.toGlyph = gs := by
  induction gs generalizing depth with
  | nil => rfl
  | cons g gs ih =>
    obtain ⟨own, next, hcons⟩ := exists_nestAt_cons depth g
    rw [hcons, List.map_cons, ih]

/-- Nested characters have the text of the characters. -/
theorem char_nestAt (depth : Nat) (gs : List Glyph) :
    (nestAt depth gs).map (fun g => g.char) = gs.map Glyph.char := by
  have hglyphs := congrArg (List.map Glyph.char) (toGlyph_nestAt depth gs)
  rwa [List.map_map] at hglyphs

/-- Every character has one depth. -/
theorem length_nestAt (depth : Nat) (gs : List Glyph) : (nestAt depth gs).length = gs.length := by
  have hlength := congrArg List.length (toGlyph_nestAt depth gs)
  rwa [List.length_map] at hlength

/-- The nesting of a text depends on what stands before it only through the depth reached there. -/
theorem exists_nestAt_append (depth : Nat) (gs : List Glyph) :
    ∃ reached, ∀ hs, nestAt depth (gs ++ hs) = nestAt depth gs ++ nestAt reached hs := by
  induction gs generalizing depth with
  | nil => exact ⟨depth, fun hs => rfl⟩
  | cons g gs ih =>
    obtain ⟨own, next, hcons⟩ := exists_nestAt_cons depth g
    obtain ⟨reached, happend⟩ := ih next
    refine ⟨reached, fun hs => ?_⟩
    rw [List.cons_append, hcons, hcons, happend, List.cons_append]

/-- The characters on both sides of a character on its own level are nested apart. -/
theorem exists_of_nestAt_eq {depth : Nat} {gs : List Glyph} {ls rs : List NestedGlyph}
    {g : NestedGlyph} (h : nestAt depth gs = ls ++ g :: rs) (hopen : g.char ≠ '(')
    (hclose : g.char ≠ ')') :
    ∃ gs₁ gs₂, nestAt depth gs₁ = ls ∧ nestAt g.depth gs₂ = rs := by
  have hgs : gs = ls.map NestedGlyph.toGlyph ++ g.toGlyph :: rs.map NestedGlyph.toGlyph := by
    rw [← toGlyph_nestAt depth gs, h, List.map_append, List.map_cons]
  obtain ⟨reached, happend⟩ := exists_nestAt_append depth (ls.map NestedGlyph.toGlyph)
  rw [hgs, happend, nestAt_other hopen hclose] at h
  obtain ⟨hls, hrest⟩ := List.append_inj h (by rw [length_nestAt, List.length_map])
  obtain ⟨hg, hrs⟩ := List.cons.inj hrest
  rw [← hg]
  exact ⟨_, _, hls, hrs⟩

/-- Induction over a part of a text that closes the innermost `j` open brackets. -/
@[elab_as_elim]
theorem closing_induction
    {motive : ∀ (j : Nat) (gs : List Glyph), balancedFrom j (gs.map Glyph.char) = true → Prop}
    {j : Nat} {gs : List Glyph} (h : balancedFrom j (gs.map Glyph.char) = true)
    (nil : motive 0 [] rfl)
    (opening : ∀ {j g gs} (hgs) (h), g.char = '(' → motive (j + 1) gs hgs → motive j (g :: gs) h)
    (closing : ∀ {j g gs} (hgs) (h), g.char = ')' → motive j gs hgs → motive (j + 1) (g :: gs) h)
    (other : ∀ {j g gs} (hgs) (h), g.char ≠ '(' → g.char ≠ ')' → motive j gs hgs →
      motive j (g :: gs) h) :
    motive j gs h := by
  induction gs generalizing j with
  | nil =>
    have hj : j = 0 := by simpa [balancedFrom] using h
    subst hj
    exact nil
  | cons g gs ih =>
    have hgs := h
    rw [List.map_cons] at hgs
    by_cases hopen : g.char = '('
    · rw [hopen, balancedFrom_opening] at hgs
      exact opening hgs h hopen (ih hgs)
    · by_cases hclose : g.char = ')'
      · rw [hclose] at hgs
        cases j with
        | zero => simp [balancedFrom] at hgs
        | succ j =>
          rw [balancedFrom_closing] at hgs
          exact closing hgs h hclose (ih hgs)
      · rw [balancedFrom_other hopen hclose] at hgs
        exact other hgs h hopen hclose (ih hgs)

/-- A part that closes `j` open brackets is nested as on its own, and so is what follows it. -/
theorem nestAt_append {j : Nat} {gs : List Glyph} (hgs : balancedFrom j (gs.map Glyph.char) = true)
    (k : Nat) (hs : List Glyph) :
    nestAt (k + j) (gs ++ hs) = nestAt (k + j) gs ++ nestAt k hs := by
  induction hgs using closing_induction with
  | nil => rfl
  | opening _ _ hopen ih =>
    rw [List.cons_append, nestAt_opening hopen, nestAt_opening hopen, Nat.add_assoc, ih,
      List.cons_append]
  | closing _ _ hclose ih =>
    rw [List.cons_append, nestAt_closing hclose, nestAt_closing hclose, ← Nat.add_assoc,
      Nat.add_sub_cancel, ih, List.cons_append]
  | other _ _ hopen hclose ih =>
    rw [List.cons_append, nestAt_other hopen hclose, nestAt_other hopen hclose, ih,
      List.cons_append]

/-- The depths after a balanced text are those of the rest of the text. -/
theorem Balanced.nestAt_append {gs : List Glyph} (hgs : Balanced (gs.map Glyph.char)) (k : Nat)
    (hs : List Glyph) : nestAt k (gs ++ hs) = nestAt k gs ++ nestAt k hs :=
  Univariate.nestAt_append hgs k hs

/-- No character of a part that closes `j` brackets lies above the brackets around the part. -/
theorem le_depth_nestAt {j : Nat} {gs : List Glyph}
    (hgs : balancedFrom j (gs.map Glyph.char) = true) (k : Nat) :
    ∀ g ∈ nestAt (k + j) gs, k ≤ g.depth := by
  induction hgs using closing_induction with
  | nil => simp
  | opening _ _ hopen ih =>
    rw [nestAt_opening hopen, List.forall_mem_cons]
    exact ⟨by show k ≤ k + _ + 1; omega, ih⟩
  | closing _ _ hclose ih =>
    rw [nestAt_closing hclose, List.forall_mem_cons]
    exact ⟨Nat.le_add_right k _, ih⟩
  | other _ _ hopen hclose ih =>
    rw [nestAt_other hopen hclose, List.forall_mem_cons]
    exact ⟨Nat.le_add_right k _, ih⟩

/-- The partners of the closing brackets of a part lie in the part. -/
theorem lt_depth_of_closing {j : Nat} {gs : List Glyph}
    (hgs : balancedFrom j (gs.map Glyph.char) = true) (k : Nat) :
    ∀ g ∈ nestAt (k + j) gs, g.char = ')' → k < g.depth := by
  induction hgs using closing_induction with
  | nil => simp
  | opening _ _ hopen ih =>
    rw [nestAt_opening hopen, List.forall_mem_cons]
    exact ⟨fun _ => by show k < k + _ + 1; omega, ih⟩
  | closing _ _ hclose ih =>
    rw [nestAt_closing hclose, List.forall_mem_cons]
    exact ⟨fun _ => Nat.lt_add_of_pos_right (Nat.succ_pos _), ih⟩
  | other _ _ hopen hclose ih =>
    rw [nestAt_other hopen hclose, List.forall_mem_cons]
    exact ⟨fun h => absurd h hclose, ih⟩

/-- The positions of the characters between two brackets. -/
theorem exists_of_brackets {gs : List Glyph} {w : List Char}
    (h : gs.map Glyph.char = '(' :: w ++ [')']) :
    ∃ first inner last, gs = first :: inner ++ [last] ∧ first.char = '(' ∧
      inner.map Glyph.char = w ∧ last.char = ')' := by
  obtain ⟨first, rest, rfl, hfirst, hrest⟩ := List.map_eq_cons_iff.mp h
  obtain ⟨inner, tail, rfl, hinner, htail⟩ := List.map_eq_append_iff.mp hrest
  obtain ⟨last, rest, rfl, hlast, hnil⟩ := List.map_eq_cons_iff.mp htail
  rw [List.map_eq_nil_iff.mp hnil]
  exact ⟨first, inner, last, rfl, hfirst, hinner, hlast⟩

/-- The characters of a bracketed text lie deeper than the brackets around it. -/
theorem lt_depth_of_brackets {first last : Glyph} {gs : List Glyph} (hfirst : first.char = '(')
    (hlast : last.char = ')') (hgs : Balanced (gs.map Glyph.char)) (k : Nat) :
    ∀ g ∈ nestAt k (first :: gs ++ [last]), k < g.depth := by
  have hinner := le_depth_nestAt hgs (k + 1)
  rw [List.cons_append, nestAt_opening hfirst, hgs.nestAt_append, nestAt_closing hlast]
  simp only [nestAt_nil, List.forall_mem_cons, List.forall_mem_append]
  exact ⟨Nat.lt_succ_self k, hinner, Nat.lt_succ_self k, by simp⟩

end Univariate
