import Univariate.Double
import Univariate.Proofs.IndexedSearch
import Univariate.Proofs.Literals
import Univariate.Proofs.Pairing

/-!
# Operands side by side

A text with brackets around some of it and no operation on its topmost level is no operand. The
fault is at the first place where an operand ends and another one begins, or at a letter that is no
variable before that. The search for it compares neighbouring characters and pays no regard to their
depths. It goes no further than the first group of the text, so that the depths only matter if the
text starts with a group that has another one inside: then the inner opening bracket is reported,
where no operands meet.
-/

namespace Univariate

open Indexed (isStray)

/-- A character stands where two operands meet, or is none: a letter outside of all brackets other
than the variable, the opening bracket of a group that does not come first, or the character behind
a group. The characters `before` stand on its left. -/
inductive Joins (letter : Char) (before : List NestedGlyph) (g : NestedGlyph) : Prop
  | letter (hdepth : g.depth = 0) (hletter : isLetter g.char = true) (hne : g.char ≠ letter)
  | opening (hbefore : before ≠ []) (hchar : g.char = '(') (hdepth : g.depth = 1)
  | behind {earlier : List NestedGlyph} {closing : NestedGlyph}
      (hbefore : before = earlier ++ [closing]) (hchar : closing.char = ')')
      (hdepth : closing.depth = 1)

/-- What the search for a joint stops at: the same places, with brackets at any depth. -/
inductive Meets (letter : Char) (before : List NestedGlyph) (g : NestedGlyph) : Prop
  | letter (hstray : isStray letter g = true)
  | opening (hbefore : before ≠ []) (hchar : g.char = '(')
  | behind {earlier : List NestedGlyph} {closing : NestedGlyph}
      (hbefore : before = earlier ++ [closing]) (hchar : closing.char = ')')

/-- No character before this one stands at such a place. -/
def IsFirst (P : List NestedGlyph → NestedGlyph → Prop) (before : List NestedGlyph)
    (g : NestedGlyph) : Prop :=
  P before g ∧ ∀ earlier h later, before = earlier ++ h :: later → ¬P earlier h

/-- The text starts with a group, and this character opens another one inside it, with no bracket
between the two. -/
def OpensInside (before : List NestedGlyph) (g : NestedGlyph) : Prop :=
  g.char = '(' ∧ ∃ opening inner, before = opening :: inner ∧ opening.char = '(' ∧
    ∀ h ∈ inner, h.char ≠ '(' ∧ h.char ≠ ')'

/-- The text starts with a group that opens another one before any bracket closes. -/
def StartsNested (ns : List NestedGlyph) : Prop :=
  ∃ before g after, ns = before ++ g :: after ∧ OpensInside before g

/-- The character `g` is the one that is reported for the text `ns` without an operation. -/
structure Reported (letter : Char) (ns before : List NestedGlyph) (g : NestedGlyph) : Prop where
  /-- If the text starts with a group that has another one inside, it is the inner opening bracket,
  where no operands meet. -/
  inside : StartsNested ns → OpensInside before g ∧ g.depth = 2 ∧ ¬Joins letter before g
  /-- Otherwise it is the first character that stands where operands meet, at depth zero or the
  opening bracket of a group on the topmost level. -/
  joint : ¬StartsNested ns →
    IsFirst (Joins letter) before g ∧ (g.depth = 0 ∨ g.depth = 1 ∧ g.char = '(')

variable {letter : Char} {before middle after : List NestedGlyph} {g : NestedGlyph}

/-- A text that does not start with an opening bracket does not start with a nested group. -/
theorem not_startsNested_of_char {x : NestedGlyph} {xs : List NestedGlyph} (hx : x.char ≠ '(') :
    ¬StartsNested (x :: xs) := by
  rintro ⟨before, g, after, hns, -, opening, inner, rfl, hopening, -⟩
  obtain ⟨rfl, -⟩ := List.cons.inj hns
  exact hx hopening

/-- A text that starts with a group without brackets in it has no other group inside of it. -/
theorem not_startsNested_of_closing {opening closing : NestedGlyph} {inner rest : List NestedGlyph}
    (hinner : ∀ x ∈ inner, x.char ≠ '(' ∧ x.char ≠ ')') (hclosing : closing.char = ')') :
    ¬StartsNested (opening :: inner ++ closing :: rest) := by
  let isBracket (x : NestedGlyph) : Bool := x.char = '(' || x.char = ')'
  have hfind {x : NestedGlyph} {xs ys : List NestedGlyph} (hx : isBracket x = true)
      (hxs : ∀ y ∈ xs, y.char ≠ '(' ∧ y.char ≠ ')') :
      (xs ++ x :: ys).find? isBracket = some x :=
    List.find?_eq_some_iff_append.mpr ⟨hx, xs, ys, rfl, by simpa [isBracket] using hxs⟩
  rintro ⟨before, g, after, hns, hg, opening', inner', rfl, -, hinner'⟩
  have htail : inner ++ closing :: rest = inner' ++ g :: after := (List.cons.inj hns).2
  -- The bracket that closes and the one that opens are both the first bracket of the tail.
  have hfirst : (inner ++ closing :: rest).find? isBracket = some closing :=
    hfind (by simp [isBracket, hclosing]) hinner
  rw [htail, hfind (by simp [isBracket, hg]) hinner'] at hfirst
  cases Option.some.inj hfirst
  rw [hg] at hclosing
  exact absurd hclosing (by decide)

/-- A text that does not start with a nested group is reported at its first joint. -/
theorem Reported.of_joint {ns : List NestedGlyph} (hstart : ¬StartsNested ns)
    (hfirst : IsFirst (Joins letter) before g) (hdepth : g.depth = 0 ∨ g.depth = 1 ∧ g.char = '(') :
    Reported letter ns before g :=
  ⟨fun h => absurd h hstart, fun _ => ⟨hfirst, hdepth⟩⟩

/-- A text that starts with a nested group is reported at the inner opening bracket. -/
theorem Reported.of_inside (hinside : OpensInside before g) (hdepth : g.depth = 2)
    (hnot : ¬Joins letter before g) : Reported letter (before ++ g :: after) before g :=
  ⟨fun _ => ⟨hinside, hdepth, hnot⟩, fun h => absurd ⟨before, g, after, rfl, hinside⟩ h⟩

/-- No character inside of brackets is a stray letter. -/
theorem isStray_of_depth (h : g.depth ≠ 0) : isStray letter g = false := by
  simp [isStray, h]

/-- The search stops wherever two operands meet. -/
theorem Joins.meets (h : Joins letter before g) : Meets letter before g := by
  cases h with
  | letter hdepth hletter hne => exact .letter (by simp [isStray, hdepth, hletter, hne])
  | opening hbefore hchar _ => exact .opening hbefore hchar
  | behind hbefore hchar _ => exact .behind hbefore hchar

/-- The first place at which the search stops is the first joint if it is one. -/
theorem IsFirst.of_meets (h : IsFirst (Meets letter) before g) (hjoins : Joins letter before g) :
    IsFirst (Joins letter) before g :=
  ⟨hjoins, fun earlier x later hbefore hx => h.2 earlier x later hbefore hx.meets⟩

/-- The search finds a character that it stops at. -/
theorem findJoint_of_meets (h : Meets letter before g) :
    findJoint letter (before.getLast?.map fun x => x.char) (g :: after) = some g := by
  cases h with
  | letter hstray => exact if_pos hstray
  | opening hbefore hchar =>
    obtain ⟨last, hlast⟩ := List.getLast?_isSome.mpr hbefore |> Option.isSome_iff_exists.mp
    simp [findJoint, hlast, hchar]
  | behind hbefore hchar =>
    subst hbefore
    simp [findJoint, hchar]

/-- The search goes on behind a character that it does not stop at. -/
theorem findJoint_of_not_meets (h : ¬Meets letter before g) :
    findJoint letter (before.getLast?.map fun x => x.char) (g :: after) =
      findJoint letter ((before ++ [g]).getLast?.map fun x => x.char) after := by
  have hstray : isStray letter g = false := Bool.eq_false_iff.mpr fun hg => h (.letter hg)
  have hjoint : ((before.getLast?.map fun x => x.char).isSome &&
      (decide (g.char = '(') || decide ((before.getLast?.map fun x => x.char) = some ')'))) =
        false := by
    rcases List.eq_nil_or_concat before with rfl | ⟨earlier, last, rfl⟩
    · rfl
    · have hopening : g.char ≠ '(' := fun hchar => h (.opening (by simp) hchar)
      have hclosing : last.char ≠ ')' := fun hchar => h (.behind (List.concat_eq_append ..) hchar)
      simp [hopening, hclosing]
  rw [List.getLast?_concat, Option.map_some, findJoint]
  rw [isStray] at hstray
  rw [hstray, hjoint]
  rfl

/-- The search stops at the first place that it looks for. The induction is on the characters that
it passes. -/
theorem findJoint_eq_some (hmeets : Meets letter (before ++ middle) g)
    (hfirst : ∀ earlier h later, middle = earlier ++ h :: later →
      ¬Meets letter (before ++ earlier) h) :
    findJoint letter (before.getLast?.map fun x => x.char) (middle ++ g :: after) = some g := by
  induction middle generalizing before with
  | nil =>
    rw [List.append_nil] at hmeets
    exact findJoint_of_meets hmeets
  | cons x middle ih =>
    have hx : ¬Meets letter before x := by simpa using hfirst [] x middle rfl
    rw [List.cons_append, findJoint_of_not_meets hx]
    refine ih (by simpa using hmeets) fun earlier h later hmiddle => ?_
    have hlater := hfirst (x :: earlier) h later (by rw [hmiddle, List.cons_append])
    simpa using hlater

/-- The search finds the first character that it stops at. -/
theorem findJoint_of_isFirst (h : IsFirst (Meets letter) before g) :
    findJoint letter none (before ++ g :: after) = some g :=
  @findJoint_eq_some letter [] before after g h.1 h.2

/-- The search passes characters that are no stray letters if only the first one opens a bracket and
only the last one closes a bracket. -/
theorem not_meets_of_append (hstray : ∀ h ∈ before, isStray letter h = false)
    (hopening : ∀ h ∈ before.tail, h.char ≠ '(') (hclosing : ∀ h ∈ before.dropLast, h.char ≠ ')')
    (earlier : List NestedGlyph) (h : NestedGlyph) (later : List NestedGlyph)
    (hbefore : before = earlier ++ h :: later) : ¬Meets letter earlier h := by
  subst hbefore
  rintro (hletter | ⟨hne, hchar⟩ | ⟨rfl, hchar⟩)
  · rw [hstray h (by simp)] at hletter
    cases hletter
  · obtain ⟨x, earlier, rfl⟩ := List.exists_cons_of_ne_nil hne
    exact hopening h (by simp) hchar
  · refine hclosing _ ?_ hchar
    rw [List.dropLast_append_of_ne_nil (by simp)]
    simp

/-- The characters of a text without brackets all lie at the depth reached before it. -/
theorem nestAt_of_forall {gs : List Glyph} (hgs : ∀ g ∈ gs, g.char ≠ '(' ∧ g.char ≠ ')')
    (depth : Nat) : nestAt depth gs = gs.map fun g => ⟨g, depth⟩ := by
  induction gs with
  | nil => rfl
  | cons g gs ih =>
    obtain ⟨⟨hopen, hclose⟩, hgs⟩ := List.forall_mem_cons.mp hgs
    rw [nestAt_other hopen hclose, ih hgs, List.map_cons]

/-- The first bracket of a text divides it. -/
theorem exists_first_bracket {gs : List Glyph} (h : ∃ g ∈ gs, g.char = '(' ∨ g.char = ')') :
    ∃ plain g rest, gs = plain ++ g :: rest ∧ (g.char = '(' ∨ g.char = ')') ∧
      ∀ x ∈ plain, x.char ≠ '(' ∧ x.char ≠ ')' := by
  obtain ⟨g, hg⟩ : ∃ g, gs.find? (fun g => g.char = '(' || g.char = ')') = some g := by
    rw [← Option.isSome_iff_exists, List.find?_isSome]
    simpa using h
  obtain ⟨hbracket, plain, rest, hgs, hplain⟩ := List.find?_eq_some_iff_append.mp hg
  exact ⟨plain, g, rest, hgs, by simpa using hbracket, by simpa using hplain⟩

/-- A text that starts with no bracket has its first joint before its first group, or there. -/
theorem exists_reported_of_plain {plain rest : List Glyph} {opening : Glyph}
    (hplain : ∀ x ∈ plain, x.char ≠ '(' ∧ x.char ≠ ')') (hne : plain ≠ [])
    (hopening : opening.char = '(') : ∃ before g after,
      nestAt 0 (plain ++ opening :: rest) = before ++ g :: after ∧
        IsFirst (Meets letter) before g ∧
        Reported letter (nestAt 0 (plain ++ opening :: rest)) before g := by
  have hbalanced : Balanced (plain.map Glyph.char) := .of_forall (by simpa using hplain)
  rw [hbalanced.nestAt_append, nestAt_opening hopening, nestAt_of_forall hplain]
  have hbrackets : ∀ x ∈ plain.map fun x => (⟨x, 0⟩ : NestedGlyph),
      x.char ≠ '(' ∧ x.char ≠ ')' := by
    simpa using hplain
  have hne : (plain.map fun x => (⟨x, 0⟩ : NestedGlyph)) ≠ [] := by simpa using hne
  have hdepth : ∀ x ∈ plain.map fun x => (⟨x, 0⟩ : NestedGlyph), x.depth = 0 := by simp
  generalize (plain.map fun x => (⟨x, 0⟩ : NestedGlyph)) = ps at *
  have hstart : ¬StartsNested (ps ++ ⟨opening, 1⟩ :: nestAt 1 rest) := by
    obtain ⟨x, xs, rfl⟩ := List.exists_cons_of_ne_nil hne
    exact not_startsNested_of_char (hbrackets x (by simp)).1
  have hpassed {earlier : List NestedGlyph} (hsub : earlier <+: ps)
      (hstray : ∀ x ∈ earlier, isStray letter x = false) :
      ∀ l h r, earlier = l ++ h :: r → ¬Meets letter l h :=
    not_meets_of_append hstray
      (fun x hx => (hbrackets x (hsub.subset (List.mem_of_mem_tail hx))).1)
      fun x hx => (hbrackets x (hsub.subset (List.dropLast_subset _ hx))).2
  cases hfind : ps.find? (isStray letter) with
  | some x =>
    obtain ⟨hstray, earlier, later, rfl, hearlier⟩ := List.find?_eq_some_iff_append.mp hfind
    have hmeets : Meets letter earlier x := .letter hstray
    have hx := hdepth x (by simp)
    have hjoins : Joins letter earlier x := by
      simp only [isStray, hx, decide_true, Bool.true_and, Bool.and_eq_true, bne_iff_ne] at hstray
      exact .letter hx hstray.1 hstray.2
    have hfirst : IsFirst (Meets letter) earlier x :=
      ⟨hmeets, hpassed (List.prefix_append _ _) (by simpa using hearlier)⟩
    exact ⟨earlier, x, later ++ ⟨opening, 1⟩ :: nestAt 1 rest, by simp, hfirst,
      .of_joint hstart (hfirst.of_meets hjoins) (.inl hx)⟩
  | none =>
    have hstray : ∀ x ∈ ps, isStray letter x = false := by simpa using hfind
    have hjoins : Joins letter ps ⟨opening, 1⟩ := .opening hne hopening rfl
    have hfirst : IsFirst (Meets letter) ps ⟨opening, 1⟩ :=
      ⟨hjoins.meets, hpassed List.prefix_rfl hstray⟩
    exact ⟨ps, ⟨opening, 1⟩, _, rfl, hfirst,
      .of_joint hstart (hfirst.of_meets hjoins) (.inr ⟨rfl, hopening⟩)⟩

section Group

variable {opening : Glyph} {inner rest : List Glyph}

/-- The characters of a group up to its next bracket. -/
theorem nestAt_group (hopening : opening.char = '(')
    (hinner : ∀ x ∈ inner, x.char ≠ '(' ∧ x.char ≠ ')') (rest : List Glyph) :
    nestAt 0 (opening :: inner ++ rest) =
      (opening :: inner).map (fun x => ⟨x, 1⟩) ++ nestAt 1 rest := by
  have hbalanced : Balanced (inner.map Glyph.char) := .of_forall (by simpa using hinner)
  rw [List.cons_append, nestAt_opening hopening, hbalanced.nestAt_append, nestAt_of_forall hinner]
  rfl

/-- In a group up to its next bracket there is nothing to stop at. -/
theorem passed_group (letter : Char) (hopening : opening.char = '(')
    (hinner : ∀ x ∈ inner, x.char ≠ '(' ∧ x.char ≠ ')') :
    (∀ x ∈ (opening :: inner).map fun x => (⟨x, 1⟩ : NestedGlyph),
        isStray letter x = false ∧ x.char ≠ ')') ∧
      ∀ x ∈ inner.map fun x => (⟨x, 1⟩ : NestedGlyph), x.char ≠ '(' := by
  have hclosing : ∀ x ∈ opening :: inner, x.char ≠ ')' :=
    List.forall_mem_cons.mpr ⟨by simp [hopening], fun x hx => (hinner x hx).2⟩
  refine ⟨fun x hx => ?_, fun x hx => ?_⟩ <;> obtain ⟨y, hy, rfl⟩ := List.mem_map.mp hx
  · exact ⟨isStray_of_depth Nat.one_ne_zero, hclosing y hy⟩
  · exact (hinner y hy).1

/-- A text that starts with a group that has another one inside is reported at the inner one. -/
theorem exists_reported_of_nested {g : Glyph} (hopening : opening.char = '(')
    (hinner : ∀ x ∈ inner, x.char ≠ '(' ∧ x.char ≠ ')') (hg : g.char = '(') : ∃ before g' after,
      nestAt 0 (opening :: inner ++ g :: rest) = before ++ g' :: after ∧
        IsFirst (Meets letter) before g' ∧
        Reported letter (nestAt 0 (opening :: inner ++ g :: rest)) before g' := by
  rw [nestAt_group hopening hinner, nestAt_opening hg]
  obtain ⟨hgroup, htail⟩ := passed_group letter hopening hinner
  have hpassed := not_meets_of_append (fun x hx => (hgroup x hx).1) htail
    fun x hx => (hgroup x (List.dropLast_subset _ hx)).2
  have hmeets : Meets letter ((opening :: inner).map fun x => ⟨x, 1⟩) ⟨g, 2⟩ :=
    .opening (by simp) hg
  have hinside : OpensInside ((opening :: inner).map fun x => ⟨x, 1⟩) ⟨g, 2⟩ :=
    ⟨hg, ⟨opening, 1⟩, _, rfl, hopening, by simpa using hinner⟩
  refine ⟨_, _, _, rfl, ⟨hmeets, hpassed⟩, .of_inside hinside rfl ?_⟩
  rintro (⟨hdepth, -, -⟩ | ⟨-, -, hdepth⟩ | ⟨hbefore, hchar, -⟩)
  · cases hdepth
  · cases hdepth
  · exact (hgroup _ (by rw [hbefore]; simp)).2 hchar

/-- A text that starts with a group without another one inside is reported behind it. -/
theorem exists_reported_of_flat {closing g : Glyph} (hopening : opening.char = '(')
    (hinner : ∀ x ∈ inner, x.char ≠ '(' ∧ x.char ≠ ')') (hclosing : closing.char = ')')
    (hg : g.char ≠ ')') : ∃ before g' after,
      nestAt 0 (opening :: inner ++ closing :: g :: rest) = before ++ g' :: after ∧
        IsFirst (Meets letter) before g' ∧
        Reported letter (nestAt 0 (opening :: inner ++ closing :: g :: rest)) before g' := by
  obtain ⟨own, next, hcons, hown⟩ : ∃ own next,
      nestAt 0 (g :: rest) = ⟨g, own⟩ :: nestAt next rest ∧
        (own = 0 ∨ own = 1 ∧ g.char = '(') := by
    by_cases hopen : g.char = '('
    · exact ⟨1, 1, nestAt_opening hopen 0 rest, .inr ⟨rfl, hopen⟩⟩
    · exact ⟨0, 0, nestAt_other hopen hg 0 rest, .inl rfl⟩
  rw [nestAt_group hopening hinner, nestAt_closing hclosing, Nat.sub_self, hcons]
  obtain ⟨hgroup, htail⟩ := passed_group letter hopening hinner
  have hstart : ¬StartsNested ((opening :: inner).map (fun x => ⟨x, 1⟩) ++
      ⟨closing, 1⟩ :: ⟨g, own⟩ :: nestAt next rest) :=
    not_startsNested_of_closing (by simpa using hinner) hclosing
  have hjoins : Joins letter ((opening :: inner).map (fun x => ⟨x, 1⟩) ++ [⟨closing, 1⟩])
      ⟨g, own⟩ := .behind rfl hclosing rfl
  have hfirst : IsFirst (Meets letter) _ _ := ⟨hjoins.meets, not_meets_of_append
    (List.forall_mem_append.mpr ⟨fun x hx => (hgroup x hx).1, by
      simpa using isStray_of_depth (g := ⟨closing, 1⟩) Nat.one_ne_zero⟩)
    (List.forall_mem_append.mpr ⟨htail, by simp [hclosing]⟩)
    (by rw [List.dropLast_concat]; exact fun x hx => (hgroup x hx).2)⟩
  exact ⟨_, ⟨g, own⟩, nestAt next rest, by simp, hfirst,
    .of_joint hstart (hfirst.of_meets hjoins) hown⟩

end Group

/-- A text that starts with a group is reported inside of it or behind it. -/
theorem exists_reported_of_opening (letter : Char) {opening : Glyph} {rest : List Glyph}
    (hopening : opening.char = '(') (hgs : Balanced ((opening :: rest).map Glyph.char))
    (hopen : ∀ w, Balanced w → (opening :: rest).map Glyph.char ≠ '(' :: w ++ [')']) :
    ∃ before g after, nestAt 0 (opening :: rest) = before ++ g :: after ∧
      IsFirst (Meets letter) before g ∧
      Reported letter (nestAt 0 (opening :: rest)) before g := by
  obtain ⟨v, r, hrest, -⟩ := hgs.exists_partner (l := []) (r := rest.map Glyph.char)
    (by rw [List.map_cons, hopening, List.nil_append])
  obtain ⟨closing, hclosing, hchar⟩ := List.mem_map.mp (hrest ▸ List.mem_append_cons_self)
  obtain ⟨inner, g, rest, rfl, hg, hinner⟩ := exists_first_bracket ⟨closing, hclosing, .inr hchar⟩
  rcases hg with hg | hg
  · exact exists_reported_of_nested hopening hinner hg
  · have hbalanced : Balanced (inner.map Glyph.char) := .of_forall (by simpa using hinner)
    cases rest with
    | nil => exact absurd (by simp [hopening, hg]) (hopen _ hbalanced)
    | cons g' rest =>
      refine exists_reported_of_flat hopening hinner hg fun hclose => ?_
      exact hgs.not_before_closing (r := rest.map Glyph.char) (by simp [hopening, hg, hclose])
        hbalanced.brackets

/-- A balanced text with brackets in it, but not around all of it, is reported at one place. -/
theorem exists_reported (letter : Char) {gs : List Glyph} (hgs : Balanced (gs.map Glyph.char))
    (hbracket : ∃ g ∈ gs, g.char = '(' ∨ g.char = ')')
    (hopen : ∀ w, Balanced w → gs.map Glyph.char ≠ '(' :: w ++ [')']) : ∃ before g after,
      nestAt 0 gs = before ++ g :: after ∧ IsFirst (Meets letter) before g ∧
        Reported letter (nestAt 0 gs) before g := by
  obtain ⟨plain, opening, rest, rfl, hopening, hplain⟩ := exists_first_bracket hbracket
  have hbalanced : Balanced (plain.map Glyph.char) := .of_forall (by simpa using hplain)
  have hopening : opening.char = '(' := by
    refine hopening.resolve_right fun hclose => ?_
    exact hgs.not_before_closing (r := rest.map Glyph.char) (by simp [hclose]) hbalanced
  by_cases hne : plain = []
  · subst hne
    exact exists_reported_of_opening letter hopening hgs hopen
  · exact exists_reported_of_plain hplain hne hopening

section Reading

variable {α : Type} [Scalar α] [HasNumerals α]

/-- No numeral has a bracket. -/
theorem numeralOf?_of_bracket {w : List Char} {c : Char} (hc : c ∈ w)
    (hbracket : c = '(' ∨ c = ')') : numeralOf? w = none := by
  refine Option.eq_none_iff_forall_ne_some.mpr fun n hn => ?_
  have hliteral : Literal 'x' w (.ofNumber (HasNumerals.ofNumeral n : Float)) := .of_numeralOf? hn
  have hplain := hliteral.isPlain (isLetter_of_isAlpha (by decide)) c hc
  exact hbracket.elim hplain.not_opening hplain.not_closing

/-- A text with brackets is no operand, and the fault is where the search for a joint stops. -/
theorem readOperand_of_bracket {first : NestedGlyph} {rest : List NestedGlyph}
    (hbracket : ∃ g ∈ first :: rest, g.char = '(' ∨ g.char = ')') (hrest : rest ≠ [])
    (hjoint : findJoint letter none (first :: rest) = some g) :
    (readOperand letter first rest : Except ParseError (Expr α)) =
      .error (.atPosition (.unexpectedCharacter g.char) g.position) := by
  obtain ⟨x, hx, hchar⟩ := hbracket
  have hnumeral : numeralOf? ((first :: rest).map fun g => g.char) = none :=
    numeralOf?_of_bracket (List.mem_map_of_mem hx) hchar
  have hany : (first :: rest).any (fun g => g.char = '(' || g.char = ')') = true :=
    List.any_eq_true.mpr ⟨x, hx, by simpa using hchar⟩
  have hmisplaced : findMisplaced letter first rest = g := by
    rw [findMisplaced]
    simp only [hany, if_true, hjoint, Option.getD_some]
  rw [readOperand, hnumeral, hmisplaced, List.isEmpty_eq_false_iff.mpr hrest]
  rfl

/-- A segment with brackets and without an operation is reported where the search for a joint
stops. -/
theorem parseSegment_of_isFirst {s : Segment} {ns : List NestedGlyph}
    (hnest : nest s.strip.glyphs = .ok ns) (hbracket : ∃ g ∈ ns, g.char = '(' ∨ g.char = ')')
    (hsplit : splitPoint ns = none) (hns : ns = before ++ g :: after)
    (hfirst : IsFirst (Meets letter) before g) :
    (parseSegment letter s : Except ParseError (Expr α)) =
      .error (.atPosition (.unexpectedCharacter g.char) g.position) := by
  have hjoint : findJoint letter none ns = some g := hns ▸ findJoint_of_isFirst hfirst
  have houtline : outline s.strip ns = .ok .operand := by rw [outline, hsplit]
  cases ns with
  | nil => cases hjoint
  | cons first rest =>
    rw [parseSegment_of_outline hnest houtline]
    refine readOperand_of_bracket hbracket ?_ hjoint
    rintro rfl
    obtain ⟨x, hx, hchar⟩ := hbracket
    cases List.mem_singleton.mp hx
    obtain ⟨hbalanced, -⟩ := nest_eq_ok_iff.mp hnest
    rw [← toGlyph_of_nest hnest, List.map_singleton, List.map_singleton, Balanced] at hbalanced
    rcases hchar with hchar | hchar <;> rw [hchar] at hbalanced <;> cases hbalanced

/-- A segment with balanced brackets, some of which do not enclose all of it, and without an
operation on its topmost level is reported at the first place where operands meet, at depth zero or
at the opening bracket of a group on the topmost level, unless it starts with a group that has
another one inside. Then it is reported at the inner opening bracket, where no operands meet. -/
theorem parseSegment_of_juxtaposed (letter : Char) {s : Segment} {ns : List NestedGlyph}
    (hnest : nest s.strip.glyphs = .ok ns) (hbracket : ∃ g ∈ ns, g.char = '(' ∨ g.char = ')')
    (hsplit : splitPoint ns = none) : ∃ before g after, ns = before ++ g :: after ∧
      (parseSegment letter s : Except ParseError (Expr α)) =
        .error (.atPosition (.unexpectedCharacter g.char) g.position) ∧
      Reported letter ns before g := by
  obtain ⟨hbalanced, hnestAt⟩ := nest_eq_ok_iff.mp hnest
  have hbracket' : ∃ g ∈ s.strip.glyphs, g.char = '(' ∨ g.char = ')' := by
    obtain ⟨g, hg, hchar⟩ := hbracket
    exact ⟨g.toGlyph, toGlyph_of_nest hnest ▸ List.mem_map_of_mem hg, hchar⟩
  have hopen (w : List Char) (hw : Balanced w) :
      s.strip.glyphs.map Glyph.char ≠ '(' :: w ++ [')'] := by
    intro htext
    obtain ⟨t, ht, -⟩ := exists_strip? hw htext
    rw [strip?_strip] at ht
    cases ht
  obtain ⟨before, g, after, hns, hfirst, hreported⟩ :=
    exists_reported letter hbalanced hbracket' hopen
  rw [hnestAt] at hns hreported
  exact ⟨before, g, after, hns, parseSegment_of_isFirst hnest hbracket hsplit hns hfirst, hreported⟩

/-- In `(x)(sin(x))` the operands meet behind a group without another one inside. -/
theorem parseSegment_of_juxtaposed_groups :
    let s : Segment := .ofSource ['(', 'x', ')', '(', 's', 'i', 'n', '(', 'x', ')', ')']
    ∃ ns, nest s.strip.glyphs = .ok ns ∧ (∃ g ∈ ns, g.char = '(' ∨ g.char = ')') ∧
      splitPoint ns = none ∧ ∃ before g after, ns = before ++ g :: after ∧
        (parseSegment 'x' s : Except ParseError (Expr Float)) =
          .error (.atPosition (.unexpectedCharacter g.char) g.position) ∧
        Reported 'x' ns before g := by
  intro s
  have hstrip : s.strip = s := strip_of_none rfl
  have hnest : nest s.strip.glyphs = .ok (nestAt 0 s.glyphs) := by rw [hstrip]; rfl
  have hbracket : ∃ g ∈ nestAt 0 s.glyphs, g.char = '(' ∨ g.char = ')' :=
    ⟨⟨⟨'(', 0⟩, 1⟩, by decide, .inl rfl⟩
  have hsplit : splitPoint (nestAt 0 s.glyphs) = none := rfl
  exact ⟨_, hnest, hbracket, hsplit, parseSegment_of_juxtaposed 'x' hnest hbracket hsplit⟩

/-- In `((x))(x)` the operands meet at the last opening bracket, and the second one is reported. -/
theorem not_reported_at_joint : ¬∀ (letter : Char) (s : Segment) (ns : List NestedGlyph),
    nest s.strip.glyphs = .ok ns → (∃ g ∈ ns, g.char = '(' ∨ g.char = ')') →
      splitPoint ns = none → ∃ before g after, ns = before ++ g :: after ∧
        (parseSegment letter s : Except ParseError (Expr Float)) =
          .error (.atPosition (.unexpectedCharacter g.char) g.position) ∧
        IsFirst (Joins letter) before g := by
  intro hall
  let s : Segment := .ofSource ['(', '(', 'x', ')', ')', '(', 'x', ')']
  have hstrip : s.strip = s := strip_of_none rfl
  have hnest : nest s.strip.glyphs = .ok (nestAt 0 s.glyphs) := by rw [hstrip]; rfl
  have hbracket : ∃ g ∈ nestAt 0 s.glyphs, g.char = '(' ∨ g.char = ')' :=
    ⟨⟨⟨'(', 0⟩, 1⟩, by decide, .inl rfl⟩
  obtain ⟨before, g, after, hns, hparse, hjoins, -⟩ := hall 'x' s _ hnest hbracket rfl
  have hfirst : IsFirst (Meets 'x') [⟨⟨'(', 0⟩, 1⟩] ⟨⟨'(', 1⟩, 2⟩ :=
    ⟨.opening (by simp) rfl, not_meets_of_append (by decide) nofun nofun⟩
  have hreported := parseSegment_of_isFirst (α := Float) hnest hbracket rfl rfl hfirst
  have hposition : g.position = 1 :=
    congrArg ParseError.offset (Except.error.inj (hparse.symm.trans hreported))
  have hpositions : ∀ x ∈ (nestAt 0 s.glyphs).drop 2, x.position ≠ 1 := by decide
  rcases before with _ | ⟨first, _ | ⟨second, before⟩⟩
  · obtain ⟨rfl, -⟩ := List.cons.inj hns
    cases hposition
  · obtain ⟨rfl, hrest⟩ := List.cons.inj hns
    obtain ⟨rfl, -⟩ := List.cons.inj hrest
    rcases hjoins with ⟨hdepth, -, -⟩ | ⟨-, -, hdepth⟩ | ⟨hbefore, hchar, -⟩
    · cases hdepth
    · cases hdepth
    · have hlast := congrArg List.getLast? hbefore
      rw [List.getLast?_concat] at hlast
      cases Option.some.inj hlast
      cases hchar
  · refine hpositions g ?_ hposition
    rw [hns]
    simp

end Reading

end Univariate
