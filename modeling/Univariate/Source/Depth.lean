import Univariate.Source.Fault
import Univariate.Source.Segment

/-!
# Bracket depths

Every character of a segment has a depth, the number of bracket pairs around it. A bracket counts as
part of what it encloses, so the characters of a bracketed group all lie deeper than those around
it: in `2*(x+1)^2` the depths are `0 0 1 1 1 1 1 0 0`.
-/

namespace Univariate

/-- A character that is read, with its bracket depth. -/
structure NestedGlyph extends Glyph where
  /-- The number of bracket pairs around the character, its own included if it is a bracket. -/
  depth : Nat
  deriving DecidableEq, Repr

/-- The characters with their depths, when the brackets at the positions `opened` are open, the
innermost first. A closing bracket without a partner is reported where it stands, and otherwise the
last opening bracket without one. -/
def nestFrom (opened : List Nat) : List Glyph → Except ParseError (List NestedGlyph)
  | [] =>
    match opened with
    | [] => .ok []
    | position :: _ => .error (.atPosition (.unbalancedBracket true) position)
  | g :: gs =>
    if g.char = '(' then
      (nestFrom (g.position :: opened) gs).map (⟨g, opened.length + 1⟩ :: ·)
    else if g.char = ')' then
      match opened with
      | [] => .error (.atPosition (.unbalancedBracket false) g.position)
      | _ :: outer => (nestFrom outer gs).map (⟨g, opened.length⟩ :: ·)
    else (nestFrom opened gs).map (⟨g, opened.length⟩ :: ·)

/-- The characters with their depths, if every bracket has a partner. -/
def nest (gs : List Glyph) : Except ParseError (List NestedGlyph) := nestFrom [] gs

/-- A function of a result succeeds only if there is a result. -/
theorem map_eq_ok {ε α β : Type} {f : α → β} {x : Except ε α} {b : β} (h : x.map f = .ok b) :
    ∃ a, x = .ok a ∧ f a = b := by
  cases x with
  | error e => simp [Except.map] at h
  | ok a => exact ⟨a, rfl, Except.ok.inj h⟩

/-- Without their depths, the nested characters are the characters. -/
theorem toGlyph_of_nestFrom {opened : List Nat} {gs : List Glyph} {ns : List NestedGlyph}
    (h : nestFrom opened gs = .ok ns) : ns.map NestedGlyph.toGlyph = gs := by
  induction gs generalizing opened ns with
  | nil =>
    cases opened with
    | nil => cases h; rfl
    | cons position outer => cases h
  | cons g gs ih =>
    unfold nestFrom at h
    split at h
    · obtain ⟨rest, hrest, rfl⟩ := map_eq_ok h
      simp [ih hrest]
    · split at h
      · split at h
        · cases h
        · obtain ⟨rest, hrest, rfl⟩ := map_eq_ok h
          simp [ih hrest]
      · obtain ⟨rest, hrest, rfl⟩ := map_eq_ok h
        simp [ih hrest]

/-- Measuring depths changes no character. -/
theorem toGlyph_of_nest {gs : List Glyph} {ns : List NestedGlyph} (h : nest gs = .ok ns) :
    ns.map NestedGlyph.toGlyph = gs := toGlyph_of_nestFrom h

end Univariate
