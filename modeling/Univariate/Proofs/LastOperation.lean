import Univariate.Proofs.BracketFaults
import Univariate.Proofs.IndexedSplit

/-!
# Where a text is divided

The operations on the topmost level of a text end at the positions at depth zero that hold an
operator or the last letter of a keyword. The search for the operation that is applied last meets
all of them, in the order of their positions, so that it finds one exactly if there is any, and then
the last one of those that bind loosest. In a text with paired brackets the operands that it leaves
have paired brackets again.
-/

namespace Univariate

/-- An operator stands right before a position of a text, so that a minus there is a sign. -/
def FollowsOperator (ns : List NestedGlyph) (i : Nat) : Prop :=
  ∃ j previous, i = j + 1 ∧ ns[j]? = some previous ∧ isOperatorSymbol previous.char = true

/-- An operation ends at a position of a text on its topmost level: an operator that is no sign
stands there, or the last letter of a keyword. -/
inductive EndsAt (ns : List NestedGlyph) (i : Nat) : Operation → Prop
  | operator {g : NestedGlyph} {op : BinaryOp} (hg : ns[i]? = some g) (hdepth : g.depth = 0)
      (hop : op.isOperator = true) (hsymbol : op.symbol = [g.char])
      (hsign : ¬(g.char = '-' ∧ FollowsOperator ns i)) : EndsAt ns i (.binary op)
  | keyword {g : NestedGlyph} {op : Operation} (hg : ns[i]? = some g) (hdepth : g.depth = 0)
      (hop : op.isKeyword = true) (hsymbol : op.symbol <:+ nestedText (ns.take (i + 1))) :
      EndsAt ns i op

/-- An operation ends at a character at depth zero. -/
theorem EndsAt.exists_glyph {ns : List NestedGlyph} {i : Nat} {op : Operation}
    (h : EndsAt ns i op) : ∃ g, ns[i]? = some g ∧ g.depth = 0 := by
  cases h with
  | operator hg hdepth => exact ⟨_, hg, hdepth⟩
  | keyword hg hdepth => exact ⟨_, hg, hdepth⟩

/-- The position of the last character of the symbol. -/
def Split.last (s : Split) : Nat := s.start + s.op.symbol.length - 1

variable {gs : List Glyph} {ns ls rs : List NestedGlyph} {g : NestedGlyph} {op : Operation}
  {s : Split} {i : Nat} {before : List Char}

/-- A position follows an operator exactly if the text before it ends with one. -/
theorem followsOperator_iff (ls rs : List NestedGlyph) :
    FollowsOperator (ls ++ rs) ls.length ↔ endsWithOperator (readAfter [] ls) = true := by
  rcases List.eq_nil_or_concat ls with rfl | ⟨earlier, last, rfl⟩
  · constructor
    · rintro ⟨j, previous, hlength, -, -⟩
      cases hlength
    · intro h
      cases h
  · rw [List.concat_eq_append, FollowsOperator, List.length_append, List.length_singleton]
    simp [readAfter, endsWithOperator]

/-- What ends a text is an operator that is no sign, or a keyword. -/
theorem operationEnding?_eq_some_iff {c : Char} :
    operationEnding? (c :: before) = some op ↔
      (∃ b, op = .binary b ∧ BinaryOp.ofOperator? c = some b ∧
        ¬(c = '-' ∧ endsWithOperator before = true)) ∨
      (op.isKeyword = true ∧ op.symbol.reverse <+: c :: before) := by
  constructor
  · intro h
    cases hop : BinaryOp.ofOperator? c with
    | some b =>
      have hsign : ¬(c = '-' ∧ endsWithOperator before = true) := by
        rintro ⟨rfl, hends⟩
        rw [operationEnding?_sign hends] at h
        cases h
      rw [operationEnding?_operator hop fun hc => by simpa [hc] using hsign] at h
      exact .inl ⟨b, (Option.some.inj h).symm, rfl, hsign⟩
    | none =>
      rw [operationEnding?_keyword (by simp [isOperatorSymbol, hop])] at h
      exact .inr (Indexed.keywordEnding?_eq_some_iff.mp h)
  · rintro (⟨b, rfl, hop, hsign⟩ | ⟨hop, rest, hrest⟩)
    · exact operationEnding?_operator hop fun hc => by simpa [hc] using hsign
    · have hplain := isPlain_of_mem_symbol hop c (mem_symbol_of_reverse_append hrest)
      rw [operationEnding?_keyword hplain.not_operator]
      exact Indexed.keywordEnding?_eq_some_iff.mpr ⟨hop, rest, hrest⟩

/-- The operation that ends at a position ends the text up to it. -/
theorem endsAt_iff : EndsAt (ls ++ g :: rs) ls.length op ↔
    g.depth = 0 ∧ operationEnding? (g.char :: readAfter [] ls) = some op := by
  have hg : (ls ++ g :: rs)[ls.length]? = some g := by simp
  have hread : (nestedText ((ls ++ g :: rs).take (ls.length + 1))).reverse =
      g.char :: readAfter [] ls := by
    rw [List.append_cons, List.take_left' (by simp), readAfter_eq]
    simp
  rw [operationEnding?_eq_some_iff, ← followsOperator_iff ls (g :: rs), ← hread,
    List.reverse_prefix]
  constructor
  · rintro (⟨hg', hdepth, hop, hsymbol, hsign⟩ | ⟨hg', hdepth, hop, hsymbol⟩) <;>
      obtain rfl := Option.some.inj (hg.symm.trans hg')
    · exact ⟨hdepth, .inl ⟨_, rfl, Operation.ofOperator?_eq_some_iff.mpr ⟨hop, hsymbol⟩, hsign⟩⟩
    · exact ⟨hdepth, .inr ⟨hop, hsymbol⟩⟩
  · rintro ⟨hdepth, ⟨b, rfl, hop, hsign⟩ | ⟨hop, hsymbol⟩⟩
    · obtain ⟨hoperator, hsymbol⟩ := Operation.ofOperator?_eq_some_iff.mp hop
      exact .operator hg hdepth hoperator hsymbol hsign
    · exact .keyword hg hdepth hop hsymbol

/-- The symbol of an operation that ends a text ends at the last character of the text. -/
theorem Split.last_eq {c : Char} (hending : operationEnding? (c :: before) = some s.op)
    (hstart : s.start = before.length + 1 - s.op.symbol.length) : s.last = before.length := by
  obtain ⟨rest, hrest, -⟩ := symbol_of_operationEnding? hending
  have hlength := congrArg List.length hrest
  have hpos := List.length_pos_iff.mpr (symbol_ne_nil s.op)
  rw [List.length_append, List.length_reverse, List.length_cons] at hlength
  rw [Split.last]
  omega

/-- An operation that is met ends at a position of the text. -/
theorem endsAt_of_mem (h : s ∈ operationsAfter [] ns) : EndsAt ns s.last s.op := by
  obtain ⟨xs, ys, hops⟩ := List.append_of_mem h
  obtain ⟨ls, g, rs, rfl, hdepth, -, -, hending, hstart⟩ := exists_of_operationsAfter hops
  rw [s.last_eq hending hstart, length_readAfter, List.length_nil, Nat.add_zero]
  exact endsAt_iff.mpr ⟨hdepth, hending⟩

/-- An operation that ends at a position of the text is met. -/
theorem EndsAt.exists_mem (h : EndsAt ns i op) :
    ∃ s ∈ operationsAfter [] ns, s.op = op ∧ s.last = i := by
  obtain ⟨g, hg, -⟩ := h.exists_glyph
  obtain ⟨ls, rs, rfl, rfl⟩ := exists_append_of_getElem? hg
  obtain ⟨hdepth, hending⟩ := endsAt_iff.mp h
  let met : Split := ⟨op, (readAfter [] ls).length + 1 - op.symbol.length⟩
  have hmem : met ∈ operationsAfter [] (ls ++ g :: rs) := by
    rw [operationsAfter_append, operationsAfter, if_pos hdepth, hending]
    exact List.mem_append_cons_self
  exact ⟨met, hmem, rfl, by rw [met.last_eq hending rfl, length_readAfter, List.length_nil]; rfl⟩

/-- The search finds an operation exactly if one ends at some position. -/
theorem isSome_splitPoint_iff : (splitPoint ns).isSome = true ↔ ∃ i op, EndsAt ns i op := by
  rw [Option.isSome_iff_ne_none, splitPoint, ne_eq, loosest_eq_none_iff]
  constructor
  · intro hne
    obtain ⟨s, hs⟩ := List.exists_mem_of_ne_nil _ hne
    exact ⟨s.last, s.op, endsAt_of_mem hs⟩
  · rintro ⟨i, op, h⟩
    obtain ⟨s, hs, -⟩ := h.exists_mem
    exact List.ne_nil_of_mem hs

/-- No operation of the text binds looser than the one that is found, and those behind it bind
tighter. -/
theorem level_of_splitPoint (h : splitPoint ns = some s) (hi : EndsAt ns i op) :
    op.precedence.level ≤ s.level ∧ (s.last < i → op.precedence.level < s.level) := by
  obtain ⟨xs, ys, hops, hxs, hys⟩ := exists_of_loosest h
  obtain ⟨ls, g, rs, rfl, -, hbefore, -, hending, hstart⟩ := exists_of_operationsAfter hops
  have hlast := s.last_eq hending hstart
  rw [length_readAfter, List.length_nil, Nat.add_zero] at hlast
  obtain ⟨t, ht, rfl, rfl⟩ := hi.exists_mem
  rw [hops] at ht
  rcases List.mem_append.mp ht with htxs | ht
  · -- the operations met before `s` end in the text before the last character of its symbol
    obtain ⟨x, hx, -⟩ := (endsAt_of_mem (hbefore ▸ htxs)).exists_glyph
    obtain ⟨hearlier, -⟩ := List.getElem?_eq_some_iff.mp hx
    exact ⟨hxs t htxs, fun hlt => by omega⟩
  · rcases List.mem_cons.mp ht with rfl | htys
    · exact ⟨Nat.le_refl _, fun hlt => absurd hlt (Nat.lt_irrefl _)⟩
    · exact ⟨Nat.le_of_lt (hys t htys), fun _ => hys t htys⟩

/-- The texts on both sides of a character at depth zero have paired brackets. -/
theorem paired_sides (hgs : Balanced (gs.map Glyph.char)) (hi : (nestAt 0 gs)[i]? = some g)
    (hdepth : g.depth = 0) : Paired (nestedText ((nestAt 0 gs).take i)) ∧
      Paired (nestedText ((nestAt 0 gs).drop (i + 1))) := by
  obtain ⟨ls, rs, hns, rfl⟩ := exists_append_of_getElem? hi
  obtain ⟨hls, hrs⟩ := balanced_of_nestAt_eq (j := 0) hgs hns hdepth
  rw [hns, List.take_left, List.append_cons, List.drop_left' (by simp)]
  exact ⟨paired_iff_balanced.mpr hls, paired_iff_balanced.mpr hrs⟩

/-- An operation without a keyword ends where it starts. -/
theorem Split.last_eq_start (h : s.op.isKeyword = false) : s.last = s.start := by
  obtain ⟨op, start⟩ := s
  have hlength : op.symbol.length = 1 := by
    rcases op with op | op
    · cases h
    · cases op with
      | logarithm | root => cases h
      | _ => rfl
  rw [Split.last, hlength, Nat.add_sub_cancel]

/-- A text is divided at the operation that is applied last. None of its operations on the topmost
level binds looser, and none behind it binds as loosely. An operator leaves texts with paired
brackets on both sides, and the arguments of a keyword, which reach up to the first closing bracket
on the level of the opening one behind the keyword, have paired brackets. -/
structure IsAppliedLast (ns : List NestedGlyph) (s : Split) : Prop where
  endsAt : EndsAt ns s.last s.op
  not_looser : ∀ i op, EndsAt ns i op → op.precedence.looserThan s.op.precedence = false
  rightmost : ∀ i op, EndsAt ns i op → op.precedence = s.op.precedence → i ≤ s.last
  operands : s.op.isKeyword = false →
    Paired (nestedText (ns.take s.start)) ∧ Paired (nestedText (ns.drop (s.start + 1)))
  arguments : s.op.isKeyword = true → ∀ opening rest, ns.drop (s.last + 1) = opening :: rest →
    opening.char = '(' → ∃ arguments closing after,
      cutAt (fun g => g.char = ')' && g.depth = opening.depth) rest =
        some (arguments, closing, after) ∧ Paired (nestedText arguments)

/-- In a text with paired brackets the search for the operation that is applied last, which can be
made by index from the right to the left, finds one exactly if some operation ends at depth zero,
and then the last one of those that bind loosest. -/
theorem splitPoint_isAppliedLast {gs : List Glyph} (hgs : Paired (gs.map Glyph.char)) :
    ∃ ns, nest gs = .ok ns ∧
      Indexed.findSplit gs (ns.map NestedGlyph.depth) = some (splitPoint ns) ∧
      ((splitPoint ns).isSome = true ↔ ∃ i op, EndsAt ns i op) ∧
      ∀ s, splitPoint ns = some s → IsAppliedLast ns s := by
  have hbalanced := paired_iff_balanced.mp hgs
  have hsearch := Indexed.findSplit_eq (nestAt 0 gs)
  rw [toGlyph_nestAt] at hsearch
  refine ⟨nestAt 0 gs, nest_eq_ok_iff.mpr ⟨hbalanced, rfl⟩, hsearch, isSome_splitPoint_iff,
    fun s hs => ?_⟩
  obtain ⟨xs, ys, hops, -, -⟩ := exists_of_loosest hs
  have hends : EndsAt (nestAt 0 gs) s.last s.op :=
    endsAt_of_mem (by rw [hops]; exact List.mem_append_cons_self)
  constructor
  case endsAt => exact hends
  case not_looser =>
    exact fun i op hi => decide_eq_false (Nat.not_lt.mpr (level_of_splitPoint hs hi).1)
  case rightmost =>
    intro i op hi hop
    refine Nat.not_lt.mp fun hlt => Nat.ne_of_lt ((level_of_splitPoint hs hi).2 hlt) ?_
    rw [hop, Split.level]
  case operands =>
    intro hkeyword
    obtain ⟨g, hg, hdepth⟩ := hends.exists_glyph
    rw [← s.last_eq_start hkeyword]
    exact paired_sides hbalanced hg hdepth
  case arguments =>
    intro _ opening rest hdrop hopening
    have hns : nestAt 0 gs = (nestAt 0 gs).take (s.last + 1) ++ opening :: rest := by
      rw [← hdrop, List.take_append_drop]
    obtain ⟨inner, closing, after, hcut, hinner⟩ := exists_cutAt_closing hbalanced hns hopening
    exact ⟨_, closing, after, hcut, paired_iff_balanced.mpr (by rwa [nestedText_nestAt])⟩

/-- In `x-sin(x-1)-2*-x` the last minus that is no sign is applied last. -/
theorem splitPoint_isAppliedLast_signs :
    let gs := glyphsFrom 0
      ['x', '-', 's', 'i', 'n', '(', 'x', '-', '1', ')', '-', '2', '*', '-', 'x']
    Paired (gs.map Glyph.char) ∧ ∃ ns, nest gs = .ok ns ∧
      Indexed.findSplit gs (ns.map NestedGlyph.depth) = some (some ⟨.binary .subtraction, 10⟩) ∧
      IsAppliedLast ns ⟨.binary .subtraction, 10⟩ := by
  intro gs
  have hgs : Paired (gs.map Glyph.char) := paired_iff_balanced.mpr rfl
  obtain ⟨ns, hnest, hsearch, -, hlast⟩ := splitPoint_isAppliedLast hgs
  have hsplit : splitPoint ns = some ⟨.binary .subtraction, 10⟩ := by
    rw [← (nest_eq_ok_iff.mp hnest).2]
    decide
  exact ⟨hgs, ns, hnest, by rw [hsearch, hsplit], hlast _ hsplit⟩

end Univariate
