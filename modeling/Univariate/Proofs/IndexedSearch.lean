import Univariate.Proofs.OutlineParts
import Univariate.Source.Indexed

/-!
# Searching by index

The searches for a mark and for the character at which a text is no operand find the index of the
character that the search through the text itself finds. Whichever index is looked up then stands in
the lists.
-/

namespace Univariate

namespace Indexed

section Searches

variable {ns before middle later : List NestedGlyph}

/-- A search by index stops where the list is divided at the first element with the property. -/
theorem findIndex?_eq_cutAt {p : Nat → Option Bool} {q : NestedGlyph → Bool}
    (hp : ∀ {i g}, ns[i]? = some g → p i = some (q g)) (hns : ns = before ++ middle ++ later)
    {start stop : Nat} (hstart : start = before.length) (hstop : stop = start + middle.length) :
    findIndex? p start stop = some ((cutAt q middle).map fun cut => start + cut.1.length) := by
  subst hstart hstop
  rw [findIndex?, Nat.add_sub_cancel_left]
  induction middle generalizing before with
  | nil => rfl
  | cons g middle ih =>
    have hg : p before.length = some (q g) := hp (by simp [hns])
    have hlater := @ih (before ++ [g]) (by simp [hns])
    rw [List.length_append, List.length_singleton] at hlater
    rw [List.length_cons, List.range'_succ, List.findM?, hg, cutAt]
    dsimp only [Option.bind_eq_bind, Option.bind_some]
    cases q g with
    | true => rfl
    | false =>
      rw [hlater]
      cases cutAt q middle with
      | none => rfl
      | some cut => simp; omega

/-- The character between two lists stands at the length of the first. -/
theorem getElem?_of_eq {l r : List NestedGlyph} {g : NestedGlyph} {i : Nat}
    (h : ns = l ++ g :: r) (hi : i = l.length) : ns[i]? = some g := by
  simp [h, hi]

/-- The characters without their depths stand at the same indices. -/
theorem toGlyph_getElem? {i : Nat} {g : NestedGlyph} (h : ns[i]? = some g) :
    (ns.map NestedGlyph.toGlyph)[i]? = some g.toGlyph := by
  rw [List.getElem?_map, h]
  rfl

/-- The depths stand at the indices of their characters. -/
theorem depth_getElem? {i : Nat} {g : NestedGlyph} (h : ns[i]? = some g) :
    (ns.map NestedGlyph.depth)[i]? = some g.depth := by
  rw [List.getElem?_map, h]
  rfl

/-- The test for a mark by index is the test of the character at the index. -/
theorem standsAt_eq (mark : Char) (level : Nat) {i : Nat} {g : NestedGlyph} (h : ns[i]? = some g) :
    standsAt (ns.map NestedGlyph.toGlyph) (ns.map NestedGlyph.depth) mark level i =
      some (g.char = mark && g.depth = level) := by
  rw [standsAt, toGlyph_getElem? h, depth_getElem? h]
  rfl

/-- The test for a point by index is the test of the character at the index. -/
theorem isPointAt_eq {i : Nat} {g : NestedGlyph} (h : ns[i]? = some g) :
    isPointAt (ns.map NestedGlyph.toGlyph) i = some (decide (g.char = '.')) := by
  rw [isPointAt, toGlyph_getElem? h]
  rfl

/-- The index that a search finds is that of the character that it is compared with. -/
def Locates (ns : List NestedGlyph) (i? : Option Nat) (g? : Option NestedGlyph) : Prop :=
  i?.map (fun i => ns[i]?) = g?.map some

/-- The index that is found, or the first one, is that of the character that is found, or the first.
-/
theorem Locates.getElem?_getD {first : NestedGlyph} {rest : List NestedGlyph} {i? : Option Nat}
    {g? : Option NestedGlyph} (h : Locates (first :: rest) i? g?) :
    (first :: rest)[i?.getD 0]? = some (g?.getD first) := by
  cases i? with
  | none =>
    cases g? with
    | none => rfl
    | some g => cases h
  | some i =>
    cases g? with
    | none => cases h
    | some g => exact Option.some.inj h

/-- The index of the first character with a property is that of the character. -/
theorem locates_find? (ns : List NestedGlyph) (p : NestedGlyph → Bool) :
    Locates ns (ns.findIdx? p) (ns.find? p) := by
  rw [List.find?_eq_bind_findIdx?_getElem?]
  cases hindex : ns.findIdx? p with
  | none => rfl
  | some i =>
    obtain ⟨hlt, -, -⟩ := List.findIdx?_eq_some_iff_getElem.mp hindex
    rw [Locates, Option.bind_some, Option.map_some, List.getElem?_eq_getElem hlt, Option.map_some]

/-- Alternatives of searches that locate their characters do so. -/
theorem Locates.or {i? j? : Option Nat} {g? h? : Option NestedGlyph} (hi : Locates ns i? g?)
    (hj : Locates ns j? h?) : Locates ns (i?.or j?) (g?.or h?) := by
  cases i? with
  | none =>
    cases g? with
    | none => exact hj
    | some g => cases hi
  | some i =>
    cases g? with
    | none => cases hi
    | some g => exact hi

/-- The elements with a property are the first one and those behind it. -/
theorem filter_of_cutAt {β : Type} {p : β → Bool} {xs l r : List β} {x : β}
    (h : cutAt p xs = some (l, x, r)) : xs.filter p = x :: r.filter p := by
  induction xs generalizing l with
  | nil => cases h
  | cons y xs ih =>
    unfold cutAt at h
    split at h
    · next hy =>
      cases h
      exact List.filter_cons_of_pos hy
    · next hy =>
      obtain ⟨⟨l', x', r'⟩, hcut, heq⟩ := Option.map_eq_some_iff.mp h
      cases heq
      rw [List.filter_cons_of_neg hy, ih hcut]

/-- A text that is not cut has no element with the property. -/
theorem filter_of_cutAt_eq_none {β : Type} {p : β → Bool} {xs : List β} (h : cutAt p xs = none) :
    xs.filter p = [] := by
  induction xs with
  | nil => rfl
  | cons y xs ih =>
    unfold cutAt at h
    split at h
    · cases h
    · next hy => rw [List.filter_cons_of_neg hy, ih (Option.map_eq_none_iff.mp h)]

/-- Two searches find the second point of a text. -/
theorem findPoint_eq (ns : List NestedGlyph) : ∃ i?,
    findPoint (ns.map NestedGlyph.toGlyph) = some i? ∧ Locates ns i? (Univariate.findPoint ns) := by
  let q (g : NestedGlyph) : Bool := g.char = '.'
  have hsearch {before middle : List NestedGlyph} (hns : ns = before ++ middle) :
      findIndex? (isPointAt (ns.map NestedGlyph.toGlyph)) before.length
        (ns.map NestedGlyph.toGlyph).length =
          some ((cutAt q middle).map fun cut => before.length + cut.1.length) := by
    refine findIndex?_eq_cutAt isPointAt_eq (hns.trans (List.append_nil _).symm) rfl ?_
    rw [List.length_map, hns, List.length_append]
  have hfirst := hsearch (List.nil_append ns).symm
  rw [List.length_nil] at hfirst
  rw [findPoint, hfirst, Univariate.findPoint]
  dsimp only [Option.bind_eq_bind, Option.bind_some]
  cases hcut : cutAt q ns with
  | none =>
    rw [filter_of_cutAt_eq_none hcut]
    exact ⟨none, rfl, rfl⟩
  | some cut =>
    obtain ⟨l, first, r⟩ := cut
    have hns := append_of_cutAt hcut
    have hsecond := @hsearch (l ++ [first]) r (by simp [hns])
    rw [List.length_append, List.length_singleton] at hsecond
    dsimp only [Option.map_some]
    rw [Nat.zero_add, hsecond, filter_of_cutAt hcut]
    cases hcut' : cutAt q r with
    | none =>
      rw [filter_of_cutAt_eq_none hcut']
      exact ⟨some l.length, rfl, congrArg some (getElem?_of_eq hns rfl)⟩
    | some cut' =>
      obtain ⟨l', second, r'⟩ := cut'
      rw [filter_of_cutAt hcut']
      refine ⟨some (l.length + 1 + l'.length), rfl, congrArg some ?_⟩
      have hns' : ns = (l ++ first :: l') ++ second :: r' := by
        rw [hns, append_of_cutAt hcut']
        simp
      refine getElem?_of_eq hns' ?_
      rw [List.length_append, List.length_cons]
      omega

/-- The first of two indices is the earlier if the second is not before it. -/
theorem earlier_left {i : Nat} {j? : Option Nat} (h : ∀ j, j? = some j → i ≤ j) :
    earlier (some i) j? = some i := by
  cases j? with
  | none => rfl
  | some j => exact congrArg some (Nat.min_eq_left (h j rfl))

/-- The second of two indices is the earlier if the first is not before it. -/
theorem earlier_right {i? : Option Nat} {j : Nat} (h : ∀ i, i? = some i → j ≤ i) :
    earlier i? (some j) = some j := by
  cases i? with
  | none => rfl
  | some i => exact congrArg some (Nat.min_eq_right (h i rfl))

/-- Whether a character is a letter outside of all brackets that is not the variable. -/
def isStray (letter : Char) (g : NestedGlyph) : Bool :=
  g.depth = 0 && isLetter g.char && g.char != letter

/-- The search for a joint behind a character tests one character after the other. -/
theorem findJoint_cons (letter previous : Char) (g : NestedGlyph) (rest : List NestedGlyph) :
    Univariate.findJoint letter (some previous) (g :: rest) =
      if isStray letter g then some g
      else if g.char = '(' || previous = ')' then some g
      else Univariate.findJoint letter (some g.char) rest := by
  rw [Univariate.findJoint, Option.isSome_some, Bool.true_and]
  simp only [Option.some.injEq]
  rfl

/-- Behind the first character, the two searches for a joint find the earlier of what they look
for. -/
theorem locates_findJoint (letter : Char) {previous : NestedGlyph} {rest : List NestedGlyph}
    (hns : ns = before ++ previous :: rest) : ∃ boundary?,
      findIndex? (joinsAt (ns.map NestedGlyph.toGlyph)) (before.length + 1)
          (before.length + 1 + rest.length) = some boundary? ∧
        (∀ i, boundary? = some i → before.length + 1 ≤ i) ∧
        Locates ns
          (earlier ((rest.findIdx? (isStray letter)).map (before.length + 1 + ·)) boundary?)
          (Univariate.findJoint letter (some previous.char) rest) := by
  -- of the two searches the one that finds the next character is ahead; otherwise both go on
  induction rest generalizing before previous with
  | nil =>
    refine ⟨none, ?_, nofun, rfl⟩
    rw [List.length_nil, Nat.add_zero, findIndex?, Nat.sub_self]
    rfl
  | cons g rest ih =>
    have hlength : (before ++ [previous]).length = before.length + 1 := by simp
    have hns' : ns = (before ++ [previous]) ++ g :: rest := by simp [hns]
    have hg : ns[before.length + 1]? = some g := getElem?_of_eq hns' hlength.symm
    obtain ⟨later?, hlater, hle, hlocates⟩ := ih hns'
    rw [hlength] at hlater hle hlocates
    have hjoins : joinsAt (ns.map NestedGlyph.toGlyph) (before.length + 1) =
        some (g.char = '(' || previous.char = ')') := by
      rw [joinsAt, toGlyph_getElem? hg, Nat.add_sub_cancel,
        toGlyph_getElem? (getElem?_of_eq hns rfl)]
      rfl
    have hstep : findIndex? (joinsAt (ns.map NestedGlyph.toGlyph)) (before.length + 1)
        (before.length + 1 + (g :: rest).length) =
          some (if g.char = '(' || previous.char = ')' then some (before.length + 1)
            else later?) := by
      rw [findIndex?, Nat.add_sub_cancel_left] at hlater
      rw [findIndex?, Nat.add_sub_cancel_left, List.length_cons, List.range'_succ, List.findM?,
        hjoins]
      dsimp only [Option.bind_eq_bind, Option.bind_some]
      cases g.char = '(' || previous.char = ')' with
      | true => rfl
      | false => exact hlater
    have hbound : ∀ i, (if g.char = '(' || previous.char = ')' then some (before.length + 1)
        else later?) = some i → before.length + 1 ≤ i := by
      intro i hi
      split at hi
      · exact Nat.le_of_eq (Option.some.inj hi)
      · exact Nat.le_of_succ_le (hle i hi)
    refine ⟨_, hstep, hbound, ?_⟩
    rw [List.findIdx?_cons, findJoint_cons]
    cases hstray : isStray letter g with
    | true =>
      rw [if_pos rfl, if_pos rfl, Option.map_some, Nat.add_zero, earlier_left hbound]
      exact congrArg some hg
    | false =>
      have hshift : (((rest.findIdx? (isStray letter)).map (· + 1)).map (before.length + 1 + ·)) =
          (rest.findIdx? (isStray letter)).map (before.length + 1 + 1 + ·) := by
        rw [Option.map_map]
        exact Option.map_congr fun i _ => by simp; omega
      rw [if_neg Bool.false_ne_true, if_neg Bool.false_ne_true, hshift]
      cases g.char = '(' || previous.char = ')' with
      | true =>
        rw [if_pos rfl, if_pos rfl, earlier_right]
        · exact congrArg some hg
        · intro i hi
          obtain ⟨k, -, rfl⟩ := Option.map_eq_some_iff.mp hi
          omega
      | false =>
        rw [if_neg Bool.false_ne_true, if_neg Bool.false_ne_true]
        exact hlocates

/-- The search for a joint by index succeeds, and locates the joint. -/
theorem findJoint_eq (letter : Char) (first : NestedGlyph) (rest : List NestedGlyph) : ∃ i?,
    findJoint letter ((first :: rest).map NestedGlyph.toGlyph)
        ((first :: rest).map NestedGlyph.depth) = some i? ∧
      Locates (first :: rest) i? (Univariate.findJoint letter none (first :: rest)) := by
  have hnone : Univariate.findJoint letter none (first :: rest) =
      if isStray letter first then some first
      else Univariate.findJoint letter (some first.char) rest := rfl
  have hstray : (((first :: rest).map NestedGlyph.toGlyph).zip
      ((first :: rest).map NestedGlyph.depth)).findIdx? (fun place =>
        place.2 = 0 && isLetter place.1.char && place.1.char != letter) =
          (first :: rest).findIdx? (isStray letter) := by
    rw [List.zip_map', List.findIdx?_map]
    rfl
  have hlength : ((first :: rest).map NestedGlyph.toGlyph).length = 1 + rest.length := by
    rw [List.length_map, List.length_cons, Nat.add_comm]
  obtain ⟨boundary?, hboundary, -, hlocates⟩ :=
    @locates_findJoint _ [] letter first rest (List.nil_append _).symm
  rw [List.length_nil, Nat.zero_add] at hboundary hlocates
  rw [findJoint, hstray, hlength, hboundary, hnone, List.findIdx?_cons]
  refine ⟨_, rfl, ?_⟩
  cases isStray letter first with
  | true =>
    rw [if_pos rfl, if_pos rfl, earlier_left fun i _ => Nat.zero_le i]
    rfl
  | false =>
    rw [if_neg Bool.false_ne_true, if_neg Bool.false_ne_true]
    simpa only [Nat.add_comm] using hlocates

/-- The character at which a text is no operand stands in it. -/
theorem findMisplaced_eq (letter : Char) (first : NestedGlyph) (rest : List NestedGlyph)
    (hvariable : rest = [] → first.char ≠ letter) : ∃ i?,
      findMisplaced letter ((first :: rest).map NestedGlyph.toGlyph)
          ((first :: rest).map NestedGlyph.depth) = some i? ∧
        (first :: rest)[i?.getD 0]? = some (Univariate.findMisplaced letter first rest) := by
  have hbrackets : ((first :: rest).map NestedGlyph.toGlyph).any
      (fun g => g.char = '(' || g.char = ')') =
        (first :: rest).any fun g => g.char = '(' || g.char = ')' := List.any_map
  have hnumeric : ((first :: rest).map NestedGlyph.toGlyph).findIdx? (fun g => !isNumeric g.char) =
      (first :: rest).findIdx? fun g => !isNumeric g.char := List.findIdx?_map
  rw [findMisplaced, Univariate.findMisplaced, hbrackets]
  split
  · obtain ⟨i?, hfound, hlocates⟩ := findJoint_eq letter first rest
    exact ⟨i?, hfound, hlocates.getElem?_getD⟩
  · have hfirst : ((first :: rest).map NestedGlyph.toGlyph)[0]? = some first.toGlyph := rfl
    rw [hfirst, hnumeric]
    dsimp only [Option.bind_eq_bind, Option.bind_some]
    split
    · next hchar =>
      cases rest with
      | nil => exact absurd hchar (hvariable rfl)
      | cons second rest => exact ⟨some 1, rfl, rfl⟩
    · obtain ⟨i?, hpoint, hlocates⟩ := findPoint_eq (first :: rest)
      rw [hpoint]
      exact ⟨_, rfl, ((locates_find? _ _).or hlocates).getElem?_getD⟩

end Searches

end Indexed

end Univariate
