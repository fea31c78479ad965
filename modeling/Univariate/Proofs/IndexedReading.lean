import Univariate.Proofs.IndexedSplit
import Univariate.Proofs.Relocation

/-!
# Reading by index

Reading by index always has a result, and it is the one of reading. Whatever a text looks like, an
index that is looked up stands in its list because a search has found it there or a comparison has
shown that the list goes on, and every part that is cut out of the text lies in it and is shorter.
-/

namespace Univariate

namespace Indexed

/-- A result that reading by index comes to with all its accesses. -/
def done {β : Type} (x : Except ParseError β) : Checked β := ExceptT.mk (some x)

/-- An access that succeeds goes on with its value. -/
theorem checked_bind {β γ : Type} {access : Option β} {b : β} (h : access = some b)
    (f : β → Checked γ) : (checked access >>= f) = f b := by
  rw [h]
  rfl

/-- Results are bound like the results of reading. -/
theorem done_bind {β γ : Type} {x : Except ParseError β} {f : β → Checked γ}
    {g : β → Except ParseError γ} (h : ∀ b, f b = done (g b)) :
    (done x >>= f) = done (x >>= g) := by
  cases x with
  | error e => rfl
  | ok b => exact h b

section Reading

variable {α : Type} [Scalar α] [HasNumerals α] {letter : Char}

/-- Reading an operand by index makes all its accesses and reads the operand. -/
theorem readOperand_eq (letter : Char) (first : NestedGlyph) (rest : List NestedGlyph) :
    (readOperand letter ((first :: rest).map NestedGlyph.toGlyph)
      ((first :: rest).map NestedGlyph.depth) : Checked (Expr α)) =
        done (Univariate.readOperand letter first rest) := by
  have hfirst : ((first :: rest).map NestedGlyph.toGlyph)[0]? = some first.toGlyph := rfl
  have hvariable : (((first :: rest).map NestedGlyph.toGlyph).length = 1 ∧
      first.char = letter) ↔ (rest.isEmpty && first.char = letter) = true := by
    simp [List.isEmpty_iff]
  have hchars : ((first :: rest).map NestedGlyph.toGlyph).map Glyph.char =
      (first :: rest).map fun g => g.char := List.map_map
  rw [readOperand, Univariate.readOperand, checked_bind hfirst, hchars]
  simp only [hvariable]
  split
  · rfl
  · next hnot =>
    cases numeralOf? ((first :: rest).map fun g => g.char) with
    | some n => rfl
    | none =>
      have hother : rest = [] → first.char ≠ letter := by
        rintro rfl hchar
        exact hnot (by simp [hchar])
      obtain ⟨i?, hfound, hmisplaced⟩ := findMisplaced_eq letter first rest hother
      dsimp only
      rw [checked_bind hfound, checked_bind (toGlyph_getElem? hmisplaced)]
      rfl

variable {part : Nat → Nat → Checked (Expr α)}

/-- Parts are read by their positions. -/
def ReadsParts (part : Nat → Nat → Checked (Expr α)) (letter : Char)
    (result : Except ParseError Outline) : Prop :=
  ∀ o, result = .ok o → ∀ s ∈ o.parts, part s.start s.stop = done (parseSegment letter s)

/-- Reading an operator by index makes all its accesses and reads the outline of the operator. -/
theorem readOperator_eq {s : Segment} {op : BinaryOp} {ls rs : List NestedGlyph} {g : NestedGlyph}
    (hs : (ls ++ g :: rs).map NestedGlyph.toGlyph = s.glyphs)
    (hparts : ReadsParts part letter (outlineOperator s op ls g.position rs))
    (first : NestedGlyph) (rest : List NestedGlyph) :
    readOperator part s op ls.length =
      done (outlineOperator s op ls g.position rs >>= Outline.read letter first rest) := by
  have hg : s.glyphs[ls.length]? = some g.toGlyph := by
    rw [← hs]
    exact toGlyph_getElem? (getElem?_of_eq rfl rfl)
  have hlength : s.glyphs.length = ls.length + 1 + rs.length := by
    rw [← hs]
    simp
    omega
  rw [readOperator, checked_bind hg]
  cases rs with
  | nil => exact if_pos hlength.symm
  | cons next rs =>
    let right := segmentOf (g.position + 1) s.stop (next :: rs)
    have hbehind : ¬ls.length + 1 = s.glyphs.length := by
      rw [hlength, List.length_cons]
      omega
    rw [if_neg hbehind]
    cases ls with
    | nil =>
      by_cases hminus : op = .subtraction
      · have houtline : outlineOperator s op [] g.position (next :: rs) = .ok (.negation right) :=
          if_pos hminus
        have hright : part (g.position + 1) s.stop = done (parseSegment letter right) :=
          hparts _ houtline right (by simp [Outline.parts])
        rw [houtline, hright]
        exact done_bind fun r => if_pos hminus
      · have houtline : outlineOperator s op [] g.position (next :: rs) =
            .ok (.dangling g.position right) := if_neg hminus
        have hright : part (g.position + 1) s.stop = done (parseSegment letter right) :=
          hparts _ houtline right (by simp [Outline.parts])
        rw [houtline, hright]
        exact done_bind fun r => if_neg hminus
    | cons previous ls =>
      let left := segmentOf s.start g.position (previous :: ls)
      have hright : part (g.position + 1) s.stop = done (parseSegment letter right) :=
        hparts _ rfl right (by simp [Outline.parts, right])
      have hleft : part s.start g.position = done (parseSegment letter left) :=
        hparts _ rfl left (by simp [Outline.parts, left])
      have hbefore : ¬(previous :: ls).length = 0 := Nat.succ_ne_zero _
      simp only [if_neg hbefore]
      rw [hright, hleft]
      exact done_bind fun r => done_bind fun l => rfl

/-- The separator of two arguments is found inside their brackets. -/
theorem readSeparated_eq {op : BinaryOp} {ns before arguments : List NestedGlyph}
    {k opening closing : NestedGlyph} {i : Nat} (hk : ns[i]? = some k)
    (hns : ns = before ++ opening :: (arguments ++ [closing])) (hne : arguments ≠ [])
    (hparts : ReadsParts part letter
      (outlineArguments (.binary op) k.position opening arguments closing.position))
    (first : NestedGlyph) (rest : List NestedGlyph) :
    readSeparated part (ns.map NestedGlyph.toGlyph) (ns.map NestedGlyph.depth) op i before.length
        (before.length + 1 + arguments.length) =
      done (outlineArguments (.binary op) k.position opening arguments closing.position >>=
        Outline.read letter first rest) := by
  have hopening : ns[before.length]? = some opening := getElem?_of_eq hns rfl
  have hclosing : ns[before.length + 1 + arguments.length]? = some closing := by
    refine getElem?_of_eq (l := before ++ opening :: arguments) (r := []) (by simp [hns]) ?_
    rw [List.length_append, List.length_cons]
    omega
  have hns' : ns = (before ++ [opening]) ++ arguments ++ [closing] := by simp [hns]
  have hstart : before.length + 1 = (before ++ [opening]).length := by simp
  have hnonempty : ¬arguments.isEmpty = true := fun h => hne (List.isEmpty_iff.mp h)
  rw [readSeparated, checked_bind (toGlyph_getElem? hopening),
    checked_bind (toGlyph_getElem? hclosing), checked_bind (depth_getElem? hopening),
    checked_bind (findIndex?_eq_cutAt (standsAt_eq ';' opening.depth) hns' hstart rfl)]
  rw [outlineArguments, if_neg hnonempty] at hparts ⊢
  cases hcut : cutAt (fun g => g.char = ';' && g.depth = opening.depth) arguments with
  | none =>
    rw [Option.map_none]
    dsimp only
    rw [checked_bind (toGlyph_getElem? hk)]
    rfl
  | some cut =>
    obtain ⟨l, separator, r⟩ := cut
    let left := segmentOf (opening.position + 1) separator.position l
    let right := segmentOf (separator.position + 1) closing.position r
    have harguments := append_of_cutAt hcut
    have hseparator : ns[before.length + 1 + l.length]? = some separator := by
      refine getElem?_of_eq (l := before ++ opening :: l) (r := r ++ [closing])
        (by simp [hns, harguments]) ?_
      rw [List.length_append, List.length_cons]
      omega
    -- an argument is missing if the separator stands next to one of the brackets
    have hmissing : (before.length + 1 + l.length = before.length + 1 ∨
        before.length + 1 + l.length + 1 = before.length + 1 + arguments.length) ↔
          (l.isEmpty || r.isEmpty) = true := by
      rw [harguments, Bool.or_eq_true, List.isEmpty_iff, List.isEmpty_iff,
        ← List.length_eq_zero_iff, ← List.length_eq_zero_iff, List.length_append,
        List.length_cons]
      omega
    rw [Option.map_some]
    simp only [hcut] at hparts
    dsimp only
    rw [checked_bind (toGlyph_getElem? hseparator)]
    by_cases hempty : (l.isEmpty || r.isEmpty) = true
    · rw [if_pos (hmissing.mpr hempty), if_pos hempty]
      rfl
    · rw [if_neg hempty] at hparts
      have hleft : part (opening.position + 1) separator.position =
          done (parseSegment letter left) := hparts _ rfl left (by simp [Outline.parts, left])
      have hright : part (separator.position + 1) closing.position =
          done (parseSegment letter right) := hparts _ rfl right (by simp [Outline.parts, right])
      rw [if_neg (mt hmissing.mp hempty), if_neg hempty, hleft, hright]
      exact done_bind fun t => done_bind fun u => rfl

/-- Reading arguments by index makes all its accesses and reads the outline of the arguments. -/
theorem readArguments_eq {op : Operation} {ns before arguments : List NestedGlyph}
    {k opening closing : NestedGlyph} {i : Nat} (hk : ns[i]? = some k)
    (hns : ns = before ++ opening :: (arguments ++ [closing]))
    (hparts : ReadsParts part letter
      (outlineArguments op k.position opening arguments closing.position))
    (first : NestedGlyph) (rest : List NestedGlyph) :
    readArguments part (ns.map NestedGlyph.toGlyph) (ns.map NestedGlyph.depth) op i before.length
        (before.length + 1 + arguments.length) =
      done (outlineArguments op k.position opening arguments closing.position >>=
        Outline.read letter first rest) := by
  have hopening : ns[before.length]? = some opening := getElem?_of_eq hns rfl
  have hclosing : ns[before.length + 1 + arguments.length]? = some closing := by
    refine getElem?_of_eq (l := before ++ opening :: arguments) (r := []) (by simp [hns]) ?_
    rw [List.length_append, List.length_cons]
    omega
  rw [readArguments, checked_bind (toGlyph_getElem? hopening),
    checked_bind (toGlyph_getElem? hclosing)]
  cases arguments with
  | nil => exact if_pos rfl
  | cons a as =>
    have hsome : ¬before.length + 1 + (a :: as).length = before.length + 1 := by
      rw [List.length_cons]
      omega
    rw [if_neg hsome]
    cases op with
    | unary op =>
      let argument := segmentOf (opening.position + 1) closing.position (a :: as)
      have hargument : part (opening.position + 1) closing.position =
          done (parseSegment letter argument) :=
        hparts _ rfl argument (by simp [Outline.parts, argument])
      dsimp only
      rw [hargument]
      exact done_bind fun t => rfl
    | binary op => exact readSeparated_eq hk hns (List.cons_ne_nil a as) hparts first rest

/-- Reading a keyword by index makes all its accesses and reads the outline of the function. -/
theorem readKeyword_eq {op : Operation} {ns ks after : List NestedGlyph} {k : NestedGlyph}
    (hk : ns[0]? = some k) (hns : ns = ks ++ after) (hks : ks.length = op.symbol.length)
    (hparts : ReadsParts part letter (outlineKeyword op k.position after))
    (first : NestedGlyph) (rest : List NestedGlyph) :
    readKeyword part (ns.map NestedGlyph.toGlyph) (ns.map NestedGlyph.depth) op 0 =
      done (outlineKeyword op k.position after >>= Outline.read letter first rest) := by
  rw [readKeyword, checked_bind (toGlyph_getElem? hk), if_neg (Nat.lt_irrefl 0), Nat.zero_add,
    ← hks]
  dsimp only
  cases after with
  | nil =>
    have hnone : (ns.map NestedGlyph.toGlyph)[ks.length]? = none := by simp [hns]
    rw [hnone]
    rfl
  | cons opening after =>
    have hopening : ns[ks.length]? = some opening := getElem?_of_eq hns rfl
    have hns' : ns = (ks ++ [opening]) ++ after ++ [] := by simp [hns]
    have hstart : ks.length + 1 = (ks ++ [opening]).length := by simp
    have hlength : (ns.map NestedGlyph.toGlyph).length = ks.length + 1 + after.length := by
      rw [List.length_map, hns, List.length_append, List.length_cons]
      omega
    rw [toGlyph_getElem? hopening]
    dsimp only
    by_cases hopen : opening.char = '('
    · rw [if_pos hopen, checked_bind (depth_getElem? hopening), hlength,
        checked_bind (findIndex?_eq_cutAt (standsAt_eq ')' opening.depth) hns' hstart rfl)]
      rw [outlineKeyword, if_pos hopen] at hparts ⊢
      cases hcut : cutAt (fun g => g.char = ')' && g.depth = opening.depth) after with
      | none => rfl
      | some cut =>
        obtain ⟨arguments, closing, later⟩ := cut
        have hafter := append_of_cutAt hcut
        rw [hcut] at hparts
        cases later with
        | nil =>
          have hend : ¬ks.length + 1 + arguments.length + 1 < ks.length + 1 + after.length := by
            rw [hafter, List.length_append, List.length_cons, List.length_nil]
            omega
          rw [hafter] at hns
          exact (if_neg hend).trans (readArguments_eq hk hns hparts first rest)
        | cons extra later =>
          have hend : ks.length + 1 + arguments.length + 1 < ks.length + 1 + after.length := by
            rw [hafter, List.length_append, List.length_cons, List.length_cons]
            omega
          have hextra : ns[ks.length + 1 + arguments.length + 1]? = some extra := by
            refine getElem?_of_eq (l := ks ++ opening :: (arguments ++ [closing])) (r := later)
              (by simp [hns, hafter]) ?_
            rw [List.length_append, List.length_cons, List.length_append, List.length_singleton]
            omega
          refine (if_pos hend).trans ?_
          rw [checked_bind (toGlyph_getElem? hextra)]
          rfl
    · rw [if_neg hopen, outlineKeyword, if_neg hopen]
      rfl

/-- A shorter piece of a text is a part of it. -/
theorem part?_append {text left t right : List Char} (htext : text = left ++ t ++ right)
    (h : t.length < text.length) :
    part? text left.length (left.length + t.length) = some ⟨t, h⟩ := by
  have hslice : slice? text left.length (left.length + t.length) = some t := by
    rw [htext]
    exact slice?_append left t right rfl rfl
  rw [part?, hslice]
  exact dif_pos h

/-- A piece of a text with fewer characters that are read is shorter than the text. -/
theorem length_lt_of_glyphs {text left t right : List Char} (htext : text = left ++ t ++ right)
    (h : (glyphsFrom left.length t).length < (glyphsFrom 0 text).length) :
    t.length < text.length := by
  have hlength : text.length = left.length + t.length + right.length := by
    rw [htext, List.length_append, List.length_append]
  refine Nat.not_le.mp fun hle => ?_
  have hleft : left = [] := List.length_eq_zero_iff.mp (by omega)
  have hright : right = [] := List.length_eq_zero_iff.mp (by omega)
  subst hleft hright
  rw [htext, List.nil_append, List.append_nil] at h
  exact Nat.lt_irrefl _ h

/-- A result with all its accesses stays one when its errors are shifted. -/
theorem adapt_done {β : Type} (distance : Nat) (x : Except ParseError β) :
    (done x).adapt (ParseError.shift distance) = done (moved distance id x) := by
  cases x <;> rfl

/-- The symbol of the operation that is applied last stands in the text. -/
theorem start_of_splitPoint {ns : List NestedGlyph} {split : Split}
    (h : splitPoint ns = some split) :
    split.start < ns.length ∧ split.start + split.op.symbol.length ≤ ns.length := by
  have hsymbol : 0 < split.op.symbol.length := by
    rcases split.op with op | op <;> cases op <;> decide
  obtain ⟨xs, ys, hops, -, -⟩ := exists_of_loosest h
  obtain ⟨ls, g, rs, rfl, -, -, -, hending, hstart⟩ := exists_of_operationsAfter hops
  obtain ⟨rest, hrest, -⟩ := symbol_of_operationEnding? hending
  have hlength := congrArg List.length hrest
  rw [List.length_cons, List.length_append, List.length_reverse, length_readAfter] at hlength
  rw [length_readAfter] at hstart
  rw [List.length_append, List.length_cons]
  simp only [List.length_nil] at hlength hstart
  omega

/-- A text is read through its outline by looking up what its split point divides. -/
theorem readSplit_eq {s : Segment} {ns : List NestedGlyph} {split : Split}
    (hs : ns.map NestedGlyph.toGlyph = s.glyphs) (hsplit : splitPoint ns = some split)
    (hparts : ReadsParts part letter (outline s ns)) (first : NestedGlyph)
    (rest : List NestedGlyph) :
    readSplit part s (ns.map NestedGlyph.depth) split =
      done (outline s ns >>= Outline.read letter first rest) := by
  obtain ⟨hstart, hsymbol⟩ := start_of_splitPoint hsplit
  obtain ⟨symbol, after, hdrop⟩ : ∃ symbol after, ns.drop split.start = symbol :: after :=
    List.exists_cons_of_ne_nil fun hnil => by
      have hle := List.drop_eq_nil_iff.mp hnil
      omega
  have htake : (ns.take split.start).length = split.start := by
    rw [List.length_take]
    omega
  have hns : ns = ns.take split.start ++ symbol :: after := by
    rw [← hdrop, List.take_append_drop]
  have hlookup : ns[split.start]? = some symbol := by
    rw [← List.head?_drop, hdrop]
    rfl
  rw [readSplit]
  cases hop : split.op.operator? with
  | some op =>
    have houtline : outline s ns =
        outlineOperator s op (ns.take split.start) symbol.position after := by
      simp only [outline, hsplit, hdrop, hop]
    rw [houtline] at hparts ⊢
    have hread := readOperator_eq (hns ▸ hs) hparts first rest
    rwa [htake] at hread
  | none =>
    dsimp only
    rw [← hs]
    by_cases hzero : split.start = 0
    · have houtline : outline s ns = outlineKeyword split.op symbol.position
          (ns.drop split.op.symbol.length) := by
        simp only [outline, hsplit, hdrop, hop, if_pos hzero]
      have hkeyword : (ns.take split.op.symbol.length).length = split.op.symbol.length := by
        rw [List.length_take]
        omega
      rw [houtline] at hparts ⊢
      rw [hzero] at hlookup ⊢
      exact readKeyword_eq hlookup (List.take_append_drop _ ns).symm hkeyword hparts first rest
    · have houtline : outline s ns =
          .error (.atPosition (.unexpectedCharacter symbol.char) symbol.position) := by
        simp only [outline, hsplit, hdrop, hop, if_neg hzero]
      rw [houtline, readKeyword, checked_bind (toGlyph_getElem? hlookup),
        if_pos (Nat.pos_of_ne_zero hzero)]
      rfl

/-- A part of a text is what stands between two of its positions, and is shorter than the text. -/
theorem exists_of_mem_parts {text : List Char} {ns : List NestedGlyph} {o : Outline} {s : Segment}
    (hnest : nest (Segment.ofSource text).strip.glyphs = .ok ns)
    (houtline : outline (Segment.ofSource text).strip ns = .ok o) (hs : s ∈ o.parts) :
    ∃ left t right, text = left ++ t ++ right ∧ s = .ofText left.length t ∧
      t.length < text.length := by
  have hglyphs := toGlyph_of_nest hnest
  have hpart := (isPart_of_outline hglyphs houtline s hs).1
  obtain ⟨left, t, right, htext, rfl⟩ := (Segment.isPiece_ofSource text).strip.of_isPart hpart
  refine ⟨left, t, right, htext, rfl, length_lt_of_glyphs htext ?_⟩
  have hshorter := outline_shorter houtline _ hs
  have hlength := congrArg List.length hglyphs
  rw [List.length_map] at hlength
  have hstrip := (Segment.ofSource text).length_strip_le
  exact Nat.lt_of_lt_of_le hshorter (hlength ▸ hstrip)

/-- The parts of a text are cut out of it, and read like texts of their own. -/
theorem readsParts_part? {text : List Char} {ns : List NestedGlyph}
    (hnest : nest (Segment.ofSource text).strip.glyphs = .ok ns)
    (hread : ∀ t : List Char, t.length < text.length →
      (read letter t : Checked (Expr α)) = done (parseSegment letter (.ofSource t))) :
    ReadsParts (α := α)
      (fun start stop => do
        let t ← checked (part? text start stop)
        (read letter t.val).adapt (ParseError.shift start))
      letter (outline (Segment.ofSource text).strip ns) := by
  intro o houtline s hs
  obtain ⟨left, t, right, htext, rfl, hlt⟩ := exists_of_mem_parts hnest houtline hs
  have hmoved : (parseSegment letter (.ofText left.length t) : Except ParseError (Expr α)) =
      moved left.length id (parseSegment letter (.ofSource t)) := by
    rw [Segment.ofText_eq_shift, parseSegment_shift]
  rw [hmoved, ← adapt_done, ← hread t hlt]
  exact checked_bind (part?_append htext hlt) _

/-- Reading by index has a result for every text, the one of reading. -/
theorem read_eq (letter : Char) (text : List Char) :
    (read letter text : Checked (Expr α)) = done (parseSegment letter (.ofSource text)) := by
  -- the parts of the text are shorter, so they are read by index as they are read
  induction hn : text.length using Nat.strongRecOn generalizing text with
  | ind n ih =>
    subst hn
    rw [read, checked_bind (strip_eq _), parseSegment_eq]
    by_cases hempty : (Segment.ofSource text).strip.glyphs = []
    · rw [hempty]
      rfl
    · rw [if_neg (fun h => hempty (List.isEmpty_iff.mp h))]
      cases hnest : nest (Segment.ofSource text).strip.glyphs with
      | error e => rfl
      | ok ns =>
        have hs := toGlyph_of_nest hnest
        obtain ⟨first, rest, rfl⟩ : ∃ first rest, ns = first :: rest :=
          List.exists_cons_of_ne_nil fun hnil => hempty (by rw [← hs, hnil]; rfl)
        have hparts := readsParts_part? hnest fun t ht => ih _ ht t rfl
        have hsplit := findSplit_eq (first :: rest)
        rw [hs] at hsplit
        dsimp only
        rw [checked_bind hsplit]
        cases hpoint : splitPoint (first :: rest) with
        | none =>
          have houtline : outline (Segment.ofSource text).strip (first :: rest) = .ok .operand := by
            rw [outline, hpoint]
          rw [houtline, ← hs]
          exact readOperand_eq letter first rest
        | some split =>
          dsimp only
          rw [readSplit_eq hs hpoint hparts first rest]
          cases outline (Segment.ofSource text).strip (first :: rest) <;> rfl

end Reading

end Indexed

/-- Reading by index, every access of which is checked, has a result for every text and is parsing:
no index stands outside of its list. The parts of a text that are read are ranges of it, and shorter
than the text. -/
theorem parse_stays_in_bounds {α : Type} [Scalar α] [HasNumerals α] (letter : Char)
    (source : List Char) :
    (Indexed.read letter.toLower source : Indexed.Checked (Expr α)).run =
        some (parse letter source) ∧
      ∀ (text : List Char) (ns : List NestedGlyph) (o : Outline) (part : Segment),
        nest (Segment.ofSource text).strip.glyphs = .ok ns →
        outline (Segment.ofSource text).strip ns = .ok o → part ∈ o.parts →
          part.start ≤ part.stop ∧ part.stop ≤ text.length ∧
            part.stop - part.start < text.length := by
  refine ⟨by rw [Indexed.read_eq]; rfl, fun text ns o part hnest houtline hpart => ?_⟩
  obtain ⟨left, t, right, rfl, rfl, hlt⟩ := Indexed.exists_of_mem_parts hnest houtline hpart
  have hle : left.length + t.length ≤ (left ++ t ++ right).length := by
    rw [List.length_append, List.length_append]
    exact Nat.le_add_right _ _
  have hlength : left.length + t.length - left.length = t.length :=
    Nat.add_sub_cancel_left _ _
  exact ⟨Nat.le_add_right _ _, hle, hlength ▸ hlt⟩

end Univariate
