import Univariate.Proofs.IndexedSearch

/-!
# Splitting by index

The accesses by which a text is stripped and split all succeed. Stripping looks at the ends of a
text with two brackets, a keyword is looked for among letters that are there, and the operations on
a level are met from the right to the left.
-/

namespace Univariate

namespace Indexed

/-- The slice between two texts is what stands between them. -/
theorem slice?_append {β : Type} (xs ys zs : List β) {start stop : Nat} (hstart : start = xs.length)
    (hstop : stop = xs.length + ys.length) : slice? (xs ++ ys ++ zs) start stop = some ys := by
  subst hstart hstop
  have hrange : xs.length ≤ xs.length + ys.length ∧
      xs.length + ys.length ≤ (xs ++ ys ++ zs).length := by simp
  rw [slice?, if_pos hrange, List.extract_eq_take_drop]
  simp

section Strip

variable {s : Segment}

/-- An enclosed segment is stripped of its first and its last character. -/
theorem strip?_of_isEnclosed (h : isEnclosed s.glyphs = true) : ∃ first inner last,
    s.glyphs = first :: inner ++ [last] ∧
      s.strip? = some ⟨first.position + 1, last.position, inner⟩ := by
  unfold isEnclosed at h
  split at h
  · cases h
  · next first rest hglyphs =>
    split at h
    · cases h
    · next last hlast =>
      obtain ⟨inner, rfl⟩ := List.getLast?_eq_some_iff.mp hlast
      rw [List.dropLast_concat, Bool.and_eq_true, Bool.and_eq_true, decide_eq_true_eq,
        decide_eq_true_eq, and_assoc] at h
      refine ⟨first, inner, last, hglyphs, ?_⟩
      rw [Segment.strip?, hglyphs]
      simp [h]

/-- A segment that is not enclosed is not stripped. -/
theorem strip?_of_not_isEnclosed (h : isEnclosed s.glyphs = false) : s.strip? = none := by
  refine Option.eq_none_iff_forall_ne_some.mpr fun t ht => ?_
  obtain ⟨first, last, hglyphs, hfirst, hlast, hbalanced⟩ := glyphs_of_strip? ht
  have hinner : balancedFrom 0 (t.glyphs.map Glyph.char) = true := hbalanced
  rw [hglyphs] at h
  simp [isEnclosed, hfirst, hlast, hinner] at h

/-- Stripping by index removes the brackets around a segment. -/
theorem strip_eq (s : Segment) : strip s = some s.strip := by
  induction hn : s.glyphs.length using Nat.strongRecOn generalizing s with
  | ind n ih =>
    subst hn
    rw [strip]
    cases henclosed : isEnclosed s.glyphs with
    | false => rw [if_neg Bool.false_ne_true, strip_of_none (strip?_of_not_isEnclosed henclosed)]
    | true =>
      obtain ⟨first, inner, last, hglyphs, hstrip⟩ := strip?_of_isEnclosed henclosed
      have hlength : s.glyphs.length = inner.length + 2 := by simp [hglyphs]
      have hfirst : s.glyphs[0]? = some first := by simp [hglyphs]
      have hlast : s.glyphs[s.glyphs.length - 1]? = some last := by
        rw [hlength, hglyphs]
        simp
      have hinner : slice? s.glyphs 1 (s.glyphs.length - 1) = some inner := by
        rw [hlength, hglyphs]
        exact slice?_append [first] inner [last] rfl (Nat.add_comm _ _)
      have hshorter : inner.length < s.glyphs.length := by omega
      rw [if_pos rfl, hfirst, hlast, hinner, strip_of_strip? hstrip, ← ih _ hshorter _ rfl]
      exact dif_pos hshorter

end Strip

/-- No keyword ends another one. -/
theorem eq_of_isKeyword {op other : Operation} (hop : op.isKeyword = true)
    (hother : other.isKeyword = true) {w : List Char} (hw : op.symbol.reverse <+: w)
    (hw' : other.symbol.reverse <+: w) : op = other := by
  have hall : ∀ op ∈ Operation.all, ∀ other ∈ Operation.all, op.isKeyword = true →
      other.isKeyword = true → op.symbol.reverse <+: other.symbol.reverse → op = other := by decide
  have hmem (op : Operation) : op ∈ Operation.all := by
    rcases op with op | op <;> cases op <;> decide
  rcases List.prefix_or_prefix_of_prefix hw hw' with h | h
  · exact hall op (hmem op) other (hmem other) hop hother h
  · exact (hall other (hmem other) op (hmem op) hother hop h).symm

/-- The keyword that ends a text is the only one whose letters end it. -/
theorem keywordEnding?_eq_some_iff {w : List Char} {op : Operation} :
    keywordEnding? w = some op ↔ op.isKeyword = true ∧ op.symbol.reverse <+: w := by
  constructor
  · intro h
    obtain ⟨hop, rest, hrest⟩ := exists_of_keywordEnding? h
    exact ⟨hop, rest, hrest⟩
  · rintro ⟨hop, hw⟩
    have hfound : (keywordEnding? w).isSome = true := by
      refine List.find?_isSome.mpr ⟨op, ?_, ?_⟩
      · rcases op with op | op <;> cases op <;> decide
      · rw [hop, Bool.true_and, List.isPrefixOf_iff_prefix]
        exact hw
    obtain ⟨other, hother⟩ := Option.isSome_iff_exists.mp hfound
    obtain ⟨hkeyword, rest, hrest⟩ := exists_of_keywordEnding? hother
    rw [hother, eq_of_isKeyword hop hkeyword hw ⟨rest, hrest⟩]

/-- The keyword with a number of letters that ends a text, given last character first. -/
def keywordOf? (length : Nat) (reversed : List Char) : Option Operation :=
  if length ≤ reversed.length then
    (Operation.ofSymbol? (reversed.take length).reverse).filter Operation.isKeyword
  else none

/-- A keyword of a length ends a text exactly if its letters do. -/
theorem keywordOf?_eq_some_iff {length : Nat} {w : List Char} {op : Operation} :
    keywordOf? length w = some op ↔
      op.isKeyword = true ∧ op.symbol.reverse <+: w ∧ op.symbol.length = length := by
  unfold keywordOf?
  constructor
  · intro h
    split at h
    · next hle =>
      obtain ⟨hsymbol, hop⟩ := Option.filter_eq_some_iff.mp h
      have hsymbol := List.find?_some hsymbol
      rw [decide_eq_true_eq] at hsymbol
      rw [hsymbol, List.reverse_reverse]
      exact ⟨hop, List.take_prefix length w, by simp [hle]⟩
    · cases h
  · rintro ⟨hop, ⟨rest, rfl⟩, rfl⟩
    have htake : ((op.symbol.reverse ++ rest).take op.symbol.length).reverse = op.symbol := by
      rw [List.take_left' List.length_reverse, List.reverse_reverse]
    rw [if_pos (by simp), htake, Operation.ofSymbol?_symbol]
    exact Option.filter_eq_some_iff.mpr ⟨rfl, hop⟩

/-- Trying three letters and then two finds the keyword that ends a text. -/
theorem keywordEnding?_eq_or (w : List Char) :
    keywordEnding? w = (keywordOf? 3 w).or (keywordOf? 2 w) := by
  have hlength {op : Operation} (hop : op.isKeyword = true) :
      op.symbol.length = 3 ∨ op.symbol.length = 2 := by
    rcases op with op | op
    · cases op <;> decide
    · cases op with
      | logarithm | root => decide
      | _ => cases hop
  have hends {length : Nat} {op : Operation} (h : keywordOf? length w = some op) :
      keywordEnding? w = some op := by
    obtain ⟨hop, hw, -⟩ := keywordOf?_eq_some_iff.mp h
    exact keywordEnding?_eq_some_iff.mpr ⟨hop, hw⟩
  cases hthree : keywordOf? 3 w with
  | some op => exact hends hthree
  | none =>
    cases hending : keywordEnding? w with
    | none =>
      cases htwo : keywordOf? 2 w with
      | none => rfl
      | some op => exact absurd (hends htwo) (by rw [hending]; nofun)
    | some op =>
      obtain ⟨hop, hw⟩ := keywordEnding?_eq_some_iff.mp hending
      rcases hlength hop with hlength | hlength
      · rw [keywordOf?_eq_some_iff.mpr ⟨hop, hw, hlength⟩] at hthree
        cases hthree
      · exact (keywordOf?_eq_some_iff.mpr ⟨hop, hw, hlength⟩).symm

/-- The letters up to an index are there to be compared with a keyword. -/
theorem slice?_letters (ls : List NestedGlyph) (g : NestedGlyph) (rs : List NestedGlyph)
    {length : Nat} (hlength : length ≤ ls.length + 1) : ∃ letters,
      slice? ((ls ++ g :: rs).map NestedGlyph.toGlyph) (ls.length + 1 - length) (ls.length + 1) =
        some letters ∧
      letters.map Glyph.char = ((g.char :: readAfter [] ls).take length).reverse := by
  let read := (ls ++ [g]).map NestedGlyph.toGlyph
  let skipped := ls.length + 1 - length
  have hread : read.length = ls.length + 1 := by simp [read]
  have hskipped : (read.take skipped).length = skipped := by
    rw [List.length_take, hread]
    omega
  have hgs : (ls ++ g :: rs).map NestedGlyph.toGlyph =
      read.take skipped ++ read.drop skipped ++ rs.map NestedGlyph.toGlyph := by
    rw [List.take_append_drop]
    simp [read]
  have hreversed : g.char :: readAfter [] ls = (read.map Glyph.char).reverse := by
    simp [read, readAfter]
  refine ⟨read.drop skipped, ?_, ?_⟩
  · rw [hgs]
    refine slice?_append _ _ _ hskipped.symm ?_
    rw [← List.length_append, List.take_append_drop, hread]
  · rw [hreversed, List.take_reverse, List.reverse_reverse, List.length_map, hread, List.map_drop]

/-- The search for a keyword of a length looks at the text that ends at an index. -/
theorem keywordOfLength?_eq (ls : List NestedGlyph) (g : NestedGlyph) (rs : List NestedGlyph)
    (length : Nat) :
    keywordOfLength? ((ls ++ g :: rs).map NestedGlyph.toGlyph) ls.length length =
      some ((keywordOf? length (g.char :: readAfter [] ls)).map fun op =>
        ⟨op, ls.length + 1 - op.symbol.length⟩) := by
  have hlength : (g.char :: readAfter [] ls).length = ls.length + 1 := by
    rw [List.length_cons, length_readAfter, List.length_nil, Nat.add_zero]
  have hstart : (keywordOf? length (g.char :: readAfter [] ls)).map
      (fun op => (⟨op, ls.length + 1 - op.symbol.length⟩ : Split)) =
        (keywordOf? length (g.char :: readAfter [] ls)).map fun op =>
          ⟨op, ls.length + 1 - length⟩ :=
    Option.map_congr fun op hop => by rw [(keywordOf?_eq_some_iff.mp hop).2.2]
  rw [hstart, keywordOfLength?, keywordOf?, hlength]
  split
  · next hle =>
    obtain ⟨letters, hslice, hletters⟩ := slice?_letters ls g rs hle
    rw [hslice, ← hletters]
    rfl
  · rfl

/-- Looking for a keyword among the letters before an index finds the one that ends there. -/
theorem keywordEndingAt_eq (ls : List NestedGlyph) (g : NestedGlyph) (rs : List NestedGlyph) :
    keywordEndingAt ((ls ++ g :: rs).map NestedGlyph.toGlyph) ls.length =
      some ((keywordEnding? (g.char :: readAfter [] ls)).map fun op =>
        ⟨op, ls.length + 1 - op.symbol.length⟩) := by
  rw [keywordEndingAt, keywordEnding?_eq_or]
  simp only [List.findSomeM?, keywordOfLength?_eq]
  cases keywordOf? 3 (g.char :: readAfter [] ls) with
  | some op => rfl
  | none => cases keywordOf? 2 (g.char :: readAfter [] ls) <;> rfl

/-- The character before an operator is looked at only if there is one. -/
theorem followsOperator_eq (ls rs : List NestedGlyph) :
    followsOperator ((ls ++ rs).map NestedGlyph.toGlyph) ls.length =
      some (endsWithOperator (readAfter [] ls)) := by
  rcases List.eq_nil_or_concat ls with rfl | ⟨before, previous, rfl⟩
  · rfl
  · have hprevious : ((before ++ [previous] ++ rs).map NestedGlyph.toGlyph)[before.length]? =
        some previous.toGlyph := by simp
    rw [List.concat_eq_append, followsOperator, List.length_append, List.length_singleton,
      if_pos (Nat.succ_pos _), Nat.add_sub_cancel, hprevious]
    simp [readAfter, endsWithOperator]

/-- The operation that ends at an index is the one that ends the text read so far. -/
theorem operationEndingAt_eq (ls : List NestedGlyph) (g : NestedGlyph) (rs : List NestedGlyph) :
    operationEndingAt ((ls ++ g :: rs).map NestedGlyph.toGlyph) ls.length =
      some ((operationEnding? (g.char :: readAfter [] ls)).map fun op =>
        ⟨op, ls.length + 1 - op.symbol.length⟩) := by
  rw [operationEndingAt, toGlyph_getElem? (getElem?_of_eq rfl rfl), operationEnding?]
  dsimp only [Option.bind_eq_bind, Option.bind_some]
  cases hop : BinaryOp.ofOperator? g.char with
  | none => exact keywordEndingAt_eq ls g rs
  | some op =>
    have hlength : (Operation.binary op).symbol.length = 1 := by
      rw [Operation.symbol, symbol_of_ofOperator? hop]
      rfl
    rw [followsOperator_eq]
    by_cases hminus : g.char = '-'
    · cases hends : (readAfter [] ls).head?.any isOperatorSymbol <;>
        simp [endsWithOperator, hminus, hends, hlength]
    · simp [hminus, hlength]

/-- Of several operations the loosest of some can be found first. -/
theorem loosest_append (ss later : List Split) :
    loosest (ss ++ later) = loosest (ss ++ (loosest later).toList) := by
  induction ss with
  | nil =>
    cases hbest : loosest later <;> simp [loosest, hbest]
  | cons s ss ih => rw [List.cons_append, List.cons_append, loosest, loosest, ih]

/-- Reading backwards, the best of the operations found so far stands for all of them. -/
theorem findBefore_eq (ls rs : List NestedGlyph) (best : Option Split) :
    findBefore ((ls ++ rs).map NestedGlyph.toGlyph) ((ls ++ rs).map NestedGlyph.depth) 0 ls.length
      best = some (loosest (operationsAfter [] ls ++ best.toList)) := by
  induction hn : ls.length generalizing ls rs best with
  | zero =>
    rw [List.length_eq_zero_iff.mp hn]
    cases best <;> rfl
  | succ i ih =>
    obtain ⟨before, g, rfl⟩ : ∃ before g, ls = before ++ [g] := by
      rcases List.eq_nil_or_concat ls with rfl | ⟨before, g, rfl⟩
      · cases hn
      · exact ⟨before, g, List.concat_eq_append⟩
    have hi : before.length = i := by simpa using hn
    subst hi
    rw [findBefore, List.append_assoc, List.singleton_append,
      depth_getElem? (getElem?_of_eq rfl rfl), operationsAfter_append]
    dsimp only [Option.bind_eq_bind, Option.bind_some]
    have hlater (best : Option Split) := ih before (g :: rs) best rfl
    by_cases hdepth : g.depth = 0
    · rw [if_pos hdepth, operationEndingAt_eq]
      dsimp only [Option.bind_some]
      cases hop : operationEnding? (g.char :: readAfter [] before) with
      | none =>
        have hg : operationsAfter (readAfter [] before) [g] = [] := by
          simp [operationsAfter, hdepth, hop]
        rw [hg, List.append_nil]
        exact hlater best
      | some op =>
        let found : Split := ⟨op, before.length + 1 - op.symbol.length⟩
        have hg : operationsAfter (readAfter [] before) [g] = [found] := by
          simp [operationsAfter, hdepth, hop, found, length_readAfter]
        have hlast : (if best.all fun other => found.op.precedence.looserThan other.op.precedence
            then some found else best) = loosest (found :: best.toList) := by
          cases best with
          | none => rfl
          | some other => simp [loosest]
        rw [hg, List.append_assoc, List.singleton_append, loosest_append, ← hlast]
        dsimp only [Option.map_some]
        split
        · exact hlater (some found)
        · exact hlater best
    · rw [if_neg hdepth, hlater]
      simp [operationsAfter, hdepth]

/-- Behind the last index of a number the number does not occur. -/
theorem lastIndex?_eq (n : Nat) (ms : List Nat) :
    (lastIndex? n ms = none ∧ ∀ m ∈ ms, m ≠ n) ∨ ∃ i xs ys, lastIndex? n ms = some i ∧
      ms = xs ++ ys ∧ xs.length = i + 1 ∧ ∀ m ∈ ys, m ≠ n := by
  induction ms with
  | nil => exact .inl ⟨rfl, nofun⟩
  | cons m ms ih =>
    rw [lastIndex?]
    rcases ih with ⟨hlast, hms⟩ | ⟨i, xs, ys, hlast, rfl, hlength, hys⟩
    · rw [hlast]
      by_cases hm : m = n
      · exact .inr ⟨0, [m], ms, if_pos hm, rfl, rfl, hms⟩
      · exact .inl ⟨if_neg hm, List.forall_mem_cons.mpr ⟨hm, hms⟩⟩
    · rw [hlast]
      exact .inr ⟨i + 1, m :: xs, ys, rfl, rfl, by rw [List.length_cons, hlength], hys⟩

/-- Reading backwards from the last character on the lowest level finds the split point. -/
theorem findSplit_eq (ns : List NestedGlyph) :
    findSplit (ns.map NestedGlyph.toGlyph) (ns.map NestedGlyph.depth) = some (splitPoint ns) := by
  have hdeep {rs : List NestedGlyph} (h : ∀ depth ∈ rs.map NestedGlyph.depth, depth ≠ 0)
      (before : List Char) : operationsAfter before rs = [] :=
    operationsAfter_of_deep (fun g hg => Nat.pos_of_ne_zero (h _ (List.mem_map_of_mem hg))) before
  unfold findSplit splitPoint
  split
  · next hmin =>
    rw [List.map_eq_nil_iff.mp (List.min?_eq_none_iff.mp hmin)]
    rfl
  · next level hmin =>
    have hle := (List.min?_eq_some_iff.mp hmin).2
    split
    · next hlevel =>
      rw [hdeep fun depth hdepth => Nat.ne_of_gt (Nat.lt_of_lt_of_le hlevel (hle depth hdepth))]
      rfl
    · next hlevel =>
      obtain rfl : level = 0 := Nat.eq_zero_of_not_pos hlevel
      rcases lastIndex?_eq 0 (ns.map NestedGlyph.depth) with
        ⟨hlast, hns⟩ | ⟨last, xs, ys, hlast, hsplit, hlength, hys⟩
      · rw [hlast, hdeep hns]
        rfl
      · obtain ⟨ls, rs, rfl, rfl, rfl⟩ := List.map_eq_append_iff.mp hsplit
        rw [List.length_map] at hlength
        rw [hlast, operationsAfter_append, hdeep hys]
        dsimp only
        rw [← hlength]
        exact findBefore_eq ls rs none

end Indexed

end Univariate
