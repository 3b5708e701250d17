import PlanCache.Proofs.OneLine

/-!
A semicolon behind a text. The tokens of the text stay as they are and the semicolon is a token of
its own, unless the text ends with a comment, which takes it in.
-/

namespace PlanCache

namespace LexRule

open Regex Opening

variable {r : LexRule} {cs text rest b : List Char} {o : Opening} {k : Kind} {n : Nat}

theorem not_semicolon_of_fixed (hr : r ∈ fixed) (ha : r.Accepts text rest)
    (hlen : text.length ≠ 1) : ';' ∉ text := by
  obtain ⟨k, hk, h⟩ := List.mem_filterMap.1 hr
  obtain ⟨w, hw, rfl⟩ := Option.map_eq_some_iff.1 h
  have hplain : Kind.all.all (fun k ↦ k.spelling.all fun w ↦
      w.toList.length == 1 || w.toList.all (·.toLower != ';')) = true := by
    decide +kernel
  have hm : text.map Char.toLower = w.toList.map Char.toLower := by
    rcases ha with hm | ⟨-, hm⟩
    · exact matches_word.1 hm
    · exact absurd hm not_matches_never
  have hlen' : w.toList.length = text.length := by
    simpa using (congrArg List.length hm).symm
  have hw' := List.all_eq_true.1 hplain k hk
  rw [hw, Option.all_some, Bool.or_eq_true, beq_iff_eq, hlen'] at hw'
  intro hc
  have hmem : ';' ∈ w.toList.map Char.toLower := by
    rw [← hm]
    exact List.mem_map.2 ⟨';', hc, rfl⟩
  obtain ⟨d, hd, he⟩ := List.mem_map.1 hmem
  exact absurd he (bne_iff_ne.1 (List.all_eq_true.1 (hw'.resolve_left hlen) d hd))

/-- A longer text with a semicolon in it is taken only behind an opening. -/
theorem Accepts.opens_of_semicolon (ha : r.Accepts text rest) (hr : r ∈ all) (hc : ';' ∈ text)
    (hlen : text.length ≠ 1) : ∃ o b, Opens text o b := by
  rcases ha.opens_or hr with ho | hf | hnumber | ⟨-, hone⟩ | ⟨-, hbare⟩
  · exact ho
  · exact absurd hc (not_semicolon_of_fixed hf ha hlen)
  · exact absurd hc (hnumber.not_mem_of_avoids (by decide))
  · exact absurd hone hlen
  · exact absurd (hbare ';' hc) (by decide)

theorem closer_ne_semicolon (ho : Opens text o b) : o.fence.closer ≠ some ';' := by
  have hall : openings.all (fun x ↦ x.2.fence.closer != some ';') = true := by decide
  obtain ⟨p, hp, -⟩ := ho
  exact bne_iff_ne.1 (List.all_eq_true.1 hall _ hp)

theorem matches_lineStart_of_append (h : Matches lineStart (cs ++ [';'])) (hcs : cs ≠ []) :
    Matches lineStart cs := by
  obtain ⟨v, hv, hstar⟩ := matches_lineStart.1 h
  obtain ⟨c, cs, rfl⟩ := List.exists_cons_of_ne_nil hcs
  obtain ⟨rfl, htail⟩ := List.cons.inj hv
  cases cs with
  | nil => simp at htail
  | cons d cs =>
    obtain ⟨rfl, rfl⟩ := List.cons.inj htail
    refine matches_lineStart.2 ⟨cs, rfl, ?_⟩
    rw [noneOf, matches_star_iff_forall] at hstar ⊢
    exact fun c hc ↦ hstar c (List.mem_append_left _ hc)

/-- Behind other characters a semicolon ends only a comment to the end of the line. -/
theorem Accepts.lineStart_of_semicolon (ha : r.Accepts (cs ++ [';']) []) (hr : r ∈ all)
    (hcs : cs ≠ []) : Matches lineStart cs := by
  have hlen : (cs ++ [';']).length ≠ 1 := by
    rw [List.length_append, List.length_singleton]
    have := List.length_pos_iff.2 hcs
    omega
  obtain ⟨o, b, ho⟩ := ha.opens_of_semicolon hr (by simp) hlen
  obtain ⟨hk, hline | hread⟩ := ha.of_opens hr ho hlen
  · obtain rfl := eq_of_kind_eq hr lineComment_mem_all (hk.trans (ho.line_iff.1 hline))
    rcases ha with hm | ⟨-, hm⟩
    · obtain ⟨u, v, -, hv, huv⟩ := matches_seq.1 hm
      obtain ⟨u', v', -, hv', rfl⟩ := matches_seq.1 hv
      rw [matches_just.1 hv', ← List.append_assoc] at huv
      exact absurd (List.append_inj_right' huv rfl) (by decide)
    · exact matches_lineStart_of_append hm hcs
  · exact absurd (closer_of_getLast? ho hread (by simp)) (closer_ne_semicolon ho)

theorem not_opens_line_of_first (h : FirstOf all text [] k) (hk : k ≠ .lineComment) :
    ¬Opens text ⟨.line, .lineComment⟩ b := by
  intro ho
  obtain ⟨r, hr, rfl, ha⟩ := h.exists_rule
  rcases ha.kind_of_opens hr ho with he | he
  · exact hk he
  · have hlen := ha.length_of_stray hr he
    obtain ⟨rfl, -⟩ : text = '-' :: '-' :: b ∧ True := by simpa using opens_iff.1 ho
    simp at hlen

/-- A token is found again before a semicolon, unless it is a comment at the end. -/
theorem IsLongest.semicolon (h : IsLongest cs k n) (hend : n = cs.length → k ≠ .lineComment) :
    IsLongest (cs ++ [';']) k n := by
  have htake : ∀ {m}, m ≤ cs.length → (cs ++ [';']).take m = cs.take m ∧
      (cs ++ [';']).drop m = cs.drop m ++ [';'] := fun hm ↦
    ⟨List.take_append_of_le_length hm, List.drop_append_of_le_length hm⟩
  have hcs : cs ≠ [] := List.length_pos_iff.1 (Nat.lt_of_lt_of_le h.pos h.le)
  refine ⟨h.pos, by simp [Nat.le_succ_of_le h.le], ?_, fun m hlt hle r hr ha ↦ ?_⟩
  · rw [(htake h.le).1, (htake h.le).2]
    refine h.first.congr fun r hr ↦ ?_
    by_cases hn : n = cs.length
    · have hfirst := h.first
      rw [hn, List.take_length, List.drop_length] at hfirst ⊢
      exact accepts_iff_of_not_line (fun b ↦ not_opens_line_of_first hfirst (hend hn)) hr _ _
    · have hrest : cs.drop n ≠ [] := by
        rw [ne_eq, List.drop_eq_nil_iff]
        have := h.le
        omega
      simp [Accepts, hrest]
  · by_cases hm : m ≤ cs.length
    · rw [(htake hm).1, (htake hm).2] at ha
      refine h.none_longer m hlt hm r hr (ha.imp_right fun hrest ↦ absurd hrest.1 (by simp))
    · -- a comment that takes the semicolon in would be the whole text without it
      have hlen : m = (cs ++ [';']).length := by
        rw [List.length_append, List.length_singleton] at hle ⊢
        omega
      rw [hlen, List.take_length, List.drop_length] at ha
      have hmatch := ha.lineStart_of_semicolon hr hcs
      have hall : n = cs.length := by
        refine Nat.le_antisymm h.le (Nat.le_of_not_lt fun hlt ↦ ?_)
        have hrefused := h.none_longer cs.length hlt (Nat.le_refl _)
        rw [List.take_length, List.drop_length] at hrefused
        exact hrefused _ lineComment_mem_all (.inr ⟨rfl, hmatch⟩)
      have hfirst := h.first
      rw [hall, List.take_length, List.drop_length] at hfirst
      obtain ⟨b, ho⟩ := opens_of_lineStart hmatch []
      rw [List.append_nil] at ho
      exact not_opens_line_of_first hfirst (hend hall) ho

end LexRule

/-- The semicolon that stands at a place. -/
def Token.semicolon (p : Cursor) : Token := ⟨.semicolon, ";", p.line, p.column, p.offset, 1⟩

namespace Token

theorem scanFrom_ne_nil (p : Cursor) (cs : List Char) : scanFrom p cs ≠ [] := by
  obtain ⟨ts, h, -⟩ := exists_scanFrom_eq p cs
  rw [h]
  simp

/-- The tokens of a text with a semicolon behind it. -/
theorem scanFrom_semicolon (p : Cursor) (cs : List Char)
    (hlast : ∀ x ∈ (scanFrom p cs).dropLast.getLast?, x.kind ≠ .lineComment) :
    scanFrom p (cs ++ [';']) = (scanFrom p cs).dropLast ++
      [semicolon (p.past cs), endMark (p.past (cs ++ [';']))] := by
  fun_induction scanFrom p cs with
  | case1 p =>
    rw [List.nil_append, scanFrom, longest_semicolon]
    simp [scanFrom, semicolon, endMark, Cursor.past]
  | case2 p c cs found text ih =>
    have hne := scanFrom_ne_nil (p.past text) ((c :: cs).drop found.2)
    rw [List.dropLast_cons_of_ne_nil hne] at hlast ⊢
    have hend : found.2 = (c :: cs).length → found.1 ≠ .lineComment := by
      intro hlen
      rw [hlen, List.drop_length, scanFrom] at hlast
      exact hlast _ rfl
    have hlong := LexRule.isLongest_longest c cs
    have hfound : LexRule.longest (c :: (cs ++ [';'])) = found :=
      (hlong.semicolon hend).longest_eq
    have htake : (c :: (cs ++ [';'])).take found.2 = text :=
      List.take_append_of_le_length hlong.le
    have hdrop : (c :: (cs ++ [';'])).drop found.2 = (c :: cs).drop found.2 ++ [';'] :=
      List.drop_append_of_le_length hlong.le
    have hpast : ∀ tail, (p.past text).past ((c :: cs).drop found.2 ++ tail) =
        p.past (c :: cs ++ tail) := by
      intro tail
      rw [← Cursor.past_append, ← List.append_assoc, List.take_append_drop]
    have hrest := ih fun x hx ↦ hlast x ?_
    · have hpast' := hpast []
      rw [List.append_nil, List.append_nil] at hpast'
      rw [hpast, hpast'] at hrest
      rw [List.cons_append, scanFrom, hfound, htake, hdrop, hrest]
      rfl
    · rw [Option.mem_def] at hx ⊢
      rw [List.getLast?_cons, hx]
      rfl

end Token

/-- The tokens of a text without the mark of the end. -/
def Token.proper (sql : String) : List Token := (scan sql).dropLast

/-- The last token of a text is not a comment to the end of the line. -/
def EndsPlain (sql : String) : Prop := ∀ x ∈ (Token.proper sql).getLast?, x.kind ≠ .lineComment

section Source

variable {sql : String} {i : Nat}

theorem Token.scan_eq_proper (sql : String) :
    scan sql = proper sql ++ [endMark (Cursor.past {} sql.toList)] := by
  obtain ⟨ts, h, -⟩ := exists_scanFrom_eq {} sql.toList
  have hscan : scan sql = ts ++ [endMark (Cursor.past {} sql.toList)] := h
  rw [proper, hscan, List.dropLast_concat]

theorem Token.proper_ne_eof (sql : String) : ∀ x ∈ proper sql, x.kind ≠ .eof := by
  obtain ⟨ts, h, hkind, -⟩ := exists_scanFrom_eq {} sql.toList
  have hscan : scan sql = ts ++ [endMark (Cursor.past {} sql.toList)] := h
  rwa [proper, hscan, List.dropLast_concat]

theorem EndsPlain.scan_eq (h : EndsPlain sql) : Token.scan (sql ++ ";") = Token.proper sql ++
    [.semicolon (Cursor.past {} sql.toList), .endMark (Cursor.past {} (sql ++ ";").toList)] := by
  have htext : (sql ++ ";").toList = sql.toList ++ [';'] := String.toList_append
  rw [Token.scan, htext, Token.scanFrom_semicolon _ _ h]
  rfl

/-- Numbers of the tokens that the grammar reads, the mark of the end apart. -/
def Token.places (sql : String) : List Nat :=
  ((proper sql).zipIdx.filter fun x ↦ !x.1.kind.isHidden).map (·.2)

theorem visible_eq_places (sql : String) : (Source.ofString sql).visible =
    (Token.places sql ++ [(Token.proper sql).length]).toArray := by
  unfold Source.ofString
  dsimp only
  rw [Token.scan_eq_proper, List.zipIdx_append, List.filter_append, List.map_append]
  simp [Token.places, Token.endMark, Kind.isHidden]

theorem EndsPlain.visible_eq (h : EndsPlain sql) : (Source.ofString (sql ++ ";")).visible =
    (Token.places sql ++ [(Token.proper sql).length, (Token.proper sql).length + 1]).toArray := by
  unfold Source.ofString
  dsimp only
  rw [h.scan_eq, List.zipIdx_append, List.filter_append, List.map_append]
  simp [Token.places, Token.endMark, Token.semicolon, Kind.isHidden]

theorem last_input (sql : String) :
    (Source.ofString sql).input.last = (Token.places sql).length := by
  rw [Input.last, Source.input, Array.size_map, visible_eq_places, List.size_toArray,
    List.length_append, List.length_singleton, Nat.add_sub_cancel]

theorem EndsPlain.last_input (h : EndsPlain sql) : (Source.ofString (sql ++ ";")).input.last =
    (Source.ofString sql).input.last + 1 := by
  rw [PlanCache.last_input sql, Input.last, Source.input, Array.size_map, h.visible_eq,
    List.size_toArray, List.length_append]
  rfl

theorem index_last_input (sql : String) : (Source.ofString sql).index
    (Source.ofString sql).input.last = (Token.proper sql).length := by
  rw [last_input, Source.index, visible_eq_places, Array.getD_eq_getD_getElem?,
    List.getElem?_toArray, List.getElem?_append_right (Nat.le_refl _), Nat.sub_self]
  rfl

/-- The tokens have the numbers that they have without the semicolon, which stands where the mark of
the end was. -/
theorem EndsPlain.index_eq (h : EndsPlain sql) (hi : i ≤ (Source.ofString sql).input.last) :
    (Source.ofString (sql ++ ";")).index i = (Source.ofString sql).index i := by
  rw [PlanCache.last_input] at hi
  rw [Source.index, Source.index, h.visible_eq, visible_eq_places, Array.getD_eq_getD_getElem?,
    Array.getD_eq_getD_getElem?, List.getElem?_toArray, List.getElem?_toArray]
  rcases Nat.lt_or_eq_of_le hi with hlt | rfl
  · rw [List.getElem?_append_left hlt, List.getElem?_append_left hlt]
  · rw [List.getElem?_append_right (Nat.le_refl _), List.getElem?_append_right (Nat.le_refl _),
      Nat.sub_self]
    rfl

theorem index_lt_proper (hi : i < (Source.ofString sql).input.last) :
    (Source.ofString sql).index i < (Token.proper sql).length := by
  rw [← index_last_input]
  have hsize := (closed_ofString sql).size_pos
  refine index_lt_index hi ?_
  unfold Input.last
  omega

end Source

end PlanCache
