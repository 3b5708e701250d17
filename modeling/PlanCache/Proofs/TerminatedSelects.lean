import PlanCache.Proofs.InLists
import PlanCache.Proofs.LoneSelect
import PlanCache.Proofs.SelectWords
import PlanCache.Proofs.Terminators
import PlanCache.Proofs.Transparency

/-!
A select with a semicolon behind it. The semicolon is part of the key of the query but not of the
select, so the two are no longer taken for the same.
-/

namespace PlanCache

/-- A tree with one more token at its end. -/
def Tree.terminated (i : Nat) : Tree → Tree
  | .leaf l error => .leaf l error
  | .node h ts => .node { h with stop := some i } (ts ++ [.leaf (.read i) false])

/-- A text that is one select without errors and without a comment at its end, and that is read in
the same way with a semicolon behind it. -/
structure Terminated (sql : String) : Prop where
  errors : (Parsed.ofString .sqlStmtList sql).errors = []
  select : ∃ h, (Buffer.ofString sql).2.selects = [h] ∧ h.start = 0 ∧
    h.stop.map (· + 1) = some (Source.ofString sql).input.last
  plain : EndsPlain sql
  tree : (Buffer.ofString (sql ++ ";")).2 =
    (Buffer.ofString sql).2.terminated (Source.ofString sql).input.last

theorem Rebuild.shorten_semicolon (cs : List Char) :
    shorten (cs ++ [' ', ';']) = shorten cs ++ [' ', ';'] := by
  have hbars : Bars [' ', ';'] := ⟨by simp, by simp [Text.trimStart, Text.isBlank], fun _ ↦ rfl⟩
  have hlist : Text.substituteAfter inList? 0 cs.getLast? [' ', ';'] = [' ', ';'] := by
    rw [Text.substituteAfter_of_none (inList?_eq_none (by decide) _ _)]
    rfl
  obtain ⟨last, h⟩ := shorten_append cs hbars (by rw [hlist]; exact hbars)
  rw [h, hlist]
  rfl

namespace Buffer

/-- Texts with the placeholder on one of them and the others up to `last` cleared. -/
def cutTexts (first last : Nat) (us : List String) : List String :=
  us.mapIdx fun i t ↦ if i = first then placeholder else if first ≤ i ∧ i ≤ last then "" else t

theorem toList_cut (b : Buffer) (first last : Nat) :
    (b.cut first last).texts.toList = cutTexts first last b.texts.toList := Array.toList_mapIdx

theorem cutTexts_append {first last : Nat} {us : List String} (hf : first < us.length)
    (hl : last < us.length) (tail : List String) :
    cutTexts first last (us ++ tail) = cutTexts first last us ++ tail := by
  unfold cutTexts
  rw [List.mapIdx_append]
  congr 1
  refine List.mapIdx_eq_iff.2 fun i ↦ ?_
  have hne : i + us.length ≠ first := by omega
  have hfar : ¬(first ≤ i + us.length ∧ i + us.length ≤ last) := by omega
  simp [hne, hfar]

/-- Two buffers over a text without and with a semicolon behind it, with the same texts before the
semicolon. The first token is not blank. -/
structure Grown (sql : String) (us : List String) (b c : Buffer) : Prop where
  left : b.source = .ofString sql
  right : c.source = .ofString (sql ++ ";")
  length : us.length = (Token.proper sql).length
  before : b.texts.toList = us ++ ["<EOF>"]
  behind : c.texts.toList = us ++ [";", "<EOF>"]
  ink : ∃ u ∈ us[(Source.ofString sql).index 0]?, Text.allBlank u = false

namespace Grown

variable {sql : String} {us : List String} {b c : Buffer}

theorem cells_eq (h : Grown sql us b c) : b.cells = (Token.proper sql).zip us ++
    [(.endMark (Cursor.past {} sql.toList), "<EOF>")] := by
  have htokens : b.source.tokens.toList = Token.scan sql := by rw [h.left]; rfl
  rw [cells, htokens, h.before, Token.scan_eq_proper, List.zip_append h.length.symm]
  rfl

theorem cells_behind (h : Grown sql us b c) (hplain : EndsPlain sql) :
    c.cells = (Token.proper sql).zip us ++
      [(.semicolon (Cursor.past {} sql.toList), ";"),
        (.endMark (Cursor.past {} (sql ++ ";").toList), "<EOF>")] := by
  have htokens : c.source.tokens.toList = Token.scan (sql ++ ";") := by rw [h.right]; rfl
  rw [cells, htokens, h.behind, hplain.scan_eq, List.zip_append h.length.symm]
  rfl

theorem inked_ne_nil (h : Grown sql us b c) : inked ((Token.proper sql).zip us) ≠ [] := by
  obtain ⟨u, hu, hink⟩ := h.ink
  have hlt : (Source.ofString sql).index 0 < (Token.proper sql).length :=
    h.length ▸ (List.getElem?_eq_some_iff.1 hu).1
  have hcell : ((Token.proper sql).zip us)[(Source.ofString sql).index 0]? =
      some ((Token.proper sql)[(Source.ofString sql).index 0], u) := by
    rw [List.getElem?_zip_eq_some]
    exact ⟨List.getElem?_eq_getElem hlt, hu⟩
  have hkind : ((Token.proper sql)[(Source.ofString sql).index 0]).kind ≠ .eof :=
    Token.proper_ne_eof sql _ (List.getElem_mem hlt)
  have hmem : u ∈ (((Token.proper sql).zip us).filterMap shown?).filter (!Text.allBlank ·) := by
    refine List.mem_filter.2 ⟨List.mem_filterMap.2 ⟨_, List.mem_of_getElem? hcell, ?_⟩, ?_⟩
    · rw [shown?, if_neg (mt beq_iff_eq.1 hkind)]
    · rw [hink]
      rfl
  rw [inked, ne_eq, List.map_eq_nil_iff]
  exact List.ne_nil_of_mem hmem

theorem rebuild_eq (h : Grown sql us b c) (hplain : EndsPlain sql) :
    c.rebuild = b.rebuild ++ " ;" := by
  have hend : inked [(.endMark (Cursor.past {} sql.toList), "<EOF>")] = [] := rfl
  have hbehind : inked [(.semicolon (Cursor.past {} sql.toList), ";"),
      (.endMark (Cursor.past {} (sql ++ ";").toList), "<EOF>")] = [[';']] := by
    have hsemicolon : Text.allBlank ";" = false := by decide
    simp [inked, shown?, Token.semicolon, Token.endMark, hsemicolon]
    decide
  rw [Buffer.rebuild_eq, Buffer.rebuild_eq, h.cells_eq, h.cells_behind hplain, inked_append,
    inked_append, hend, hbehind, List.append_nil,
    Text.unwords_append h.inked_ne_nil (List.cons_ne_nil _ _), Text.unwords_singleton,
    Rebuild.shorten_semicolon, String.ofList_append]

theorem text_eq (h : Grown sql us b c) {i : Nat} (hi : i < (Token.proper sql).length) :
    c.text i = b.text i := by
  rw [← h.length] at hi
  rw [text, text, Array.getD_eq_getD_getElem?, Array.getD_eq_getD_getElem?,
    ← Array.getElem?_toList, ← Array.getElem?_toList, h.before, h.behind,
    List.getElem?_append_left hi, List.getElem?_append_left hi]

theorem leafText (h : Grown sql us b c) (hplain : EndsPlain sql) {l : Leaf}
    (hl : ∀ i, l = .read i → i < (Source.ofString sql).input.last) :
    c.leafText l = b.leafText l := by
  cases l with
  | read i =>
    have hi := hl i rfl
    rw [Buffer.leafText, Buffer.leafText, h.left, h.right, hplain.index_eq (Nat.le_of_lt hi)]
    exact h.text_eq (index_lt_proper hi)
  | missing k => cases k <;> rfl

theorem spacedText (h : Grown sql us b c) (hplain : EndsPlain sql) {hd : Head}
    (hstart : hd.start < (Source.ofString sql).input.last) {j : Nat} (hstop : hd.stop = some j)
    (hj : j < (Source.ofString sql).input.last) : c.spacedText hd = b.spacedText hd := by
  have hfirst := index_lt_proper hstart
  have hlast := index_lt_proper hj
  have hrange : c.range hd = b.range hd := by
    unfold range
    rw [hstop, h.left, h.right]
    dsimp only
    rw [hplain.index_eq (Nat.le_of_lt hstart), hplain.index_eq (Nat.le_of_lt hj)]
  have hbetween : c.between ((Source.ofString sql).index hd.start) ((Source.ofString sql).index j) =
      b.between ((Source.ofString sql).index hd.start) ((Source.ofString sql).index j) := by
    rw [← h.length] at hfirst hlast
    have htail : ∀ tail : List String,
        ((us ++ tail).drop ((Source.ofString sql).index hd.start)).take
            ((Source.ofString sql).index j + 1 - (Source.ofString sql).index hd.start) =
          (us.drop ((Source.ofString sql).index hd.start)).take
            ((Source.ofString sql).index j + 1 - (Source.ofString sql).index hd.start) := by
      intro tail
      rw [List.drop_append_of_le_length (Nat.le_of_lt hfirst), List.take_append_of_le_length]
      rw [List.length_drop]
      omega
    rw [between, between, h.before, h.behind, htail, htail]
  rw [Buffer.spacedText, Buffer.spacedText, rangeText, rangeText, hrange, range, hstop, h.left]
  exact congrArg (fun ts ↦ Except.ok (String.ofList (Text.trim (Text.collapse
    (Text.joinWords ts).toList)))) hbetween

theorem cut (h : Grown sql us b c) {m j : Nat} (hm : m < (Source.ofString sql).input.last)
    (hj : j < (Source.ofString sql).input.last) :
    ∃ vs, Grown sql vs (b.cut ((Source.ofString sql).index m) ((Source.ofString sql).index j))
      (c.cut ((Source.ofString sql).index m) ((Source.ofString sql).index j)) := by
  have hm' := index_lt_proper hm
  have hj' := index_lt_proper hj
  have hfirst : (Source.ofString sql).index 0 ≤ (Source.ofString sql).index m :=
    index_le_index (Nat.zero_le m) (Nat.lt_of_lt_of_le hm (Nat.sub_le _ _))
  obtain ⟨u, hu, hink⟩ := h.ink
  generalize (Source.ofString sql).index m = first at hm' hfirst ⊢
  generalize (Source.ofString sql).index j = last at hj' ⊢
  have hcut := cutTexts_append (h.length ▸ hm') (h.length ▸ hj')
  refine ⟨cutTexts first last us, h.left, h.right, ?_, ?_, ?_, ?_⟩
  · rw [cutTexts, List.length_mapIdx, h.length]
  · rw [toList_cut, h.before, hcut]
  · rw [toList_cut, h.behind, hcut]
  · rw [cutTexts, List.getElem?_mapIdx, hu, Option.map_some]
    refine ⟨_, rfl, ?_⟩
    split
    · decide
    · rw [if_neg (by omega)]
      exact hink

end Grown

end Buffer

namespace Tree

variable {i : Nat}

theorem tokens_terminated {h : Head} {ts : List Tree} :
    ((Tree.node h ts).terminated i).tokens = (Tree.node h ts).tokens ++ [i] := by
  rw [terminated, tokens_node, tokens_node, tokensAll_concat]
  rfl

theorem nodesAll_concat_leaf (ts : List Tree) (l : Leaf) (error : Bool) :
    nodesAll (ts ++ [.leaf l error]) = nodesAll ts := by
  induction ts with
  | nil => rfl
  | cons t ts ih => rw [List.cons_append, nodesAll, ih, nodesAll]

end Tree

namespace Terminated

variable {sql : String}

theorem exists_root (h : Terminated sql) : ∃ head ts, (Buffer.ofString sql).2 = .node head ts ∧
    head.rule = .sqlStmtList ∧ (Tree.node head ts).Derived (Source.ofString sql).input :=
  Parsed.derived_of_errors .sqlStmtList sql h.errors

/-- Without the semicolon and with it all tokens are read but the mark of the end. -/
theorem tokens_eq (h : Terminated sql) :
    (Buffer.ofString sql).2.tokens = List.range (Source.ofString sql).input.last ∧
      (Buffer.ofString (sql ++ ";")).2.tokens =
        List.range (Source.ofString (sql ++ ";")).input.last := by
  have hread : ∀ sql : String, ∃ n m, n ≤ (Source.ofString sql).input.last ∧
      (Buffer.ofString sql).2.tokens = List.range n ++ List.replicate m n ∧
      (0 < m → n = (Source.ofString sql).input.last) := by
    intro sql
    obtain ⟨n, m, hn, -, htokens, heof⟩ := parseKinds_tokens .sql .sqlStmtList (closed_ofString sql)
    have hle : n ≤ (Source.ofString sql).input.last := Nat.le_sub_one_of_lt hn
    refine ⟨n, m, hle, htokens, fun hm ↦ Nat.le_antisymm hle (Nat.le_of_not_lt fun hlt ↦ ?_)⟩
    exact kind_ne_eof hlt (heof hm)
  obtain ⟨n, m, hn, htokens, hlast⟩ := hread sql
  obtain ⟨n', m', hn', htokens', hlast'⟩ := hread (sql ++ ";")
  obtain ⟨head, ts, hroot, -⟩ := h.exists_root
  rw [h.plain.last_input] at hn' hlast' ⊢
  have heq := htokens'
  rw [h.tree, hroot, Tree.tokens_terminated, ← hroot, htokens] at heq
  -- The semicolon is the last token of the tree, so the mark of the end is not in it.
  have hm' : m' = 0 := by
    refine Nat.eq_zero_of_not_pos fun hpos ↦ ?_
    have hends := congrArg List.getLast? heq
    obtain ⟨r, rfl⟩ : ∃ r, m' = r + 1 := ⟨m' - 1, by omega⟩
    rw [List.getLast?_concat, List.replicate_succ', ← List.append_assoc,
      List.getLast?_concat] at hends
    have := hlast' hpos
    have := Option.some.inj hends
    omega
  rw [hm', List.replicate_zero, List.append_nil] at heq htokens'
  have hnodup : (List.range n ++ List.replicate m n ++ [(Source.ofString sql).input.last]).Nodup :=
    heq ▸ List.nodup_range
  have hm : m = 0 := by
    refine Nat.eq_zero_of_not_pos fun hpos ↦ ?_
    rw [List.nodup_append] at hnodup
    refine hnodup.2.2 n ?_ _ (List.mem_singleton.2 rfl) (hlast hpos)
    exact List.mem_append_right _ (List.mem_replicate.2 ⟨by omega, rfl⟩)
  rw [hm, List.replicate_zero, List.append_nil] at heq htokens
  have hlen := congrArg List.length heq
  rw [List.length_append, List.length_range, List.length_range, List.length_singleton] at hlen
  rw [← hlen, List.range_succ] at heq
  have hend := List.cons.inj (List.append_cancel_left heq)
  rw [htokens, htokens', ← hlen, hend.1]
  exact ⟨rfl, rfl⟩

theorem toList_texts {sql : String}
    (h : (Buffer.ofString sql).2.tokens = List.range (Source.ofString sql).input.last) :
    (Buffer.ofString sql).1.texts.toList = (Token.scan sql).map Token.text := by
  have hread : (Parsed.ofString .sqlStmtList sql).ReadThrough := fun i hi ↦ by
    change i ∈ (Buffer.ofString sql).2.tokens
    rw [h]
    exact List.mem_range.2 hi
  change (((Token.scan sql).toArray.take
    (Parsed.ofString .sqlStmtList sql).fetched).map Token.text).toList = _
  rw [hread.fetched_eq]
  simp

/-- The node of the select. -/
theorem exists_node (h : Terminated sql) :
    ∃ x ∈ (Buffer.ofString sql).2.nodes, x.1.rule = .selectCore ∧ x.1.start = 0 := by
  obtain ⟨hd, hs, hstart, -⟩ := h.select
  have hmem : hd ∈ (Buffer.ofString sql).2.selects := hs ▸ List.mem_singleton_self hd
  obtain ⟨x, hx, rfl⟩ := List.mem_map.1 hmem
  obtain ⟨hx, hrule⟩ := List.mem_filter.1 hx
  exact ⟨x, hx, beq_iff_eq.1 hrule, hstart⟩

theorem kind_zero (h : Terminated sql) :
    (Source.ofString sql).input.kind 0 ∈ [.SELECT, .VALUES] := by
  obtain ⟨x, hx, hrule, hstart⟩ := h.exists_node
  have hkind := (select_of_errors h.errors hx hrule).2.1
  rwa [hstart] at hkind

/-- The first token is not blank. -/
theorem ink (h : Terminated sql) : ∃ u ∈ ((Token.proper sql).map Token.text)[
    (Source.ofString sql).index 0]?, Text.allBlank u = false := by
  have hkind := h.kind_zero
  have hin := closed_ofString sql
  have hpos : 0 < (Source.ofString sql).input.last := by
    refine Nat.pos_of_ne_zero fun hzero ↦ ?_
    have heof : (Source.ofString sql).input.kind (Source.ofString sql).input.last = .eof := hin.last
    rw [hzero] at heof
    rw [heof] at hkind
    exact absurd hkind (by decide)
  obtain ⟨⟨y, i⟩, hy⟩ := exists_visible_of_lt hin.size_pos
  have hscan := (Token.mem_solid.1 (List.mem_filter.1 (List.mem_of_getElem? hy)).1).1
  have hindex : (Source.ofString sql).index 0 = i := index_of_visible hy
  have hlt := index_lt_proper hpos
  rw [kind_eq_of_index hin.size_pos (hindex ▸ hscan)] at hkind
  rw [Token.scan_eq_proper, ← hindex, List.getElem?_append_left hlt] at hscan
  refine ⟨y.text, by rw [List.getElem?_map, hscan]; rfl, ?_⟩
  have hmem : y ∈ Token.scan sql := by
    rw [Token.scan_eq_proper]
    exact List.mem_append_left _ (List.mem_of_getElem? hscan)
  exact Token.not_allBlank_of_select hmem hkind

/-- The buffers of the text without and with the semicolon. -/
theorem grown (h : Terminated sql) : Buffer.Grown sql ((Token.proper sql).map Token.text)
    (Buffer.ofString sql).1 (Buffer.ofString (sql ++ ";")).1 where
  left := rfl
  right := rfl
  length := List.length_map _
  before := by
    rw [toList_texts h.tokens_eq.1, Token.scan_eq_proper, List.map_append]
    rfl
  behind := by
    rw [toList_texts h.tokens_eq.2, h.plain.scan_eq, List.map_append]
    rfl
  ink := h.ink

/-- The leaves of a node stand before the mark of the end. -/
theorem leaf_lt (h : Terminated sql) {x : Head × List Tree}
    (hx : x ∈ (Buffer.ofString sql).2.nodes) {i : Nat} {e : Bool}
    (hi : (.read i, e) ∈ Tree.leavesAll x.2) : i < (Source.ofString sql).input.last := by
  have hmem : i ∈ (Buffer.ofString sql).2.tokens :=
    List.mem_filterMap.2 ⟨_, Tree.mem_leaves_of_below hx hi, rfl⟩
  rwa [h.tokens_eq.1, List.mem_range] at hmem

/-- A node that holds a token begins and stops before the mark of the end. -/
theorem edges (h : Terminated sql) {x : Head × List Tree}
    (hx : x ∈ (Buffer.ofString sql).2.nodes) {i : Nat} {e : Bool}
    (hi : (.read i, e) ∈ Tree.leavesAll x.2) :
    x.1.start < (Source.ofString sql).input.last ∧
      ∃ j < (Source.ofString sql).input.last, x.1.stop = some j := by
  have hlt : ∀ k ∈ Tree.tokensAll x.2, k < (Source.ofString sql).input.last := by
    intro k hk
    obtain ⟨⟨l, e⟩, hl, htoken⟩ := List.mem_filterMap.1 hk
    cases l with
    | read k' =>
      obtain rfl := Option.some.inj htoken
      exact h.leaf_lt hx hl
    | missing _ => cases htoken
  obtain ⟨b, m, hstart, -, hstop, htokens, heof⟩ :=
    parseKinds_fills .sql .sqlStmtList (closed_ofString sql) x hx
  have hmem : i ∈ Tree.tokensAll x.2 := List.mem_filterMap.2 ⟨_, hi, rfl⟩
  rw [htokens] at hlt hmem
  have hm : m = 0 := by
    refine Nat.eq_zero_of_not_pos fun hpos ↦ ?_
    have hb := hlt b (List.mem_append_right _ (List.mem_replicate.2 ⟨by omega, rfl⟩))
    exact kind_ne_eof hb (heof hpos)
  rw [hm, List.replicate_zero, List.append_nil] at hlt hmem
  have hin := List.mem_range'_1.1 hmem
  have hend := hlt (b - 1) (List.mem_range'_1.2 ⟨by omega, by omega⟩)
  refine ⟨by omega, b - 1, hend, ?_⟩
  rw [hstop, Tree.lastBefore, if_neg (by omega)]

/-- A node that is replaced holds a token. -/
theorem exists_leaf_of_replaces (h : Terminated sql) {x : Head × List Tree}
    (hx : x ∈ (Buffer.ofString sql).2.nodes) {b : Buffer} (hr : b.replaces x = true) :
    ∃ i e, (.read i, e) ∈ Tree.leavesAll x.2 := by
  obtain ⟨head, ts, hroot, -, hderived⟩ := h.exists_root
  rw [← hroot] at hderived
  by_cases hvalue : x.1.rule = .literalValue
  · obtain ⟨i, hi, -⟩ := hderived.literalValue hx hvalue
    exact ⟨i, false, by rw [hi, Tree.leavesAll_leaf]; exact List.mem_cons_self⟩
  · refine Classical.byContradiction fun hnone ↦ ?_
    rw [Buffer.replaces_of_missing hvalue fun i e hi ↦ hnone ⟨i, e, hi⟩] at hr
    cases hr

section Pass

variable {x : Head × List Tree} {us : List String} {b c : Buffer} {p q : Replaced}

theorem nodeText_eq (h : Terminated sql) (hg : Buffer.Grown sql us b c)
    (hx : x ∈ (Buffer.ofString sql).2.nodes) : c.nodeText x.2 = b.nodeText x.2 := by
  unfold Buffer.nodeText
  refine congrArg String.join (List.map_congr_left fun ⟨l, e⟩ hl ↦ ?_)
  refine hg.leafText h.plain fun i hi ↦ ?_
  rw [hi] at hl
  exact h.leaf_lt hx hl

theorem replaces_eq (h : Terminated sql) (hg : Buffer.Grown sql us b c)
    (hx : x ∈ (Buffer.ofString sql).2.nodes) : c.replaces x = b.replaces x := by
  unfold Buffer.replaces Buffer.lowerText
  rw [h.nodeText_eq hg hx]

/-- The semicolon takes no part in the replacement of a node. -/
theorem step (h : Terminated sql) (hx : x ∈ (Buffer.ofString sql).2.nodes)
    (hg : Buffer.Grown sql us p.buffer q.buffer) : ∃ p' q' vs, p.step x.1 x.2 = .ok p' ∧
      q.step x.1 x.2 = .ok q' ∧ Buffer.Grown sql vs p'.buffer q'.buffer := by
  obtain ⟨noted, hp⟩ := p.exists_step_eq x
  obtain ⟨noted', hq⟩ := q.exists_step_eq x
  rw [h.replaces_eq hg hx] at hq
  cases hr : p.buffer.replaces x with
  | false =>
    rw [hr, if_neg Bool.false_ne_true] at hp hq
    exact ⟨p, q, us, hp, hq, hg⟩
  | true =>
    obtain ⟨i, e, hi⟩ := h.exists_leaf_of_replaces hx hr
    obtain ⟨hstart, j, hj, hstop⟩ := h.edges hx hi
    obtain ⟨vs, hvs⟩ := hg.cut hstart hj
    rw [hr, if_pos rfl, Replaced.cut, Buffer.cutNode_of_stop hstop] at hp hq
    rw [hg.left] at hp
    rw [hg.right, h.plain.index_eq (Nat.le_of_lt hstart), h.plain.index_eq (Nat.le_of_lt hj)] at hq
    exact ⟨_, _, vs, hp, hq, hvs⟩

theorem passNodes (h : Terminated sql) {nodes : List (Head × List Tree)}
    (hnodes : ∀ x ∈ nodes, x ∈ (Buffer.ofString sql).2.nodes)
    (hg : Buffer.Grown sql us p.buffer q.buffer) :
    ∃ p' q' vs, PlanCache.passNodes Replaced.step p nodes = .ok p' ∧
      PlanCache.passNodes Replaced.step q nodes = .ok q' ∧
      Buffer.Grown sql vs p'.buffer q'.buffer := by
  induction nodes generalizing p q us with
  | nil => exact ⟨p, q, us, rfl, rfl, hg⟩
  | cons x nodes ih =>
    rw [List.forall_mem_cons] at hnodes
    obtain ⟨p₁, q₁, vs, hp, hq, hg₁⟩ := h.step hnodes.1 hg
    rw [PlanCache.passNodes, PlanCache.passNodes, hp, hq]
    exact ih hnodes.2 hg₁

end Pass

/-- The nodes of the two trees are the same but for the root. -/
theorem exists_nodes (h : Terminated sql) : ∃ r r' nodes,
    (Buffer.ofString sql).2.nodes = r :: nodes ∧
      (Buffer.ofString (sql ++ ";")).2.nodes = r' :: nodes ∧
      r.1.rule = .sqlStmtList ∧ r'.1.rule = .sqlStmtList := by
  obtain ⟨head, ts, hroot, hrule, -⟩ := h.exists_root
  have hnodes : (Buffer.ofString (sql ++ ";")).2.nodes =
      ({ head with stop := some (Source.ofString sql).input.last },
        ts ++ [.leaf (.read (Source.ofString sql).input.last) false]) :: Tree.nodesAll ts := by
    rw [h.tree, hroot, Tree.terminated, Tree.nodes, Tree.nodesAll_concat_leaf]
  exact ⟨(head, ts), _, Tree.nodesAll ts, by rw [hroot]; rfl, hnodes, hrule, hrule⟩

theorem replaceLiterals (h : Terminated sql) : ∃ p q vs,
    (Buffer.ofString sql).1.replaceLiterals (Buffer.ofString sql).2 = .ok p ∧
      (Buffer.ofString (sql ++ ";")).1.replaceLiterals (Buffer.ofString (sql ++ ";")).2 = .ok q ∧
      Buffer.Grown sql vs p.buffer q.buffer := by
  obtain ⟨⟨r, ts⟩, ⟨r', ts'⟩, nodes, hnodes, hnodes', hr, hr'⟩ := h.exists_nodes
  dsimp only at hr hr'
  have hskip : ∀ (p : Replaced) {r : Head}, r.rule = .sqlStmtList → ∀ ts, p.step r ts = .ok p :=
    fun p r hr ↦ Replaced.step_of_other (by rw [hr]; decide) (by rw [hr]; decide)
      (by rw [hr]; decide)
  have hbelow : ∀ x ∈ nodes, x ∈ (Buffer.ofString sql).2.nodes := fun x hx ↦
    hnodes ▸ List.mem_cons_of_mem _ hx
  obtain ⟨p, q, vs, hp, hq, hg⟩ := h.passNodes hbelow
    (p := ⟨(Buffer.ofString sql).1, []⟩) (q := ⟨(Buffer.ofString (sql ++ ";")).1, []⟩) h.grown
  refine ⟨p, q, vs, ?_, ?_, hg⟩
  · rw [Buffer.replaceLiterals, hnodes, PlanCache.passNodes, hskip _ hr]
    exact hp
  · rw [Buffer.replaceLiterals, hnodes', PlanCache.passNodes, hskip _ hr']
    exact hq

theorem selects_eq (h : Terminated sql) :
    (Buffer.ofString (sql ++ ";")).2.selects = (Buffer.ofString sql).2.selects := by
  obtain ⟨⟨r, ts⟩, ⟨r', ts'⟩, nodes, hnodes, hnodes', hr, hr'⟩ := h.exists_nodes
  dsimp only at hr hr'
  rw [Tree.selects, Tree.selects, hnodes, hnodes',
    List.filter_cons_of_neg (by simp [hr']), List.filter_cons_of_neg (by simp [hr])]

theorem literals_eq (h : Terminated sql) :
    (Buffer.ofString (sql ++ ";")).1.literals (Buffer.ofString (sql ++ ";")).2 =
      (Buffer.ofString sql).1.literals (Buffer.ofString sql).2 := by
  obtain ⟨⟨r, ts⟩, ⟨r', ts'⟩, nodes, hnodes, hnodes', hr, hr'⟩ := h.exists_nodes
  dsimp only at hr hr'
  rw [Buffer.literals, Buffer.literals, hnodes, hnodes',
    List.filterMap_cons_none (by simp [Buffer.literal?, hr']),
    List.filterMap_cons_none (by simp [Buffer.literal?, hr])]
  refine List.filterMap_congr fun x hx ↦ ?_
  obtain ⟨head, us⟩ := x
  have htext := h.nodeText_eq h.grown (hnodes ▸ List.mem_cons_of_mem _ hx)
  unfold Buffer.literal? Buffer.lowerText
  dsimp only at htext ⊢
  rw [htext]

theorem subqueries_eq (h : Terminated sql) :
    (Buffer.ofString (sql ++ ";")).1.subqueries (Buffer.ofString (sql ++ ";")).2 =
      (Buffer.ofString sql).1.subqueries (Buffer.ofString sql).2 := by
  obtain ⟨hd, hs, hstart, hstop⟩ := h.select
  obtain ⟨j, hj, hlast⟩ := Option.map_eq_some_iff.1 hstop
  have hs' := h.selects_eq.trans hs
  have hfirst : hd.start < (Source.ofString sql).input.last := by omega
  have hspaced := h.grown.spacedText h.plain hfirst hj (by omega)
  rw [Buffer.subqueries, Buffer.subqueries, Tree.leafSelects_of_selects hs,
    Tree.leafSelects_of_selects hs', List.mapM_cons, List.mapM_cons, hspaced]
  rfl

end Terminated

/-- The normal form of a query with a semicolon behind it. -/
def Normal.terminated (n : Normal) : Normal :=
  { n with full := n.full ++ " ;", outer := n.outer ++ " ;" }

theorem Normal.full_ne_terminated (n : Normal) : n.full ≠ n.terminated.full := by
  intro h
  have hlen := congrArg String.length h
  rw [terminated, String.length_append] at hlen
  exact absurd hlen (Nat.ne_of_lt (Nat.lt_add_of_pos_right (by decide)))

theorem Normal.not_plain_terminated {n : Normal} (h : n.leaves = [n.full]) :
    ¬n.terminated.Plain := by
  rintro (hp | hp)
  · exact n.full_ne_terminated (List.cons.inj (h.symm.trans hp)).1
  · exact List.cons_ne_nil _ _ (h.symm.trans hp)

/-- The semicolon is in the texts of the whole query and not in those of its select. -/
theorem Terminated.ofString {sql : String} (h : Terminated sql) {n : Normal}
    (hn : Normal.ofString sql = .ok n) : Normal.ofString (sql ++ ";") = .ok n.terminated := by
  obtain ⟨p, q, vs, hp, hq, hg⟩ := h.replaceLiterals
  obtain ⟨hd, hselects, -⟩ := h.select
  obtain ⟨-, queries, keys, -, -, hqueries, hkeys, -, -⟩ := Normal.ofString_eq_ok hn
  obtain ⟨m, hm, hbuffer⟩ := Buffer.maskNested_of_selects hselects p.buffer
  obtain ⟨m', hm', hbuffer'⟩ := Buffer.maskNested_of_selects (h.selects_eq.trans hselects) q.buffer
  rw [Normal.ofString_eq_ofKeys (Prod.eta _).symm hqueries hkeys, Normal.ofKeys, hp] at hn
  rw [Normal.ofString_eq_ofKeys (Prod.eta _).symm (h.subqueries_eq.trans hqueries) hkeys,
    Normal.ofKeys, hq]
  simp only [Halt.result, bind, Except.bind, pure, Except.pure, hm] at hn
  simp only [Halt.result, bind, Except.bind, pure, Except.pure, hm']
  rw [← Except.ok.inj hn, Normal.terminated, hbuffer', hbuffer, hg.rebuild_eq h.plain,
    h.literals_eq]

namespace Cache

variable {c : Cache} {n : Normal} {sql : String}

/-- One request more, which a stored plan answers. -/
theorem lookup?_eq_some_iff_answer {plan : Plan} : c.lookup? n.full = some plan ↔
    (c.answer n).2.requests = c.requests + 1 ∧ (c.answer n).2.hits = c.hits + 1 ∧
      (c.answer n).2.misses = c.misses ∧ (c.answer n).1.plan = plan := by
  have hgather : ∀ (g : Gathered) select, c.misses ≤ g.cache.misses →
      c.misses ≤ (gather g select).cache.misses := by
    intro g select hg
    cases hl : g.cache.lookup? select with
    | some plan => rw [gather_stored hl]; exact hg
    | none => rw [gather_missing hl]; exact Nat.le_succ_of_le hg
  rcases answer_cases c n with ⟨plan', hl, ha⟩ | ⟨hl, -, ha⟩ | ⟨hl, -, ha⟩
  · rw [hl, ha]
    exact ⟨fun h ↦ ⟨rfl, rfl, rfl, Option.some.inj h⟩, fun h ↦ congrArg some h.2.2.2⟩
  · rw [hl, ha]
    exact ⟨fun h ↦ absurd h.symm (Option.some_ne_none _),
      fun h ↦ absurd h.2.2.1 (Nat.succ_ne_self _)⟩
  · rw [hl, ha]
    have hmisses : c.misses < (c.nested n).2.misses := Nat.lt_succ_of_le
      (fold_gather_invariant (P := fun g ↦ c.misses ≤ g.cache.misses) hgather n.leaves
        (Nat.le_refl _))
    exact ⟨fun h ↦ absurd h.symm (Option.some_ne_none _),
      fun h ↦ absurd h.2.2.1 (Nat.ne_of_gt hmisses)⟩

/-- A cache that is asked `sql` answers another query right after it by one request, with the same
plan, which was stored. -/
def Repeats (c : Cache) (sql sql' : String) : Prop :=
  ∃ a c' a' c'', c.fetch sql = .ok (a, c') ∧ c'.fetch sql' = .ok (a', c'') ∧
    c''.requests = c'.requests + 1 ∧ c''.hits = c'.hits + 1 ∧ c''.misses = c'.misses ∧
    a'.plan = a.plan

theorem repeats_iff {sql' : String} {m : Normal} (hn : Normal.ofString sql = .ok n)
    (hm : Normal.ofString sql' = .ok m) :
    c.Repeats sql sql' ↔ (c.answer n).2.lookup? m.full = some (c.answer n).1.plan := by
  rw [lookup?_eq_some_iff_answer]
  constructor
  · rintro ⟨a, c', a', c'', ha, ha', h⟩
    have hfirst : c.answer n = (a, c') := Except.ok.inj ((fetch_of_ok hn).symm.trans ha)
    have hsecond : c'.answer m = (a', c'') := Except.ok.inj ((fetch_of_ok hm).symm.trans ha')
    rw [hfirst, hsecond]
    exact h
  · intro h
    exact ⟨_, _, _, _, fetch_of_ok hn, fetch_of_ok hm, h⟩

/-- A query that has been answered has its plan under its text. -/
theorem answer_get?_full (c : Cache) (n : Normal) :
    (c.answer n).2.plans.get? n.full = some (c.answer n).1.plan := by
  cases hl : c.lookup? n.full with
  | some plan =>
    rw [answer_stored hl]
    exact get?_of_lookup? hl
  | none => rw [answer_get?_of_missing hl, if_pos rfl]

/-- A query without other selects changes no other key. -/
theorem answer_get?_of_lone (hn : n.leaves = [n.full]) {key : String} (hk : n.full ≠ key) :
    (c.answer n).2.plans.get? key = c.plans.get? key := by
  cases hl : c.lookup? n.full with
  | some plan => rw [answer_stored hl, hit_plans]
  | none =>
    rw [answer_get?_of_missing hl, if_neg hk, if_neg]
    rw [hn, List.mem_singleton]
    exact Ne.symm hk

/-- A query around one select whose plan is stored: a hit for the select and a miss for the rest. -/
theorem answer_around {select : String} {plan : Plan} (hn : Normal.ofString sql = .ok n)
    (hleaves : n.leaves = [select]) (hplain : ¬n.Plain) (hl : c.lookup? n.full = none)
    (hs : c.lookup? select = some plan) :
    (c.answer n).2.requests = c.requests + 2 ∧ (c.answer n).2.hits = c.hits + 1 ∧
      (c.answer n).2.misses = c.misses + 1 ∧
      (c.answer n).1.plan = .table [(cutOut select n.full, .text (planText (cutOut select n.full))),
        (innerKey, .table [(select, plan)])] := by
  have hplan : (c.answer n).1.plan = n.planWith c.found := by
    rw [answer_plan_of_missing hn hl, if_neg hplain]
  have hfound : c.found select = plan := by rw [found, hs, Option.getD_some]
  rw [Normal.planWith, Normal.rest, hleaves, List.foldl_cons, List.foldl_nil, List.map_singleton,
    hfound] at hplan
  refine ⟨?_, ?_, ?_, hplan⟩ <;>
    rw [answer_nested hl hplain, nested, hleaves, List.foldl_cons, List.foldl_nil, gather_stored hs]
  · rfl
  · rfl
  · rfl

/-- A semicolon makes another query of a select: it is answered with the plan of the select only if
this plan is stored under its own text too. As long as nothing is stored there, the select is taken
for an inner one, so that there are a hit for it and a miss for the semicolon. -/
theorem repeats_terminated_iff (sql : String) (h : Terminated sql) (c : Cache)
    (hc : c.enabled = true) :
    (Unbroken sql → ∃ n, Normal.ofString sql = .ok n ∧ n.leaves = [n.full]) ∧
    ∀ n, Normal.ofString sql = .ok n → Normal.ofString (sql ++ ";") = .ok n.terminated ∧
      ∃ a c', c.fetch sql = .ok (a, c') ∧
        (c.Repeats sql (sql ++ ";") ↔ c'.plans.get? n.terminated.full = some a.plan) ∧
        (n.leaves = [n.full] →
          c'.plans.get? n.terminated.full = c.plans.get? n.terminated.full ∧
          (c.plans.get? n.terminated.full = none →
            ∃ a' c'', c'.fetch (sql ++ ";") = .ok (a', c'') ∧
              c''.requests = c'.requests + 2 ∧ c''.hits = c'.hits + 1 ∧
              c''.misses = c'.misses + 1 ∧
              a'.plan = .table [(n.terminated.rest, .text (planText n.terminated.rest)),
                (innerKey, .table [(n.full, a.plan)])])) := by
  refine ⟨fun hu ↦ LoneSelect.ofString ⟨hu, h.select⟩, fun n hn ↦ ?_⟩
  have hn' := h.ofString hn
  have hlookup : ∀ key, (c.answer n).2.lookup? key = (c.answer n).2.plans.get? key :=
    lookup?_of_enabled ((answer_enabled c n).trans hc)
  refine ⟨hn', (c.answer n).1, (c.answer n).2, fetch_of_ok hn, ?_, fun hleaves ↦ ?_⟩
  · rw [repeats_iff hn hn', hlookup]
  have hsame := answer_get?_of_lone (c := c) hleaves n.full_ne_terminated
  refine ⟨hsame, fun hnone ↦ ⟨((c.answer n).2.answer n.terminated).1,
    ((c.answer n).2.answer n.terminated).2, fetch_of_ok hn', ?_⟩⟩
  have hrest : n.terminated.rest = cutOut n.full n.terminated.full := by
    rw [Normal.rest, Normal.terminated, hleaves]
    rfl
  rw [hrest]
  refine answer_around hn' hleaves (Normal.not_plain_terminated hleaves) ?_ ?_
  · rw [hlookup, hsame, hnone]
  · rw [hlookup, answer_get?_full]

end Cache

theorem parsed_star_semicolon :
    parsed #[.SELECT, .star, .semicolon, .eof] = ((Tree.select 1 [.starColumn 1]).terminated 2, 3) ∧
      (parseKinds .sql .sqlStmtList #[.SELECT, .star, .eof]).reports.isEmpty = true := by
  decide +kernel

theorem endsPlain_star : EndsPlain "SELECT *" := by
  unfold EndsPlain Token.proper
  rw [scan_star]
  decide

theorem unbroken_star : Unbroken "SELECT *" := by
  constructor <;> rw [scan_star] <;> decide

theorem terminated_star : Terminated "SELECT *" := by
  have hinput : (Source.ofString "SELECT *").input = #[.SELECT, .star, .eof] :=
    Source.input_of_scan scan_star rfl
  have hbuffer := Buffer.ofString_of_scan scan_star rfl parsed_star
  have hscan := endsPlain_star.scan_eq
  rw [Token.proper, scan_star] at hscan
  have hbuffer' := Buffer.ofString_of_scan hscan rfl parsed_star_semicolon.1
  refine ⟨?_, ?_, endsPlain_star, ?_⟩
  · unfold Parsed.errors Parsed.ofString
    dsimp only
    rw [hinput, List.isEmpty_iff.1 parsed_star_semicolon.2, List.map_nil]
  · rw [hbuffer, hinput]
    exact ⟨_, rfl, rfl, rfl⟩
  · rw [hbuffer', hbuffer, hinput]
    rfl

namespace Cache

/-- A new cache that has been asked for a select has nothing stored for it with a semicolon. -/
theorem repeats_terminated_iff_star : Terminated "SELECT *" ∧ ({} : Cache).enabled = true ∧
    ∃ n a c a' c', Normal.ofString "SELECT *" = .ok n ∧ ({} : Cache).fetch "SELECT *" = .ok (a, c) ∧
      c.fetch ("SELECT *" ++ ";") = .ok (a', c') ∧ c'.requests = c.requests + 2 ∧
      c'.hits = c.hits + 1 ∧ c'.misses = c.misses + 1 ∧
      a'.plan = .table [(n.terminated.rest, .text (planText n.terminated.rest)),
        (innerKey, .table [(n.full, a.plan)])] := by
  refine ⟨terminated_star, rfl, ?_⟩
  obtain ⟨hlone, hall⟩ := repeats_terminated_iff "SELECT *" terminated_star {} rfl
  obtain ⟨n, hn, hleaves⟩ := hlone unbroken_star
  obtain ⟨-, a, c, ha, -, hnew⟩ := hall n hn
  obtain ⟨a', c', hc⟩ := (hnew hleaves).2 rfl
  exact ⟨n, a, c, a', c', hn, ha, hc⟩

/-- Asked for a select and right after it for the same one with a semicolon, a new cache does not
answer from what it has stored. -/
theorem not_repeats_terminated :
    Terminated "SELECT *" ∧ Reachable {} ∧ ({} : Cache).enabled = true ∧
      ¬({} : Cache).Repeats "SELECT *" ("SELECT *" ++ ";") := by
  refine ⟨terminated_star, ⟨[], rfl⟩, rfl, ?_⟩
  obtain ⟨n, hn, hleaves⟩ := LoneSelect.ofString ⟨unbroken_star, terminated_star.select⟩
  rw [repeats_iff hn (terminated_star.ofString hn),
    lookup?_of_enabled (answer_enabled ({} : Cache) n),
    answer_get?_of_lone hleaves n.full_ne_terminated]
  exact (Option.some_ne_none _).symm

end Cache

end PlanCache
