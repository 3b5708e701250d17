import PlanCache.Proofs.ClearLiterals

/-!
How selects begin. In a text without errors a select stands over a word, `SELECT` or `VALUES`, which
is not blank.
-/

namespace PlanCache

namespace Tree

variable {input : Input} {t : Tree} {x : Head × List Tree} {w : List Symbol} {k : Kind}

/-- A node that begins with a token. -/
theorem Derived.first_leaf (h : t.Derived input) (hx : x ∈ t.nodes)
    (hw : x.2.map (symbol input) = .kind k :: w) :
    ∃ i rest, leavesAll x.2 = (.read i, false) :: rest ∧ input.kind i = k := by
  obtain ⟨u, us, hu, hsymbol, -⟩ := List.map_eq_cons_iff.1 hw
  obtain ⟨i, rfl, hkind⟩ := exists_leaf_of_symbol hsymbol
    (h.leaves_below hx u (hu ▸ List.mem_cons_self))
  exact ⟨i, leavesAll us, by rw [hu, leavesAll_leaf], hkind⟩

/-- A select begins with a word of its own. -/
theorem Derived.selectCore (h : t.Derived input) (hx : x ∈ t.nodes)
    (hr : x.1.rule = .selectCore) : ∃ i rest, leavesAll x.2 = (.read i, false) :: rest ∧
      input.kind i ∈ [.SELECT, .VALUES] := by
  have hw := h.nodes x hx
  rw [hr, Rule.mem_words_of_operators_nil rfl] at hw
  obtain ⟨parts, hparts, hw⟩ := hw
  have hcases : (∃ rest, parts = .ofKind .SELECT :: rest) ∨ parts = [.ofRule .valuesClause] := by
    rcases List.mem_cons.1 hparts with hparts | hparts
    · exact .inl ⟨_, hparts⟩
    · exact .inr (List.mem_singleton.1 hparts)
  rcases hcases with ⟨rest, rfl⟩ | rfl
  · obtain ⟨v, -, hv⟩ := Rule.mem_wordsSeq_kind hw
    obtain ⟨i, rest, hleaves, hkind⟩ := h.first_leaf hx hv
    exact ⟨i, rest, hleaves, by rw [hkind]; decide⟩
  · obtain ⟨v, hnil, hv⟩ := Rule.mem_wordsSeq_rule hw
    rw [(hnil : v = [])] at hv
    obtain ⟨u, hu, hsymbol⟩ := List.map_eq_singleton_iff.1 hv
    obtain ⟨head, us, rfl, hvalues⟩ := exists_node_of_symbol hsymbol
    have hmem : (head, us) ∈ t.nodes := mem_nodes_of_below hx (by
      rw [hu, nodesAll_node]
      exact List.mem_cons_self)
    have hw := h.nodes _ hmem
    rw [hvalues, Rule.mem_words_of_operators_nil rfl] at hw
    obtain ⟨parts, hparts, hw⟩ := hw
    rw [List.mem_singleton.1 hparts] at hw
    obtain ⟨v, -, hv⟩ := Rule.mem_wordsSeq_kind hw
    obtain ⟨i, rest, hleaves, hkind⟩ := h.first_leaf hmem hv
    refine ⟨i, rest, ?_, by rw [hkind]; decide⟩
    rw [hu, leavesAll_node, hleaves]
    exact List.append_nil _

end Tree

section Script

variable {sql : String} {x : Head × List Tree}

/-- In a text without errors a select stands over the word that it begins with. -/
theorem select_of_errors (h : (Parsed.ofString .sqlStmtList sql).errors = [])
    (hx : x ∈ (Buffer.ofString sql).2.nodes) (hr : x.1.rule = .selectCore) :
    x.1.start < (Source.ofString sql).input.size ∧
      (Source.ofString sql).input.kind x.1.start ∈ [.SELECT, .VALUES] ∧
      x.1.holds (Source.ofString sql) ((Source.ofString sql).index x.1.start) = true := by
  obtain ⟨head, ts, htree, -, hderived⟩ := Parsed.derived_of_errors .sqlStmtList sql h
  rw [← htree] at hderived
  change (Buffer.ofString sql).2.Derived (Source.ofString sql).input at hderived
  obtain ⟨i, rest, hleaves, hkind⟩ := hderived.selectCore hx hr
  obtain ⟨e, m, hle, he, hstop, htokens, heof⟩ :=
    parseKinds_fills .sql .sqlStmtList (closed_ofString sql) x hx
  have hfirst : (Tree.tokensAll x.2).head? = some i := by
    rw [Tree.tokensAll, hleaves]
    rfl
  -- A node without a token of its own could only hold the mark of the end.
  have hlt : x.1.start < e := by
    apply Nat.lt_of_le_of_ne hle
    intro heq
    rw [htokens, heq, Nat.sub_self, List.range'_zero, List.nil_append,
      List.head?_replicate] at hfirst
    split at hfirst
    · cases hfirst
    · rename_i hm
      obtain rfl := Option.some.inj hfirst
      rw [heof (Nat.pos_of_ne_zero hm)] at hkind
      exact absurd hkind (by decide)
  have hi : i = x.1.start := by
    obtain ⟨n, hn⟩ : ∃ n, e - x.1.start = n + 1 := ⟨e - x.1.start - 1, by omega⟩
    rw [htokens, hn, List.range'_succ] at hfirst
    exact (Option.some.inj hfirst).symm
  rw [hi] at hkind
  have hsize : x.1.start < (Source.ofString sql).input.size := Nat.lt_trans hlt he
  exact ⟨hsize, hkind, (Fills.holds_iff hle he hstop hsize).2 ⟨Nat.le_refl _, hlt⟩⟩

/-- A word with one spelling is not blank. -/
theorem Token.not_allBlank_of_spelling {y : Token} (hy : y ∈ Token.scan sql) {w : String}
    (hk : y.kind.spelling = some w) (hw : w.toList.any (fun c ↦ !Text.isBlank c.toLower) = true) :
    Text.allBlank y.text = false := by
  rcases Token.fits_of_mem_scanFrom {} sql.toList hy with he | he | hfits
  · rw [he] at hk
    cases hk
  · rw [he] at hk
    cases hk
  · have hlower := LexRule.toLower_of_fits hk hfits
    rw [Bool.eq_false_iff]
    intro hblank
    obtain ⟨c, hc, hink⟩ := List.any_eq_true.1 hw
    have hmem : c.toLower ∈ y.text.toList.map Char.toLower := by
      rw [hlower]
      exact List.mem_map_of_mem hc
    obtain ⟨d, hd, hdc⟩ := List.mem_map.1 hmem
    have hd' := List.all_eq_true.1 hblank d hd
    rw [← Text.isBlank_toLower, hdc] at hd'
    rw [hd'] at hink
    cases hink

theorem Token.not_allBlank_of_select {y : Token} (hy : y ∈ Token.scan sql)
    (hk : y.kind ∈ [.SELECT, .VALUES]) : Text.allBlank y.text = false := by
  simp only [List.mem_cons, List.not_mem_nil, or_false] at hk
  rcases hk with hk | hk
  · exact not_allBlank_of_spelling hy (w := "SELECT") (by rw [hk]; rfl) (by decide)
  · exact not_allBlank_of_spelling hy (w := "VALUES") (by rw [hk]; rfl) (by decide)

/-- In a text without errors a select stands over a token that is not blank. -/
theorem exists_ink_of_errors (h : (Parsed.ofString .sqlStmtList sql).errors = [])
    (hx : x ∈ (Buffer.ofString sql).2.nodes) (hr : x.1.rule = .selectCore) :
    ∃ i, x.1.holds (Source.ofString sql) i = true ∧
      Text.allBlank ((Buffer.ofString sql).1.text i) = false := by
  obtain ⟨hsize, hkind, hholds⟩ := select_of_errors h hx hr
  have hread : (Source.ofString sql).index x.1.start ≤ lastRead sql :=
    Nat.le_of_lt_succ (Fills.lt_fetched hx hholds)
  obtain ⟨y, hy, hy', htext⟩ := exists_token hsize
  refine ⟨_, hholds, ?_⟩
  rw [htext, if_pos hread]
  exact Token.not_allBlank_of_select hy (hy' ▸ hkind)

end Script

end PlanCache
