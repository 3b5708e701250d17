import PlanCache.Proofs.Derivations
import PlanCache.Proofs.LiteralLists
import PlanCache.Proofs.Sweeps

/-!
Literals of a text without errors. A literal value and a name in double quotes are one token each,
by the rules of the grammar and of the tokens. So of such a text only those truth values are listed
otherwise than they are replaced which the grammar reads as expressions too.
-/

namespace PlanCache

/-- No token but a name or a stray character begins with a double quote. -/
theorem LexRule.head?_ne_quote {k : Kind} {cs : List Char} (hk : k ≠ .identifier)
    (hk' : k ≠ .stray) (h : Fits k cs) : cs ≠ [] ∧ cs.head? ≠ some '"' := by
  obtain ⟨r, hr, rfl, hfits⟩ := h
  have haccepts : r.Accepts cs [] := hfits.imp_right (And.intro rfl)
  refine ⟨haccepts.ne_nil hr, fun hhead ↦ ?_⟩
  obtain ⟨rest, rfl⟩ := List.head?_eq_some_iff.1 hhead
  have hopens : Opens ('"' :: rest) ⟨.quote '"', .identifier⟩ rest :=
    opens_iff.2 (.inl ⟨_, List.mem_cons_self, rfl, rfl⟩)
  exact (haccepts.kind_of_opens hr hopens).elim hk hk'

/-- Children of a node that is one literal value. -/
def isValue : List Tree → Bool
  | [.node h _] => h.rule == .literalValue
  | _ => false

theorem exists_of_isValue {ts : List Tree} (h : isValue ts = true) :
    ∃ head us, ts = [.node head us] ∧ head.rule = .literalValue := by
  unfold isValue at h
  split at h
  · exact ⟨_, _, rfl, beq_iff_eq.1 h⟩
  · cases h

namespace Tree

variable {input : Input} {ts : List Tree} {x : Head × List Tree}

/-- A child that is a token. -/
theorem exists_leaf_of_symbol {t : Tree} {k : Kind} (h : t.symbol input = .kind k)
    (hl : ∀ l ∈ t.leaves, l.2 = false ∧ ∃ i, l.1 = .read i) :
    ∃ i, t = .leaf (.read i) false ∧ input.kind i = k := by
  cases t with
  | node head us => cases h
  | leaf l error =>
    rw [leaves] at hl
    obtain ⟨herror, i, hi⟩ := hl _ (List.mem_singleton.2 rfl)
    dsimp only at herror hi
    subst herror hi
    exact ⟨i, rfl, Symbol.kind.inj h⟩

/-- A child that is a node. -/
theorem exists_node_of_symbol {t : Tree} {r : Rule} (h : t.symbol input = .rule r) :
    ∃ head us, t = .node head us ∧ head.rule = r := by
  cases t with
  | node head us => exact ⟨head, us, rfl, Symbol.rule.inj h⟩
  | leaf l error => cases l <;> cases h

theorem mem_nodes_of_below {t : Tree} {y : Head × List Tree} (hx : x ∈ t.nodes)
    (hy : y ∈ nodesAll x.2) : y ∈ t.nodes := by
  rw [← nodesAll_singleton] at hx ⊢
  exact mem_nodesAll_of_below hx hy

theorem Derived.leaves_below {t : Tree} (h : t.Derived input) (hx : x ∈ t.nodes) :
    ∀ u ∈ x.2, ∀ l ∈ u.leaves, l.2 = false ∧ ∃ i, l.1 = .read i := fun u hu l hl ↦
  h.leaves l (mem_leaves_of_below hx (mem_leavesAll.2 ⟨u, hu, hl⟩))

theorem single_of_leaf (hf : Fills input x) {i : Nat}
    (hx : leavesAll x.2 = [(.read i, false)]) (hk : input.kind i ≠ .eof) : Single x := by
  obtain ⟨e, m, hle, -, hstop, htokens, heof⟩ := hf
  have htoken : tokensAll x.2 = [i] := by
    rw [tokensAll, hx]
    rfl
  rw [htoken] at htokens
  cases hn : e - x.1.start with
  | zero =>
    rw [hn, List.range'_zero, List.nil_append, List.eq_replicate_iff] at htokens
    obtain ⟨hlen, hall⟩ := htokens
    have hi : i = e := hall i (List.mem_singleton.2 rfl)
    exact absurd (hi ▸ heof (by rw [← hlen]; exact Nat.one_pos)) hk
  | succ n =>
    rw [hn, List.range'_succ, List.cons_append, List.cons.injEq, eq_comm (a := []),
      List.append_eq_nil_iff, List.range'_eq_nil_iff] at htokens
    obtain ⟨rfl, rfl, -⟩ := htokens
    have he : e = x.1.start + 1 := by omega
    refine ⟨?_, false, hx⟩
    rw [hstop, he]
    rfl

/-- A node of one token. -/
theorem Derived.exists_leaf {t : Tree} (h : t.Derived input) (hx : x ∈ t.nodes) {k : Kind}
    (hw : x.2.map (symbol input) = [.kind k]) :
    ∃ i, x.2 = [.leaf (.read i) false] ∧ input.kind i = k := by
  obtain ⟨u, hu, hsymbol⟩ := List.map_eq_singleton_iff.1 hw
  obtain ⟨i, rfl, hkind⟩ := exists_leaf_of_symbol hsymbol
    (h.leaves_below hx u (hu ▸ List.mem_singleton.2 rfl))
  exact ⟨i, hu, hkind⟩

end Tree

namespace Rule

variable {r : Rule} {w : List Symbol}

theorem mem_words_of_operators_nil (h : r.production.operators = []) :
    w ∈ r.words ↔ ∃ parts ∈ r.production.block, w ∈ wordsSeq parts := by
  rw [words, h, wordsBlock, mul_zero, add_zero, mem_wordsBlock]

theorem mem_words_oneOf {place : Place} {ks : KindSet} {label : Option Label}
    (h : r.production = ⟨[[.oneOf place ks label]], []⟩) (hw : w ∈ r.words) :
    ∃ k, ks.contains k = true ∧ w = [.kind k] := by
  rw [mem_words_of_operators_nil (by rw [h]), h] at hw
  obtain ⟨parts, hparts, hw⟩ := hw
  rw [List.mem_singleton.1 hparts, wordsSeq_cons, wordsSeq_nil, mul_one, Part.words] at hw
  exact hw

theorem mem_words_literalValue (hw : w ∈ words .literalValue) :
    ∃ k, literalKinds.contains k = true ∧ w = [.kind k] := mem_words_oneOf rfl hw

theorem mem_words_keyword (hw : w ∈ words .keyword) :
    ∃ k, (k ≠ .eof ∧ k ≠ .stray ∧ k ≠ .identifier) ∧ w = [.kind k] := by
  obtain ⟨k, hk, hw⟩ := mem_words_oneOf rfl hw
  have hmem := KindSet.contains_ofList.1 hk
  refine ⟨k, ⟨?_, ?_, ?_⟩, hw⟩
  all_goals
    rintro rfl
    simp at hmem

theorem mem_wordsSeq_kind {k : Kind} {parts : List Part}
    (hw : w ∈ wordsSeq (.ofKind k :: parts)) : ∃ v ∈ wordsSeq parts, w = .kind k :: v := by
  rw [wordsSeq_cons] at hw
  obtain ⟨u, hu, v, hv, rfl⟩ := Language.mem_mul.1 hw
  exact ⟨v, hv, by rw [Set.mem_singleton_iff.1 hu, List.singleton_append]⟩

theorem mem_wordsSeq_rule {r' : Rule} {parts : List Part}
    (hw : w ∈ wordsSeq (.ofRule r' :: parts)) : ∃ v ∈ wordsSeq parts, w = .rule r' :: v := by
  rw [wordsSeq_cons] at hw
  obtain ⟨u, hu, v, hv, rfl⟩ := Language.mem_mul.1 hw
  exact ⟨v, hv, by rw [Set.mem_singleton_iff.1 hu, List.singleton_append]⟩

theorem mem_words_anyName (hw : w ∈ words .anyName) :
    w = [.kind .identifier] ∨ w = [.rule .keyword] ∨ w = [.kind .string] ∨
      w = [.kind .openParen, .rule .anyName, .kind .closeParen] := by
  rw [mem_words_of_operators_nil rfl] at hw
  obtain ⟨parts, hparts, hw⟩ := hw
  have hparts' : parts ∈ [[Part.ofKind .identifier], [Part.ofRule .keyword], [Part.ofKind .string],
      [Part.ofKind .openParen, Part.ofRule .anyName, Part.ofKind .closeParen]] := hparts
  simp only [List.mem_cons, List.not_mem_nil, or_false] at hparts'
  rcases hparts' with rfl | rfl | rfl | rfl
  · obtain ⟨v, hv, rfl⟩ := mem_wordsSeq_kind hw
    exact .inl (congrArg _ hv)
  · obtain ⟨v, hv, rfl⟩ := mem_wordsSeq_rule hw
    exact .inr (.inl (congrArg _ hv))
  · obtain ⟨v, hv, rfl⟩ := mem_wordsSeq_kind hw
    exact .inr (.inr (.inl (congrArg _ hv)))
  · obtain ⟨u, hu, rfl⟩ := mem_wordsSeq_kind hw
    obtain ⟨v, hv, rfl⟩ := mem_wordsSeq_rule hu
    obtain ⟨z, hz, rfl⟩ := mem_wordsSeq_kind hv
    exact .inr (.inr (.inr (congrArg _ (congrArg _ (congrArg _ hz)))))

end Rule

namespace Tree.Derived

variable {input : Input} {t : Tree} {x : Head × List Tree}

/-- A literal value is one token. -/
theorem literalValue (h : t.Derived input) (hx : x ∈ t.nodes) (hr : x.1.rule = .literalValue) :
    ∃ i, x.2 = [.leaf (.read i) false] ∧ input.kind i ≠ .eof := by
  have hw := h.nodes x hx
  rw [hr] at hw
  obtain ⟨k, hk, hw⟩ := Rule.mem_words_literalValue hw
  obtain ⟨i, hi, hkind⟩ := h.exists_leaf hx hw
  refine ⟨i, hi, fun heof ↦ ?_⟩
  rw [← hkind, heof] at hk
  exact absurd hk (by decide)

/-- A name is an identifier or begins with a token of another kind. -/
theorem anyName (h : t.Derived input) (hx : x ∈ t.nodes) (hr : x.1.rule = .anyName) :
    (∃ i, x.2 = [.leaf (.read i) false] ∧ input.kind i = .identifier) ∨
      ∃ i rest, leavesAll x.2 = (.read i, false) :: rest ∧ input.kind i ≠ .eof ∧
        input.kind i ≠ .stray ∧ input.kind i ≠ .identifier := by
  have hw := h.nodes x hx
  rw [hr] at hw
  rcases Rule.mem_words_anyName hw with hw | hw | hw | hw
  · exact .inl (h.exists_leaf hx hw)
  · obtain ⟨u, hu, hsymbol⟩ := List.map_eq_singleton_iff.1 hw
    obtain ⟨head, us, rfl, hkeyword⟩ := exists_node_of_symbol hsymbol
    have hmem : (head, us) ∈ t.nodes := mem_nodes_of_below hx (by
      rw [hu, nodesAll_node]
      exact List.mem_cons_self)
    have hw := h.nodes _ hmem
    rw [hkeyword] at hw
    obtain ⟨k, hk, hw⟩ := Rule.mem_words_keyword hw
    obtain ⟨i, hi, hkind⟩ := h.exists_leaf hmem hw
    dsimp only at hi
    refine .inr ⟨i, [], by rw [hu, hi]; rfl, ?_⟩
    rw [hkind]
    exact hk
  · obtain ⟨i, hi, hkind⟩ := h.exists_leaf hx hw
    refine .inr ⟨i, [], by rw [hi]; rfl, ?_⟩
    rw [hkind]
    decide
  · obtain ⟨u, us, hu, hsymbol, -⟩ := List.map_eq_cons_iff.1 hw
    obtain ⟨i, rfl, hkind⟩ := exists_leaf_of_symbol hsymbol
      (h.leaves_below hx u (hu ▸ List.mem_cons_self))
    refine .inr ⟨i, leavesAll us, by rw [hu, leavesAll_leaf], ?_⟩
    rw [hkind]
    decide

end Tree.Derived

section Script

variable {sql : String} {x : Head × List Tree}

/-- The tokens of the tree have been read. -/
theorem index_le_lastRead {i : Nat} (hi : i ∈ (Buffer.ofString sql).2.tokens) :
    i < (Source.ofString sql).input.size ∧ (Source.ofString sql).index i ≤ lastRead sql := by
  have hin := closed_ofString sql
  obtain ⟨n, m, hn, hpos, htokens, -⟩ := parseKinds_tokens .sql .sqlStmtList hin
  have hseen := (parseKinds_seen .sql .sqlStmtList hin).1
  rw [← hpos] at hseen
  have hle : i ≤ n := by
    change i ∈ (parseKinds .sql .sqlStmtList (Source.ofString sql).input).tree.tokens at hi
    rw [htokens, List.mem_append, List.mem_range, List.mem_replicate] at hi
    omega
  exact ⟨Nat.lt_of_le_of_lt hle hn,
    index_le_index (Nat.le_trans hle hseen) (seen_lt_size .sqlStmtList sql)⟩

/-- A name that begins with a token of another kind is not in double quotes. -/
theorem not_isDoubleQuoted (hx : x ∈ (Buffer.ofString sql).2.nodes) {i : Nat}
    {rest : List (Leaf × Bool)} (hleaves : Tree.leavesAll x.2 = (.read i, false) :: rest)
    (heof : (Source.ofString sql).input.kind i ≠ .eof)
    (hstray : (Source.ofString sql).input.kind i ≠ .stray)
    (hname : (Source.ofString sql).input.kind i ≠ .identifier) :
    isDoubleQuoted ((Buffer.ofString sql).1.nodeText x.2) = false := by
  have hleaf : (.read i, false) ∈ Tree.leavesAll x.2 := hleaves ▸ List.mem_cons_self
  have hmem : i ∈ (Buffer.ofString sql).2.tokens :=
    List.mem_filterMap.2 ⟨_, Tree.mem_leaves_of_below hx hleaf, rfl⟩
  obtain ⟨hlt, hread⟩ := index_le_lastRead hmem
  obtain ⟨y, hy, hkind, htext⟩ := exists_token hlt
  rw [if_pos hread] at htext
  rw [hkind] at heof hstray hname
  have hfits := ((Token.fits_of_mem_scanFrom {} sql.toList hy).resolve_left heof).resolve_left
    hstray
  obtain ⟨hne, hhead⟩ := LexRule.head?_ne_quote hname hstray hfits
  have hfirst : ((Buffer.ofString sql).1.leafText (.read i)).toList = y.text.toList :=
    congrArg String.toList htext
  rw [isDoubleQuoted, Buffer.toList_nodeText, hleaves, List.flatMap_cons, hfirst,
    List.head?_append_of_ne_nil _ hne, beq_false_of_ne hhead, Bool.false_and]

/-- In a text without errors the literals are clear, if the truth values are read as literals. -/
theorem clear_of_errors (h : (Parsed.ofString .sqlStmtList sql).errors = [])
    (htruth : ∀ x ∈ (Buffer.ofString sql).2.nodes, (Buffer.ofString sql).1.isTruth x = true →
      isValue x.2 = true)
    (hx : x ∈ (Buffer.ofString sql).2.nodes) (hlit : (Buffer.ofString sql).1.isLiteral x = true) :
    Clear x := by
  obtain ⟨head, ts, htree, -, hderived⟩ := Parsed.derived_of_errors .sqlStmtList sql h
  rw [← htree] at hderived
  change (Buffer.ofString sql).2.Derived (Source.ofString sql).input at hderived
  have hfills := parseKinds_fills .sql .sqlStmtList (closed_ofString sql)
  by_cases hexpr : x.1.rule = .expr
  · obtain ⟨head, us, hus, hvalue⟩ := exists_of_isValue
      (htruth x hx (by rw [Buffer.isTruth, hlit, hexpr]; rfl))
    have hbelow : (head, us) ∈ Tree.nodesAll x.2 := by
      rw [hus, Tree.nodesAll_node]
      exact List.mem_cons_self
    obtain ⟨i, hi, hkind⟩ := hderived.literalValue (Tree.mem_nodes_of_below hx hbelow) hvalue
    dsimp only at hi
    refine ⟨Tree.single_of_leaf (hfills x hx) (by rw [hus, hi]; rfl) hkind,
      fun hne ↦ absurd hexpr hne, fun _ ↦ ⟨_, hbelow, hvalue⟩⟩
  · have hleaf : ∃ i, x.2 = [.leaf (.read i) false] ∧
        (Source.ofString sql).input.kind i ≠ .eof := by
      have hr := Buffer.replaces_of_isLiteral hexpr hlit
      by_cases hvalue : x.1.rule = .literalValue
      · exact hderived.literalValue hx hvalue
      by_cases hname : x.1.rule = .anyName
      · rcases hderived.anyName hx hname with ⟨i, hi, hkind⟩ | ⟨i, rest, hleaves, heof, hstray, hid⟩
        · exact ⟨i, hi, by rw [hkind]; decide⟩
        · rw [Buffer.replaces, hname] at hr
          dsimp only at hr
          rw [not_isDoubleQuoted hx hleaves heof hstray hid] at hr
          cases hr
      · rw [Buffer.replaces_of_other hvalue hexpr hname] at hr
        cases hr
    obtain ⟨i, hi, hkind⟩ := hleaf
    refine ⟨Tree.single_of_leaf (hfills x hx) (by rw [hi]; rfl) hkind, fun _ ↦ by rw [hi]; rfl,
      fun h ↦ absurd h hexpr⟩

theorem Normal.literals_of_ok {n : Normal} (h : Normal.ofString sql = .ok n) :
    n.literals = (Buffer.ofString sql).1.literals (Buffer.ofString sql).2 := by
  obtain ⟨replaced, subqueries, leaves, masked, h⟩ := ofString_eq_ok h
  generalize Buffer.ofString sql = bt at h ⊢
  obtain ⟨b, t⟩ := bt
  obtain ⟨-, -, -, -, rfl⟩ := h
  rfl

/-- What the pass replaces in a text whose literals are clear. -/
theorem exists_replaceLiterals (h : ∀ x ∈ (Buffer.ofString sql).2.nodes,
      (Buffer.ofString sql).1.isLiteral x = true → Clear x) :
    ∃ r, (Buffer.ofString sql).1.replaceLiterals (Buffer.ofString sql).2 = .ok r ∧
      (Buffer.ofString sql).1.Replacing (Buffer.ofString sql).2.nodes r.buffer := by
  have hstart : (Buffer.ofString sql).1.Replacing [] (Buffer.ofString sql).1 :=
    ⟨rfl, rfl, fun _ _ ↦ rfl⟩
  exact Replaced.exists_passNodes (s := ⟨(Buffer.ofString sql).1, []⟩) hstart fun x hx hr ↦
    (h x hx (Buffer.isLiteral_of_replaces hr)).single

theorem Listing.text_of_changed {b c : Buffer} {xs : List (Head × List Tree)} (h : Listing b xs)
    (hc : b.Replacing xs c) {i : Nat} (hi : i ∈ b.changed c) : c.text i = placeholder := by
  obtain ⟨hlt, hne⟩ := List.mem_filter.1 hi
  have htext := h.text_of_replacing hc (List.mem_range.1 hlt)
  rw [bne_iff_ne] at hne
  split at htext
  · exact absurd htext hne
  · exact htext

end Script

/-- The literals of a text, token by token: for each token that is replaced its text, and before it
the same text in small letters for every expression that is a truth value or null and begins with
it. So the literals are the texts of the tokens that are replaced just when no expression is a truth
value or null. In a text without errors this holds if such expressions are read as literals. -/
theorem Normal.literals_eq_flatMap_changed (sql : String) :
    ((Parsed.ofString .sqlStmtList sql).errors = [] →
      (∀ x ∈ (Buffer.ofString sql).2.nodes, (Buffer.ofString sql).1.isTruth x = true →
        isValue x.2 = true) →
      ∀ x ∈ (Buffer.ofString sql).2.nodes, (Buffer.ofString sql).1.isLiteral x = true → Clear x) ∧
    ∀ n, Normal.ofString sql = .ok n →
      (∀ x ∈ (Buffer.ofString sql).2.nodes, (Buffer.ofString sql).1.isLiteral x = true → Clear x) →
      ∃ r, (Buffer.ofString sql).1.replaceLiterals (Buffer.ofString sql).2 = .ok r ∧
        (∀ i ∈ (Buffer.ofString sql).1.changed r.buffer, r.buffer.text i = placeholder) ∧
        n.literals = ((Buffer.ofString sql).1.changed r.buffer).flatMap (fun i ↦
          List.replicate ((Buffer.ofString sql).1.truths (Buffer.ofString sql).2 i)
            (String.ofList (Text.lower ((Buffer.ofString sql).1.text i).toList)) ++
          [(Buffer.ofString sql).1.text i]) ∧
        (n.literals = ((Buffer.ofString sql).1.changed r.buffer).map (Buffer.ofString sql).1.text ↔
          ∀ x ∈ (Buffer.ofString sql).2.nodes, (Buffer.ofString sql).1.isTruth x = false) := by
  refine ⟨fun herrors htruth x hx ↦ clear_of_errors herrors htruth hx, ?_⟩
  intro n hn hclear
  obtain ⟨r, hr, hreplacing⟩ := exists_replaceLiterals hclear
  have hlisting := listing_ofString hclear
  have hvalue : ∀ x ∈ (Buffer.ofString sql).2.nodes, x.1.rule = .literalValue → Single x →
      (Buffer.ofString sql).1.text ((Buffer.ofString sql).1.first x) ≠ placeholder :=
    fun x hx hrule _ ↦ text_ne_placeholder_of_literalValue hx hrule
  rw [literals_of_ok hn]
  exact ⟨r, hr, fun i ↦ hlisting.text_of_changed hreplacing,
    hlisting.literals_eq_changed hreplacing hvalue, hlisting.literals_eq_map_iff hreplacing hvalue⟩

/-- The tokens of `SELECT TRUE`, its tree, its normal form, and the token that is replaced. -/
theorem selectTrue_read :
    let b := Buffer.ofTokens Token.selectTrue 2
    let t := Tree.select 1 [.literalColumn 1]
    let kinds : Input := #[.SELECT, .TRUE, .eof]
    (Token.scan "SELECT TRUE" = Token.selectTrue ∧ parsed kinds = (t, 2) ∧
      (parseKinds .sql .sqlStmtList kinds).reports.isEmpty = true) ∧
    ((b.subqueries t).toOption = some ["SELECT TRUE"] ∧
      (b.normalized t).toOption = some "SELECT ?" ∧
      (Normal.ofKeys ["SELECT ?"] b t).toOption =
        some ⟨"SELECT ?", ["SELECT ?"], "SELECT ?", ["true", "TRUE"]⟩) ∧
    (∀ x ∈ t.nodes, b.isTruth x = true → isValue x.2 = true) ∧
    (b.replaceLiterals t).toOption.map (fun r ↦ b.changed r.buffer) = some [2] := by
  decide +kernel

theorem Buffer.ofString_selectTrue : Buffer.ofString "SELECT TRUE" =
    (.ofTokens Token.selectTrue 2, .select 1 [.literalColumn 1]) := by
  obtain ⟨⟨hscan, hparsed, -⟩, -⟩ := selectTrue_read
  exact ofString_of_scan hscan rfl hparsed

theorem Parsed.errors_selectTrue : (Parsed.ofString .sqlStmtList "SELECT TRUE").errors = [] := by
  obtain ⟨⟨hscan, -, hreports⟩, -⟩ := selectTrue_read
  unfold errors ofString
  dsimp only
  have hinput : (Source.ofString "SELECT TRUE").input = #[.SELECT, .TRUE, .eof] :=
    Source.input_of_scan hscan rfl
  rw [hinput, List.isEmpty_iff.1 hreports, List.map_nil]

theorem Normal.ofString_selectTrue : Normal.ofString "SELECT TRUE" =
    .ok ⟨"SELECT ?", ["SELECT ?"], "SELECT ?", ["true", "TRUE"]⟩ := by
  obtain ⟨-, ⟨hquery, hkey, hnormal⟩, -⟩ := selectTrue_read
  exact eq_ok_of_toOption (ofString_of_query "SELECT ?" Buffer.ofString_selectTrue
    Buffer.ofString_selectTrue hquery hkey hnormal)

theorem truth_selectTrue : ∀ x ∈ (Buffer.ofString "SELECT TRUE").2.nodes,
    (Buffer.ofString "SELECT TRUE").1.isTruth x = true → isValue x.2 = true := by
  rw [Buffer.ofString_selectTrue]
  exact selectTrue_read.2.2.1

theorem Buffer.changed_selectTrue {r : Replaced}
    (hr : (ofString "SELECT TRUE").1.replaceLiterals (ofString "SELECT TRUE").2 = .ok r) :
    (ofString "SELECT TRUE").1.changed r.buffer = [2] := by
  have hchanged := selectTrue_read.2.2.2
  rw [ofString_selectTrue] at hr ⊢
  dsimp only at hr hchanged ⊢
  rw [hr] at hchanged
  exact Option.some.inj hchanged

/-- A truth value is listed twice, first in small letters. -/
theorem Normal.literals_eq_flatMap_changed_truth :
    (Parsed.ofString .sqlStmtList "SELECT TRUE").errors = [] ∧
      ∃ r n, (Buffer.ofString "SELECT TRUE").1.replaceLiterals (Buffer.ofString "SELECT TRUE").2 =
          .ok r ∧ Normal.ofString "SELECT TRUE" = .ok n ∧ r.buffer.text 2 = placeholder ∧
        n.literals = List.replicate
            ((Buffer.ofString "SELECT TRUE").1.truths (Buffer.ofString "SELECT TRUE").2 2)
            (String.ofList (Text.lower ((Buffer.ofString "SELECT TRUE").1.text 2).toList)) ++
          [(Buffer.ofString "SELECT TRUE").1.text 2] := by
  obtain ⟨hall, hlisted⟩ := literals_eq_flatMap_changed "SELECT TRUE"
  obtain ⟨r, hr, htext, hliterals, -⟩ := hlisted _ Normal.ofString_selectTrue
    (hall Parsed.errors_selectTrue truth_selectTrue)
  rw [Buffer.changed_selectTrue hr] at htext hliterals
  rw [List.flatMap_singleton] at hliterals
  exact ⟨Parsed.errors_selectTrue, r, _, hr, ofString_selectTrue, htext 2 (List.mem_singleton.2 rfl), hliterals⟩

/-- The one token that is replaced is listed twice. -/
theorem Normal.literals_ne_map_changed :
    ∃ r n, (Buffer.ofString "SELECT TRUE").1.replaceLiterals (Buffer.ofString "SELECT TRUE").2 =
        .ok r ∧ Normal.ofString "SELECT TRUE" = .ok n ∧
      (Buffer.ofString "SELECT TRUE").1.changed r.buffer = [2] ∧
      n.literals = ["true", "TRUE"] ∧
      n.literals ≠ ((Buffer.ofString "SELECT TRUE").1.changed r.buffer).map
        (Buffer.ofString "SELECT TRUE").1.text := by
  obtain ⟨r, hr, -⟩ := exists_replaceLiterals fun x hx ↦
    clear_of_errors Parsed.errors_selectTrue truth_selectTrue hx
  have hchanged := Buffer.changed_selectTrue hr
  refine ⟨r, _, hr, ofString_selectTrue, hchanged, rfl, fun heq ↦ ?_⟩
  rw [hchanged] at heq
  exact absurd (congrArg List.length heq) (by decide)

end PlanCache
