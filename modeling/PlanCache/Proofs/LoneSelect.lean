import PlanCache.Proofs.FirstNodes
import PlanCache.Proofs.History
import PlanCache.Proofs.LiteralMarks
import PlanCache.Proofs.RespacedPass

/-!
A query that is one select and nothing else. The select is read a second time as a query of its own,
and gets the key of the query, so the query is stored once and answered by one request.
-/

namespace PlanCache

namespace Tree

variable {t : Tree} {us : List Tree} {h : Head} {x : Head × List Tree}

theorem cons_nodesAll_sublist (hx : x ∈ nodesAll us) :
    (x :: nodesAll x.2).Sublist (nodesAll us) := by
  induction us using forest_induction with
  | nil => cases hx
  | leaf l error us ih =>
    rw [nodesAll_leaf] at hx ⊢
    exact ih hx
  | node h ts us iht ihu =>
    rw [nodesAll_node, List.mem_cons, List.mem_append] at hx
    rw [nodesAll_node]
    rcases hx with rfl | hx | hx
    · exact (List.sublist_append_left _ _).cons_cons _
    · exact ((iht hx).trans (List.sublist_append_left _ _)).cons _
    · exact ((ihu hx).trans (List.sublist_append_right _ _)).cons _

theorem hasSelect_of_filter (hx : t.nodes.filter (fun y ↦ y.1.rule == .selectCore) = [x]) :
    hasSelect x.2 = false := by
  obtain ⟨hmem, hrule⟩ : x ∈ t.nodes ∧ (x.1.rule == .selectCore) = true := by
    apply List.mem_filter.1
    rw [hx]
    exact List.mem_singleton_self x
  have hsub : (x :: nodesAll x.2).Sublist t.nodes := by
    rw [← nodesAll_singleton] at hmem ⊢
    exact cons_nodesAll_sublist hmem
  have hlen := (hsub.filter fun y ↦ y.1.rule == .selectCore).length_le
  rw [List.filter_cons_of_pos (p := fun y : Head × List Tree ↦ y.1.rule == .selectCore) hrule,
    hx, List.length_cons, List.length_singleton] at hlen
  have hnil := List.length_eq_zero_iff.1 (Nat.le_zero.1 (Nat.le_of_succ_le_succ hlen))
  rw [hasSelect, List.any_eq_false]
  exact List.filter_eq_nil_iff.1 hnil

/-- A select that is the only one holds no other. -/
theorem leafSelects_of_selects (hs : t.selects = [h]) : t.leafSelects = [h] := by
  have hfilter : ∃ x, t.nodes.filter (fun y ↦ y.1.rule == .selectCore) = [x] ∧ x.1 = h :=
    List.map_eq_singleton_iff.1 hs
  obtain ⟨x, hx, rfl⟩ := hfilter
  have hleaf : t.nodes.filter (fun y ↦ y.1.rule == .selectCore && !hasSelect y.2) = [x] := by
    have hsplit : t.nodes.filter (fun y ↦ y.1.rule == .selectCore && !hasSelect y.2) =
        (t.nodes.filter fun y ↦ y.1.rule == .selectCore).filter fun y ↦ !hasSelect y.2 := by
      rw [List.filter_filter]
      exact List.filter_congr fun y _ ↦ Bool.and_comm _ _
    rw [hsplit, hx, List.filter_singleton, hasSelect_of_filter hx]
    rfl
  exact congrArg (List.map Prod.fst) hleaf

end Tree

/-- The last token of a node has been read. -/
theorem stop_lt_seen {input : Input} (hin : input.Closed) {x : Head × List Tree}
    (hx : x ∈ (parseKinds .sql .sqlStmtList input).tree.nodes) {j : Nat} (hj : x.1.stop = some j) :
    j < (parseKinds .sql .sqlStmtList input).seen := by
  obtain ⟨b, hb⟩ : ∃ b, (parseKinds .sql .sqlStmtList input).tree.Tiles 0 b :=
    parseKinds_tiles Grammar.sql_tame (by decide) input
  have hend : b = (Session.final .sql .sqlStmtList input).pos := by
    have hroot := hb
    rw [parseKinds_eq] at hroot
    dsimp only at hroot
    generalize Session.final .sql .sqlStmtList input = s at hroot ⊢
    have hlast : Tree.lastBefore s.pos = Tree.lastBefore b := (Tree.tiles_node.1 hroot).2.1
    exact (Tree.lastBefore_inj hlast).symm
  have hseen := (parseKinds_seen .sql .sqlStmtList hin).1
  rw [← hend] at hseen
  have hall : Tree.TilesAll [(parseKinds .sql .sqlStmtList input).tree] 0 b :=
    Tree.tilesAll_cons.2 ⟨b, hb, Tree.tilesAll_nil.2 rfl⟩
  obtain ⟨-, m, hm, hstop, -⟩ :=
    hall.node (Tree.mem_nodesAll.2 ⟨_, List.mem_singleton_self _, hx⟩)
  have := Tree.lastBefore_eq_some (hstop.symm.trans hj)
  omega

section Passes

theorem passNodes_ok {ε σ : Type} {step : σ → Head → List Tree → Except (Halt ε σ) σ}
    {nodes : List (Head × List Tree)}
    (h : ∀ x ∈ nodes, ∀ s, ∃ s', step s x.1 x.2 = .ok s') (s : σ) :
    ∃ s', passNodes step s nodes = .ok s' := by
  induction nodes generalizing s with
  | nil => exact ⟨s, rfl⟩
  | cons x nodes ih =>
    rw [List.forall_mem_cons] at h
    obtain ⟨s₁, hs₁⟩ := h.1 s
    obtain ⟨s₂, hs₂⟩ := ih h.2 s₁
    refine ⟨s₂, ?_⟩
    rw [passNodes, hs₁]
    exact hs₂

namespace Buffer

variable {b : Buffer} {ts : List Tree}

/-- Text of a node that holds no token of the input. -/
theorem head?_nodeText (hl : ∀ i e, (.read i, e) ∉ Tree.leavesAll ts) {c : Char}
    (hc : (b.nodeText ts).toList.head? = some c) : c = '<' := by
  rw [toList_nodeText] at hc
  cases hls : Tree.leavesAll ts with
  | nil =>
    rw [hls] at hc
    cases hc
  | cons l ls =>
    obtain ⟨l, e⟩ := l
    cases l with
    | read i =>
      rw [hls] at hl
      exact absurd List.mem_cons_self (hl i e)
    | missing k =>
      obtain ⟨cs, hcs⟩ := exists_toList_missing b.source k
      have hleaf : (b.leafText (.missing k)).toList = '<' :: (cs ++ ['>']) := hcs
      rw [hls, List.flatMap_cons, hleaf] at hc
      exact (Option.some.inj hc).symm

/-- A node that holds no token is replaced only as a literal. -/
theorem replaces_of_missing {x : Head × List Tree} (hrule : x.1.rule ≠ .literalValue)
    (hl : ∀ i e, (.read i, e) ∉ Tree.leavesAll x.2) : b.replaces x = false := by
  have hlower : ∀ w : String, (∀ d ∈ w.toList, Text.IsOwnLower d) →
      (∃ c, w.toList.head? = some c ∧ c ≠ '<') → b.lowerText x.2 ≠ w := by
    intro w hw ⟨c, hc, hne⟩ he
    rw [lowerText, ← String.toList_inj, String.toList_ofList, Text.lower_eq_iff hw] at he
    rw [← he, List.head?_map, Option.map_eq_some_iff] at hc
    obtain ⟨d, hd, rfl⟩ := hc
    obtain rfl := head?_nodeText hl hd
    exact hne rfl
  unfold replaces
  split
  · exact absurd ‹_› hrule
  · have htrue := hlower "true" (Text.forall_isOwnLower (by decide)) ⟨'t', rfl, by decide⟩
    have hfalse := hlower "false" (Text.forall_isOwnLower (by decide)) ⟨'f', rfl, by decide⟩
    rw [beq_false_of_ne htrue, beq_false_of_ne hfalse, Bool.or_false]
  · rw [isDoubleQuoted, Bool.and_eq_false_iff, beq_eq_false_iff_ne]
    left
    intro hc
    exact absurd (head?_nodeText hl hc) (by decide)
  · rfl

end Buffer

/-- A node can be passed if it is not replaced or is ended behind a token. -/
theorem Replaced.step_ok (s : Replaced) {x : Head × List Tree}
    (hx : x.1.stop = none → s.buffer.replaces x = false) : ∃ s', s.step x.1 x.2 = .ok s' := by
  obtain ⟨noted, hstep⟩ := exists_step_eq s x
  rw [hstep]
  cases hr : s.buffer.replaces x with
  | false => exact ⟨s, if_neg Bool.false_ne_true⟩
  | true =>
    cases hstop : x.1.stop with
    | none =>
      rw [hx hstop] at hr
      cases hr
    | some j =>
      rw [if_pos rfl, cut, Buffer.cutNode_of_stop hstop]
      exact ⟨_, rfl⟩

end Passes

/-- The text is one select, from its first token to its last. -/
structure LoneSelect (sql : String) : Prop extends Unbroken sql where
  select : ∃ h, (Buffer.ofString sql).2.selects = [h] ∧ h.start = 0 ∧
    h.stop.map (· + 1) = some (Source.ofString sql).input.last

instance (sql : String) : Decidable (LoneSelect sql) :=
  decidable_of_iff (Unbroken sql ∧ (Buffer.ofString sql).2.selects.length = 1 ∧
    ∀ h ∈ (Buffer.ofString sql).2.selects, h.start = 0 ∧
      h.stop.map (· + 1) = some (Source.ofString sql).input.last) <| by
    constructor
    · intro ⟨hu, hlen, hall⟩
      obtain ⟨h, hs⟩ := List.length_eq_one_iff.1 hlen
      exact ⟨hu, h, hs, hall h (hs ▸ List.mem_singleton_self h)⟩
    · intro ⟨hu, h, hs, hh⟩
      refine ⟨hu, by rw [hs]; rfl, fun h' hm ↦ ?_⟩
      rw [hs, List.mem_singleton] at hm
      rw [hm]
      exact hh

section LoneSelect

variable {sql : String} {j : Nat}

/-- Without comments the grammar reads all tokens that are not blank. -/
theorem Unbroken.exists_index (h : Unbroken sql) {x : Token} {i : Nat}
    (hx : (x, i) ∈ Token.solid sql) :
    ∃ m < (Source.ofString sql).input.size,
      (Source.ofString sql).index m = i ∧ (Source.ofString sql).input.kind m = x.kind := by
  obtain ⟨hscan, hblank⟩ := Token.mem_solid.1 hx
  have hvisible : (x, i) ∈ Token.visible sql := by
    obtain ⟨hline, hblock⟩ := h.comments x (List.mem_of_getElem? hscan)
    refine List.mem_filter.2 ⟨hx, ?_⟩
    rw [Bool.not_eq_true']
    unfold Kind.isHidden
    split
    · exact absurd ‹_› hline
    · exact absurd ‹_› hblock
    · exact absurd ‹_› hblank
    · rfl
  obtain ⟨m, hm⟩ := List.mem_iff_getElem?.1 hvisible
  have hlt : m < (Source.ofString sql).input.size := by
    rw [input_ofString, List.size_toArray, List.length_map]
    exact (List.getElem?_eq_some_iff.1 hm).1
  have hindex := index_of_visible hm
  exact ⟨m, hlt, hindex, kind_eq_of_index hlt (hindex ▸ hscan)⟩

/-- The words of the tokens up to the last are all that is written. -/
theorem Unbroken.words_eq_written (h : Unbroken sql) (hj : j + 1 = (Source.ofString sql).input.last)
    (hread : (Source.ofString sql).index j ≤ lastRead sql) :
    Token.words sql ((Source.ofString sql).index 0) ((Source.ofString sql).index j) =
      Token.written sql := by
  have hin := closed_ofString sql
  have hsize : (Source.ofString sql).input.last + 1 = (Source.ofString sql).input.size :=
    Nat.sub_add_cancel hin.size_pos
  rw [← Token.map_fst_solid, Token.words, Token.stretch, List.filter_filter]
  refine congrArg _ (List.filter_congr fun x hx ↦ ?_)
  obtain ⟨hscan, hblank⟩ := Token.mem_solid.1 hx
  have hmem := List.mem_of_getElem? hscan
  obtain ⟨m, hlt, hindex, hkind⟩ := h.exists_index hx
  rw [Bool.eq_iff_iff]
  simp only [Bool.and_eq_true, decide_eq_true_eq, bne_iff_ne]
  rw [← hindex, index_le_iff hin.size_pos hlt, index_le_iff hlt (by omega)]
  constructor
  · intro hin heof
    have hle : m ≤ j := hin.2.1.2
    exact kind_ne_eof (by omega) (hkind.trans heof)
  · intro heof
    have hne : m ≠ (Source.ofString sql).input.last := by
      intro he
      rw [← hkind, he] at heof
      exact heof hin.last
    have hle : m ≤ j := by omega
    obtain ⟨rest, hlong⟩ := isLongest_of_mem_scan hmem heof
    have hink : x.1.text.toList.all Text.isBlank = false :=
      (h.trimmed hmem hblank).all_isBlank (List.length_pos_iff.1 hlong.pos)
    refine ⟨?_, ⟨Nat.zero_le m, hle⟩, Nat.le_trans (index_le_index hle (by omega)) hread⟩
    rw [hasInk, Text.allBlank, hink]
    rfl

/-- The node of the select. -/
theorem LoneSelect.exists_node (h : LoneSelect sql) :
    ∃ x ∈ (Buffer.ofString sql).2.nodes, ∃ j, x.1.rule = .selectCore ∧
      (Buffer.ofString sql).2.selects = [x.1] ∧ x.1.start = 0 ∧ x.1.stop = some j ∧
      j + 1 = (Source.ofString sql).input.last := by
  obtain ⟨hd, hs, hstart, hstop⟩ := h.select
  obtain ⟨j, hj, hlast⟩ := Option.map_eq_some_iff.1 hstop
  have hmem : hd ∈ (Buffer.ofString sql).2.selects := hs ▸ List.mem_singleton_self hd
  obtain ⟨x, hx, rfl⟩ := List.mem_map.1 hmem
  obtain ⟨hx, hrule⟩ := List.mem_filter.1 hx
  exact ⟨x, hx, j, beq_iff_eq.1 hrule, hs, hstart, hj, hlast⟩

/-- The text of the select is the query in one line. -/
theorem LoneSelect.subqueries (h : LoneSelect sql) :
    ∃ q : String, (Buffer.ofString sql).1.subqueries (Buffer.ofString sql).2 = .ok [q] ∧
      q.toList = Text.unwords ((Token.written sql).map Token.word) := by
  obtain ⟨x, hx, j, -, hs, hstart, hj, hlast⟩ := h.exists_node
  have hread : (Source.ofString sql).index j ≤ lastRead sql := by
    have hlt : j < (parseKinds .sql .sqlStmtList (Source.ofString sql).input).seen :=
      stop_lt_seen (closed_ofString sql) hx hj
    exact index_le_index (Nat.le_of_lt hlt) (seen_lt_size .sqlStmtList sql)
  have hspaced : ∃ q, (Buffer.ofString sql).1.spacedText x.1 = .ok q := by
    rw [Buffer.spacedText, Buffer.rangeText, Buffer.range, hj]
    exact ⟨_, rfl⟩
  obtain ⟨q, hq⟩ := hspaced
  obtain ⟨i, hi, hwords⟩ := toList_spacedText hq
  obtain rfl := Option.some.inj (hj.symm.trans hi)
  rw [hstart, h.toUnbroken.words_eq_written hlast hread] at hwords
  refine ⟨q, ?_, hwords⟩
  rw [Buffer.subqueries, Tree.leafSelects_of_selects hs, List.mapM_cons, hq, List.mapM_nil]
  rfl

theorem LoneSelect.replaceLiterals (h : LoneSelect sql) :
    ∃ s, (Buffer.ofString sql).1.replaceLiterals (Buffer.ofString sql).2 = .ok s := by
  obtain ⟨y, hy, j, hrule, -, hstart, -, hlast⟩ := h.exists_node
  have hunended := parseKinds_unended .sql .sqlStmtList (Source.ofString sql).input
  refine passNodes_ok (fun x hx s ↦ s.step_ok fun hstop ↦ ?_) _
  obtain ⟨hx₀, hl⟩ := hunended x hx hstop
  apply Buffer.replaces_of_missing
  · -- a literal at the beginning would keep the select from beginning there
    intro hlit
    have hk := ((placed_ofString sql).nodes x hx).1.literal_start hlit
    rw [hx₀] at hk
    rcases start_pos_of_literal hk y hy with hr | hlt
    · exact absurd (hrule.symm.trans hr) (by decide)
    · omega
  · intro i e hm
    exact kind_ne_eof (by omega) (hl i e hm)

/-- The only select is the first, which is not cut out. -/
theorem Buffer.maskNested_of_selects {t : Tree} {hd : Head} (hs : t.selects = [hd]) (b : Buffer) :
    ∃ m, b.maskNested t = .ok m ∧ m.buffer = b := by
  have hlen : (t.nodes.filter (·.1.rule == .selectCore)).length = 1 := by
    simpa [Tree.selects] using congrArg List.length hs
  have hcuts : Masked.cuts hasSelect false t.nodes = [] := by
    unfold Masked.cuts
    rw [if_neg Bool.false_ne_true, List.drop_eq_nil_of_le (Nat.le_of_eq hlen)]
    rfl
  apply Masked.exists_passNodes
  rw [hcuts]
  rfl

theorem LoneSelect.ofString (h : LoneSelect sql) :
    ∃ n, Normal.ofString sql = .ok n ∧ n.leaves = [n.full] := by
  obtain ⟨q, hsubs, hq⟩ := h.subqueries
  obtain ⟨s, hs⟩ := h.replaceLiterals
  obtain ⟨hd, hselects, -⟩ := h.select
  obtain ⟨m, hm, -⟩ := Buffer.maskNested_of_selects hselects s.buffer
  have hfull : normalize sql = .ok s.buffer.rebuild := by
    rw [Buffer.normalize_eq (Prod.eta _).symm, Buffer.normalized, hs]
    rfl
  have hkeys : [q].mapM normalize = .ok [s.buffer.rebuild] := by
    rw [List.mapM_cons, ← h.toUnbroken.normalize_eq hq, hfull, List.mapM_nil]
    rfl
  rw [Normal.ofString_eq_ofKeys (Prod.eta _).symm hsubs hkeys, Normal.ofKeys, hs]
  simp only [Halt.result, bind, Except.bind, hm]
  exact ⟨_, rfl, rfl⟩

end LoneSelect

namespace Cache

end Cache

end PlanCache
