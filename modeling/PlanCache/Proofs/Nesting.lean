import PlanCache.Proofs.FirstNodes
import PlanCache.Proofs.LiteralMarks

/-!
Trees whose nodes stand over tokens one after another and one inside another. Of two nodes, the one
that is gone through later is then below the other or has no token in common with it. In the tree
of a parse the leaves of a node are the tokens that it stands over.
-/

namespace PlanCache

namespace Tree

/-- The nodes among trees, without those below them. -/
def tops (ts : List Tree) : List Head :=
  ts.filterMap fun
    | .leaf _ _ => none
    | .node h _ => some h

/-- Every node stands over at least one token and over those of its children, which come one after
another. -/
structure Nested (src : Source) (t : Tree) : Prop where
  span : ∀ x ∈ t.nodes, ∃ j ∈ x.1.stop, src.index x.1.start ≤ src.index j
  inside : ∀ x ∈ t.nodes, ∀ h ∈ tops x.2, src.index x.1.start ≤ src.index h.start ∧
    ∀ j ∈ h.stop, ∀ k ∈ x.1.stop, src.index j ≤ src.index k
  apart : ∀ x ∈ t.nodes, (tops x.2).Pairwise fun h k ↦
    ∀ j ∈ h.stop, src.index j < src.index k.start

instance (src : Source) (t : Tree) : Decidable (t.Nested src) :=
  decidable_of_iff
    ((∀ x ∈ t.nodes, ∃ j ∈ x.1.stop, src.index x.1.start ≤ src.index j) ∧
      (∀ x ∈ t.nodes, ∀ h ∈ tops x.2, src.index x.1.start ≤ src.index h.start ∧
        ∀ j ∈ h.stop, ∀ k ∈ x.1.stop, src.index j ≤ src.index k) ∧
      ∀ x ∈ t.nodes, (tops x.2).Pairwise fun h k ↦ ∀ j ∈ h.stop, src.index j < src.index k.start)
    ⟨fun ⟨hspan, hinside, hapart⟩ ↦ ⟨hspan, hinside, hapart⟩,
      fun h ↦ ⟨h.span, h.inside, h.apart⟩⟩

/-- The node `y` is below `x` and stands over tokens of it, or over others. -/
def Follows (src : Source) (x y : Head × List Tree) : Prop :=
  (y ∈ nodesAll x.2 ∧ ∀ i, y.1.holds src i = true → x.1.holds src i = true) ∨
    ∀ i, y.1.holds src i = true → x.1.holds src i = false

section Forest

variable {src : Source} {ts : List Tree} {x y : Head × List Tree}

theorem tops_node (h : Head) (ts us : List Tree) : tops (.node h ts :: us) = h :: tops us := rfl

/-- The head of a node holds the tokens of the nodes below it. -/
def Holds (src : Source) (x : Head × List Tree) : Prop :=
  ∀ h ∈ tops x.2, ∀ i, h.holds src i = true → x.1.holds src i = true

theorem exists_top (hts : ∀ x ∈ nodesAll ts, Holds src x) (hy : y ∈ nodesAll ts) :
    ∃ h ∈ tops ts, ∀ i, y.1.holds src i = true → h.holds src i = true := by
  induction ts using forest_induction with
  | nil => cases hy
  | leaf l error us ih =>
    rw [nodesAll_leaf] at hts hy
    exact ih hts hy
  | node h ts us iht ihu =>
    rw [nodesAll_node, List.forall_mem_cons, List.forall_mem_append] at hts
    obtain ⟨hx, hts, hus⟩ := hts
    rw [nodesAll_node, List.mem_cons, List.mem_append] at hy
    rw [tops_node]
    rcases hy with rfl | hy | hy
    · exact ⟨h, List.mem_cons_self, fun _ hi ↦ hi⟩
    · obtain ⟨k, hk, hyk⟩ := iht hts hy
      exact ⟨h, List.mem_cons_self, fun i hi ↦ hx k hk i (hyk i hi)⟩
    · obtain ⟨k, hk, hyk⟩ := ihu hus hy
      exact ⟨k, List.mem_cons_of_mem h hk, hyk⟩

/-- No token is held by both. -/
def Apart (src : Source) (h k : Head) : Prop :=
  ∀ i, k.holds src i = true → h.holds src i = false

theorem pairwise_follows (hts : ∀ x ∈ nodesAll ts, Holds src x)
    (hbelow : ∀ x ∈ nodesAll ts, (tops x.2).Pairwise (Apart src))
    (htops : (tops ts).Pairwise (Apart src)) : (nodesAll ts).Pairwise (Follows src) := by
  induction ts using forest_induction with
  | nil => exact .nil
  | leaf l error us ih =>
    rw [nodesAll_leaf] at hts hbelow ⊢
    exact ih hts hbelow htops
  | node h ts us iht ihu =>
    rw [nodesAll_node, List.forall_mem_cons, List.forall_mem_append] at hts hbelow
    obtain ⟨hx, hts, hus⟩ := hts
    obtain ⟨hchildren, htsbelow, husbelow⟩ := hbelow
    rw [tops_node, List.pairwise_cons] at htops
    -- What stands below the node stands over tokens of it, and what stands behind it does not.
    have hin : ∀ y ∈ nodesAll ts, ∀ i, y.1.holds src i = true → h.holds src i = true := by
      intro y hy i hi
      obtain ⟨k, hk, hyk⟩ := exists_top hts hy
      exact hx k hk i (hyk i hi)
    have hout : ∀ y ∈ nodesAll us, Apart src h y.1 := by
      intro y hy i hi
      obtain ⟨k, hk, hyk⟩ := exists_top hus hy
      exact htops.1 k hk i (hyk i hi)
    rw [nodesAll_node, List.pairwise_cons, List.pairwise_append]
    refine ⟨fun y hy ↦ ?_, iht hts htsbelow hchildren, ihu hus husbelow htops.2, ?_⟩
    · rcases List.mem_append.1 hy with hy | hy
      · exact .inl ⟨hy, hin y hy⟩
      · exact .inr (hout y hy)
    · intro x hx y hy
      refine .inr fun i hi ↦ ?_
      have hnot := hout y hy i hi
      rw [Bool.eq_false_iff]
      intro hheld
      rw [hin x hx i hheld] at hnot
      cases hnot

end Forest

namespace Nested

variable {src : Source} {t : Tree}

theorem holds (h : t.Nested src) : ∀ x ∈ t.nodes, Holds src x := by
  intro x hx k hk i hi
  obtain ⟨j, hj, -⟩ := h.span x hx
  obtain ⟨hstart, hstop⟩ := h.inside x hx k hk
  obtain ⟨hfirst, l, hl, hlast⟩ := Head.exists_stop_of_holds hi
  rw [Head.holds_iff hj]
  exact ⟨Nat.le_trans hstart hfirst, Nat.le_trans hlast (hstop l hl j hj)⟩

theorem follows (h : t.Nested src) : t.nodes.Pairwise (Follows src) := by
  have hholds := h.holds
  have happart : ∀ x ∈ t.nodes, (tops x.2).Pairwise (Apart src) := by
    intro x hx
    refine (h.apart x hx).imp fun {k l} hkl i hi ↦ ?_
    unfold Head.holds at hi ⊢
    rw [Bool.and_eq_true, decide_eq_true_eq] at hi
    rw [Bool.and_eq_false_iff, Option.any_eq_false]
    right
    intro j hj
    have hlt := hkl j hj
    rw [decide_eq_false_iff_not]
    omega
  rw [← nodesAll_singleton t] at hholds happart ⊢
  refine pairwise_follows hholds happart ?_
  cases t with
  | leaf l error => exact .nil
  | node h ts => exact List.pairwise_singleton _ _

end Nested

end Tree

namespace Tree

theorem mem_leavesAll_of_below {ts : List Tree} {x : Head × List Tree} (hx : x ∈ nodesAll ts)
    {l : Leaf × Bool} (hl : l ∈ leavesAll x.2) : l ∈ leavesAll ts := by
  induction ts using forest_induction with
  | nil => cases hx
  | leaf k error us ih =>
    rw [nodesAll_leaf] at hx
    rw [leavesAll_leaf]
    exact List.mem_cons_of_mem _ (ih hx)
  | node h ts us iht ihu =>
    rw [nodesAll_node, List.mem_cons, List.mem_append] at hx
    rw [leavesAll_node, List.mem_append]
    rcases hx with rfl | hx | hx
    · exact .inl hl
    · exact .inl (iht hx)
    · exact .inr (ihu hx)

theorem mem_tokensAll_of_below {ts : List Tree} {x : Head × List Tree} (hx : x ∈ nodesAll ts)
    {i : Nat} (hi : i ∈ tokensAll x.2) : i ∈ tokensAll ts := by
  obtain ⟨l, hl, htoken⟩ := List.mem_filterMap.1 hi
  exact List.mem_filterMap.2 ⟨l, mem_leavesAll_of_below hx hl, htoken⟩

theorem mem_leaves_of_below {t : Tree} {x : Head × List Tree} (hx : x ∈ t.nodes)
    {l : Leaf × Bool} (hl : l ∈ leavesAll x.2) : l ∈ t.leaves := by
  cases t with
  | leaf l error => cases hx
  | node h ts =>
    rw [nodes, List.mem_cons] at hx
    rw [leaves]
    rcases hx with rfl | hx
    · exact hl
    · exact mem_leavesAll_of_below hx hl

end Tree

/-- The leaves of a tree are tokens of a buffer: those of a node come in order, the first token of
the node among them, and each is a token that the node stands over or one over which no node of the
tree stands. -/
structure Buffer.Carries (b : Buffer) (t : Tree) : Prop where
  held : ∀ x ∈ t.nodes, ∀ j ∈ x.1.stop, b.source.index x.1.start ≤ b.source.index j →
    b.source.index j < b.texts.size
  ordered : ∀ x ∈ t.nodes, (Tree.tokensAll x.2).Pairwise fun i j ↦
    b.source.index i ≤ b.source.index j
  first : ∀ x ∈ t.nodes, x.1.holds b.source (b.source.index x.1.start) = true →
    ∃ i ∈ Tree.tokensAll x.2, b.source.index i = b.source.index x.1.start
  within : ∀ x ∈ t.nodes, ∀ i ∈ Tree.tokensAll x.2,
    x.1.holds b.source (b.source.index i) = true ∨
      ∀ y ∈ t.nodes, y.1.holds b.source (b.source.index i) = false

instance (b : Buffer) (t : Tree) : Decidable (b.Carries t) :=
  decidable_of_iff
    ((∀ x ∈ t.nodes, ∀ j ∈ x.1.stop, b.source.index x.1.start ≤ b.source.index j →
        b.source.index j < b.texts.size) ∧
      (∀ x ∈ t.nodes, (Tree.tokensAll x.2).Pairwise fun i j ↦
        b.source.index i ≤ b.source.index j) ∧
      (∀ x ∈ t.nodes, x.1.holds b.source (b.source.index x.1.start) = true →
        ∃ i ∈ Tree.tokensAll x.2, b.source.index i = b.source.index x.1.start) ∧
      ∀ x ∈ t.nodes, ∀ i ∈ Tree.tokensAll x.2,
        x.1.holds b.source (b.source.index i) = true ∨
          ∀ y ∈ t.nodes, y.1.holds b.source (b.source.index i) = false)
    ⟨fun ⟨hheld, hordered, hfirst, hwithin⟩ ↦ ⟨hheld, hordered, hfirst, hwithin⟩,
      fun h ↦ ⟨h.held, h.ordered, h.first, h.within⟩⟩

section Parse

open Session

variable {input : Input}

/-- The tokens of a node are those from its first to its last one, and then the mark of the end any
number of times. -/
def Fills (input : Input) (x : Head × List Tree) : Prop :=
  ∃ e m, x.1.start ≤ e ∧ e < input.size ∧ x.1.stop = Tree.lastBefore e ∧
    Tree.tokensAll x.2 = List.range' x.1.start (e - x.1.start) ++ List.replicate m e ∧
    (0 < m → input.kind e = .eof)

theorem parseKinds_fills (a : Atlas) (rule : Rule) (hin : input.Closed) :
    ∀ x ∈ (parseKinds a rule input).tree.nodes, Fills input x := by
  have hmoves := moves_final a rule input
  have hopen : (opening rule).InStep input ∧ (opening rule).pos < input.size :=
    ⟨.opening rule, hin.size_pos⟩
  have hclosed : ∀ {s : Session}, s.InStep input ∧ s.pos < input.size → Fills input s.closed := by
    rintro s ⟨⟨hle, m, htokens, heof⟩, hpos⟩
    exact ⟨s.pos, m, hle, hpos, rfl, htokens, heof⟩
  have hstep : ∀ {s t : Session}, Moves input s t → s.InStep input ∧ s.pos < input.size →
      t.InStep input ∧ t.pos < input.size := fun h hs ↦ ⟨h.inStep hs.1, h.pos_lt hin hs.2⟩
  apply forall_nodes_of_below
  · exact hclosed (hstep hmoves hopen)
  · refine hmoves.forall_below hstep (fun r site hs ↦ ⟨.enter r site _, hs.2⟩) hclosed hopen ?_
    intro x hx
    cases hx

/-- Which tokens a node of a parse stands over. -/
theorem Fills.holds_iff {sql : String} {x : Head × List Tree} {e i : Nat} (hle : x.1.start ≤ e)
    (he : e < (Source.ofString sql).input.size) (hstop : x.1.stop = Tree.lastBefore e)
    (hi : i < (Source.ofString sql).input.size) :
    x.1.holds (Source.ofString sql) ((Source.ofString sql).index i) = true ↔
      x.1.start ≤ i ∧ i < e := by
  rcases Nat.eq_zero_or_pos e with rfl | hpos
  · have hnone : x.1.stop = none := hstop
    simp [Head.holds, hnone]
  · have hsome : x.1.stop = some (e - 1) := by
      rw [hstop, Tree.lastBefore, if_neg (by omega)]
    rw [Head.holds_iff hsome, index_le_iff (by omega) hi, index_le_iff hi (by omega)]
    omega

/-- What a node of a parse stands over has been read. -/
theorem Fills.lt_fetched {rule : Rule} {sql : String} {x : Head × List Tree}
    (hx : x ∈ (Parsed.ofString rule sql).tree.nodes) {i : Nat}
    (hi : x.1.holds (Source.ofString sql) i = true) : i < (Parsed.ofString rule sql).fetched := by
  have hin := closed_ofString sql
  obtain ⟨e, m, hle, he, hstop, htokens, -⟩ := parseKinds_fills .sql rule hin x hx
  have hheld : x.1.start < e ∧ i ≤ (Source.ofString sql).index (e - 1) := by
    rcases Nat.eq_zero_or_pos e with rfl | hpos
    · have hnone : x.1.stop = none := hstop
      simp [Head.holds, hnone] at hi
    · have hsome : x.1.stop = some (e - 1) := by
        rw [hstop, Tree.lastBefore, if_neg (by omega)]
      rw [Head.holds_iff hsome] at hi
      have hstart := (index_le_iff (by omega) (by omega)).1 (Nat.le_trans hi.1 hi.2)
      exact ⟨by omega, hi.2⟩
  have hlast : e - 1 ∈ (parseKinds .sql rule (Source.ofString sql).input).tree.tokens := by
    have hmem : e - 1 ∈ Tree.tokensAll x.2 := by
      rw [htokens, List.mem_append, List.mem_range'_1]
      omega
    obtain ⟨l, hl, htoken⟩ := List.mem_filterMap.1 hmem
    exact List.mem_filterMap.2 ⟨l, Tree.mem_leaves_of_below hx hl, htoken⟩
  obtain ⟨n, k, -, hn, hall, heof⟩ := parseKinds_tokens .sql rule hin
  have hseen := (parseKinds_seen .sql rule hin).1
  rw [← hn] at hseen
  rw [hall, List.mem_append, List.mem_range, List.mem_replicate] at hlast
  have hpos : e - 1 < n := by
    rcases hlast with hlast | ⟨hk, hlast⟩
    · exact hlast
    · -- The mark of the end is not passed.
      have hbefore : e - 1 < (Source.ofString sql).input.last := by
        unfold Input.last
        omega
      rw [hlast] at hbefore
      exact absurd (heof (Nat.pos_of_ne_zero hk)) (kind_ne_eof hbefore)
  have hindex := index_le_index (Nat.le_of_lt (Nat.lt_of_lt_of_le hpos hseen))
    (seen_lt_size rule sql)
  exact Nat.lt_succ_of_le (Nat.le_trans hheld.2 hindex)

/-- The leaves of a parse are tokens of the text, whatever texts these have been given. -/
theorem carries_ofString (rule : Rule) (sql : String) {b : Buffer}
    (hsource : b.source = Source.ofString sql)
    (hsize : (Parsed.ofString rule sql).fetched ≤ b.texts.size) :
    b.Carries (Parsed.ofString rule sql).tree := by
  have hfills : ∀ x ∈ (Parsed.ofString rule sql).tree.nodes, Fills (Source.ofString sql).input x :=
    parseKinds_fills .sql rule (closed_ofString sql)
  refine ⟨?_, ?_, ?_, ?_⟩ <;> rw [hsource] <;> intro x hx
  · intro j hj hle
    have hheld := (Head.holds_iff hj).2 ⟨hle, Nat.le_refl _⟩
    exact Nat.lt_of_lt_of_le (Fills.lt_fetched hx hheld) hsize
  · obtain ⟨e, m, hle, he, -, htokens, -⟩ := hfills x hx
    have hlt : ∀ i ∈ Tree.tokensAll x.2, i < (Source.ofString sql).input.size := by
      intro i hi
      rw [htokens, List.mem_append, List.mem_range'_1, List.mem_replicate] at hi
      omega
    have hsorted : (Tree.tokensAll x.2).Pairwise (· ≤ ·) := by
      rw [htokens, List.pairwise_append]
      refine ⟨List.pairwise_le_range', List.pairwise_replicate.2 (.inr (Nat.le_refl e)), ?_⟩
      intro i hi j hj
      rw [List.mem_range'_1] at hi
      rw [List.eq_of_mem_replicate hj]
      omega
    exact hsorted.imp_of_mem fun _ hj hij ↦ index_le_index hij (hlt _ hj)
  · intro hi
    obtain ⟨e, m, hle, he, hstop, htokens, -⟩ := hfills x hx
    rw [Fills.holds_iff hle he hstop (by omega)] at hi
    refine ⟨x.1.start, ?_, rfl⟩
    rw [htokens, List.mem_append, List.mem_range'_1]
    omega
  · intro i hi
    obtain ⟨e, m, hle, he, hstop, htokens, heof⟩ := hfills x hx
    rw [htokens, List.mem_append, List.mem_range'_1, List.mem_replicate] at hi
    rcases hi with hi | ⟨hm, rfl⟩
    · left
      rw [Fills.holds_iff hle he hstop (by omega)]
      omega
    · right
      intro y hy
      obtain ⟨e, -, hle, he', hstop, -⟩ := hfills y hy
      rw [Bool.eq_false_iff, ne_eq, Fills.holds_iff hle he' hstop he]
      have hend : ¬i < (Source.ofString sql).input.last := fun hlt ↦
        kind_ne_eof hlt (heof (Nat.pos_of_ne_zero hm))
      unfold Input.last at hend
      omega

theorem fetched_le_size (rule : Rule) (sql : String) :
    (Parsed.ofString rule sql).fetched ≤
      (Buffer.ofParsed (Parsed.ofString rule sql)).texts.size := by
  have hlast := index_last sql
  have hindex : (Parsed.ofString rule sql).fetched ≤ (Token.scan sql).length := by
    rw [← hlast]
    exact Nat.succ_le_succ (index_le_index (Nat.min_le_right _ _)
      (Nat.sub_lt (closed_ofString sql).size_pos Nat.one_pos))
  change _ ≤ (((Token.scan sql).toArray.take (Parsed.ofString rule sql).fetched).map
    Token.text).size
  simp only [Array.size_map, Array.take_eq_extract, Array.size_extract, List.size_toArray]
  omega

end Parse

end PlanCache
