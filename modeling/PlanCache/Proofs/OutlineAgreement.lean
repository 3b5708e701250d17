import PlanCache.Proofs.Brackets
import PlanCache.Proofs.Outlines

/-!
Two ways to the text of a query without its literals and inner selects. An outline does not enter a
select that it cuts out; two passes one after another leave a placeholder for each select inside it
too. The texts agree if such placeholders stand in brackets with nothing but placeholders.
-/

namespace PlanCache

namespace Head

variable {sql : String} {h k : Head} {p i : Nat}

/-- A node stands over a token that the grammar reads. -/
def Covers (h : Head) (p : Nat) : Prop := h.start ≤ p ∧ ∃ j ∈ h.stop, p ≤ j

theorem Within.covers (hw : k.Within h) (hk : k.Covers p) : h.Covers p := by
  obtain ⟨hstart, j, hj, hle⟩ := hk
  obtain ⟨j', hj', hle'⟩ := hw.2 j hj
  exact ⟨Nat.le_trans hw.1 hstart, j', hj', Nat.le_trans hle hle'⟩

theorem Within.holds (hw : k.Within h) (hk : k.Placed (Source.ofString sql).input)
    (hh : h.Placed (Source.ofString sql).input) (hi : k.holds (.ofString sql) i = true) :
    h.holds (.ofString sql) i = true := by
  unfold Head.holds at hi
  rw [Bool.and_eq_true, decide_eq_true_eq, Option.any_eq_true] at hi
  obtain ⟨hstart, j, hj, hle⟩ := hi
  obtain ⟨j', hj', hle'⟩ := hw.2 j hj
  rw [decide_eq_true_eq] at hle
  rw [holds_iff hj']
  exact ⟨Nat.le_trans (index_le_index hw.1 hk.start_lt) hstart,
    Nat.le_trans hle (index_le_index hle' (hh.stop_lt j' hj'))⟩

theorem holds_index_iff (hh : h.Placed (Source.ofString sql).input)
    (hp : p < (Source.ofString sql).input.size) :
    h.holds (.ofString sql) ((Source.ofString sql).index p) = true ↔ h.Covers p := by
  unfold Head.holds Covers
  rw [Bool.and_eq_true, decide_eq_true_eq, Option.any_eq_true, index_le_iff hh.start_lt hp]
  refine and_congr_right fun _ ↦ exists_congr fun j ↦ and_congr_right fun hj ↦ ?_
  rw [decide_eq_true_eq, index_le_iff hp (hh.stop_lt j hj)]

end Head

/-- Of nodes that stand one after another only one stands over a token. -/
theorem Tree.eq_of_covers {cs : List Head} (hcs : cs.Pairwise Before) {c d : Head} {p : Nat}
    (hc : c ∈ cs) (hd : d ∈ cs) (hcp : c.Covers p) (hdp : d.Covers p) : c = d := by
  have hapart : ∀ {x y : Head}, Before x y → x.Covers p → ¬y.Covers p := by
    rintro x y hxy ⟨-, j, hj, hle⟩ ⟨hstart, -⟩
    have := hxy j hj
    omega
  induction cs with
  | nil => cases hc
  | cons x cs ih =>
    obtain ⟨hx, hcs⟩ := List.pairwise_cons.1 hcs
    rcases List.mem_cons.1 hc with hc | hc <;> rcases List.mem_cons.1 hd with hd | hd
    · rw [hc, hd]
    · exact absurd hdp (hapart (hc ▸ hx d hd) hcp)
    · exact absurd hcp (hapart (hd ▸ hx c hc) hdp)
    · exact ih hcs hc hd

/-- The selects among some that begin inside another of them. -/
def nestedSelects (hs : List Head) : List Head :=
  hs.filter fun h ↦ hs.any fun k ↦ k.start < h.start && k.stop.any (h.start ≤ ·)

theorem mem_nestedSelects {hs : List Head} {h : Head} : h ∈ nestedSelects hs ↔
    h ∈ hs ∧ ∃ k ∈ hs, k.start < h.start ∧ k.Covers h.start := by
  unfold nestedSelects Head.Covers
  rw [List.mem_filter, List.any_eq_true]
  refine and_congr_right fun _ ↦ exists_congr fun k ↦ and_congr_right fun _ ↦ ?_
  rw [Bool.and_eq_true, decide_eq_true_eq, Option.any_eq_true]
  simp only [decide_eq_true_eq]
  constructor
  · rintro ⟨hlt, hstop⟩
    exact ⟨hlt, Nat.le_of_lt hlt, hstop⟩
  · rintro ⟨hlt, -, hstop⟩
    exact ⟨hlt, hstop⟩

/-- A token between brackets that hold nothing but placeholders. -/
def Buffer.Enclosed (b : Buffer) (i : Nat) : Prop :=
  ∃ l < i, ∃ r < b.texts.size, i < r ∧ b.Bracketed l r

instance (b : Buffer) (i : Nat) : Decidable (b.Enclosed i) :=
  inferInstanceAs (Decidable (∃ l < i, ∃ r < b.texts.size, i < r ∧ b.Bracketed l r))

/-- Numbers of the tokens at which they begin. -/
def Source.nestedPlaces (src : Source) (hs : List Head) : List Nat :=
  (nestedSelects hs).map (src.index ·.start)

/-- Trees over the tokens of a text, and the nodes that an outline cuts out of them. -/
structure Outlining (sql : String) (b : Buffer) (ts : List Tree) (cs : List Head) : Prop where
  source : b.source = .ofString sql
  tiles : ∃ a e, Tree.TilesAll ts a e
  located : ∀ x ∈ Tree.nodesAll ts, Located b x
  outlined : Tree.Outlined b false ts cs

namespace Outlining

variable {sql : String} {b n c d : Buffer} {ts : List Tree} {cs : List Head} {h k : Head}
  {x : Head × List Tree} {i p : Nat}

theorem placed (ho : Outlining sql b ts cs) (hx : x ∈ Tree.nodesAll ts) :
    x.1.Placed (Source.ofString sql).input := ho.source ▸ (ho.located x hx).placed

theorem placed_of_inner (ho : Outlining sql b ts cs) (hh : h ∈ Tree.innerAll false ts) :
    h.Placed (Source.ofString sql).input := by
  obtain ⟨us, hus, -⟩ := Tree.exists_node_of_mem_innerAll hh
  exact ho.placed hus

theorem placed_of_cut (ho : Outlining sql b ts cs) (hh : h ∈ cs) :
    h.Placed (Source.ofString sql).input := by
  obtain ⟨us, hus⟩ := ho.outlined.exists_node hh
  exact ho.placed hus

theorem covers_of_inner (ho : Outlining sql b ts cs) (hh : h ∈ Tree.innerAll false ts) :
    h.Covers h.start := by
  obtain ⟨us, hus, hr⟩ := Tree.exists_node_of_mem_innerAll hh
  exact ⟨Nat.le_refl _, (ho.located _ hus).regular.select hr⟩

theorem covers_of_replaces (ho : Outlining sql b ts cs) (hx : x ∈ Tree.nodesAll ts)
    (hr : b.replaces x = true) : x.1.Covers x.1.start :=
  ⟨Nat.le_refl _, x.1.start, ((ho.located x hx).regular.single hr).stop, Nat.le_refl _⟩

/-- What is cut out is an inner select, or a single token. -/
theorem cut_cases (ho : Outlining sql b ts cs) (hh : h ∈ cs) :
    h ∈ Tree.innerAll false ts ∨ h.rule ≠ .selectCore ∧ h.stop = some h.start ∧
      ∃ x ∈ Tree.nodesAll ts, x.1 = h ∧ b.replaces x = true := by
  rcases ho.outlined.cases_of_mem hh with hh | ⟨us, hus, ht⟩
  · exact .inl hh
  · have hreplaces := (Bool.and_eq_true_iff.1 ht).2
    refine .inr ⟨fun hr ↦ ?_, ((ho.located _ hus).regular.single hreplaces).stop, _, hus, rfl,
      hreplaces⟩
    rw [Tree.isToken_of_select hr] at ht
    cases ht

theorem covers_of_cut (ho : Outlining sql b ts cs) (hh : h ∈ cs) : h.Covers h.start := by
  rcases ho.cut_cases hh with hh | ⟨-, hstop, -⟩
  · exact ho.covers_of_inner hh
  · exact ⟨Nat.le_refl _, h.start, hstop, Nat.le_refl _⟩

/-- No select that is cut out begins inside another inner select. -/
theorem start_not_mem (ho : Outlining sql b ts cs) (hh : h ∈ cs) :
    (Source.ofString sql).index h.start ∉
      (Source.ofString sql).nestedPlaces (Tree.innerAll false ts) := by
  intro hmem
  obtain ⟨g, hg, he⟩ := List.mem_map.1 hmem
  obtain ⟨hg, k, hk, hlt, hcovers⟩ := mem_nestedSelects.1 hg
  obtain ⟨a, e, htiles⟩ := ho.tiles
  obtain ⟨c, hc, -, hwithin⟩ := ho.outlined.exists_within htiles hk
  have hstart : g.start = h.start := by
    have hg' := (ho.placed_of_inner hg).start_lt
    have hh' := (ho.placed_of_cut hh).start_lt
    have h₁ := (index_le_iff hg' hh').1 (Nat.le_of_eq he)
    have h₂ := (index_le_iff hh' hg').1 (Nat.le_of_eq he.symm)
    omega
  rw [hstart] at hcovers hlt
  have heq := Tree.eq_of_covers (ho.outlined.pairwise_before htiles) hc hh
    (hwithin.covers hcovers) (ho.covers_of_cut hh)
  have hle := hwithin.1
  rw [heq] at hle
  omega

theorem cuts_ordered (ho : Outlining sql b ts cs) :
    cs.Pairwise fun x y ↦ b.source.index x.start ≤ b.source.index y.start := by
  obtain ⟨a, e, htiles⟩ := ho.tiles
  rw [ho.source]
  refine (ho.outlined.pairwise_before htiles).imp_of_mem fun {x y} hx hy hxy ↦ ?_
  obtain ⟨-, j, hj, hle⟩ := ho.covers_of_cut hx
  have hlt := hxy j hj
  exact index_le_index (by omega) (ho.placed_of_cut hy).start_lt

theorem inner_ordered (ho : Outlining sql b ts cs) : (Tree.innerAll false ts).Pairwise fun x y ↦
    b.source.index x.start ≤ b.source.index y.start := by
  obtain ⟨a, e, htiles⟩ := ho.tiles
  have hnodes : (Tree.nodesAll ts).Pairwise fun x y ↦
      b.source.index x.1.start ≤ b.source.index y.1.start := by
    rw [ho.source]
    exact htiles.pairwise_start.imp_of_mem fun _ hy hle ↦ index_le_index hle (ho.placed hy).start_lt
  rw [Tree.innerAll, Masked.cuts, List.pairwise_map]
  exact hnodes.sublist (List.filter_sublist.trans
    ((List.drop_sublist _ _).trans List.filter_sublist))

/-- What both passes leave of a token. -/
theorem text_masked (ho : Outlining sql b ts cs) (hn : b.Replacing (Tree.nodesAll ts) n)
    (hc : n.cutNodes (Tree.innerAll false ts) = .ok c) (hi : i < b.texts.size) :
    c.text i = if (Tree.innerAll false ts).any ((Source.ofString sql).index ·.start == i) then
        placeholder
      else if (Tree.innerAll false ts).any (·.holds (.ofString sql) i) then "" else n.text i := by
  have htext := Buffer.text_cutNodes hc (by rw [hn.source]; exact ho.inner_ordered)
    (by rwa [hn.size])
  rwa [hn.source, ho.source] at htext

theorem exists_cut_holds (ho : Outlining sql b ts cs) (hh : h ∈ Tree.innerAll false ts)
    (hi : h.holds (.ofString sql) i = true) :
    ∃ c ∈ cs, c.rule = .selectCore ∧ c.holds (.ofString sql) i = true := by
  obtain ⟨a, e, htiles⟩ := ho.tiles
  obtain ⟨c, hc, hr, hwithin⟩ := ho.outlined.exists_within htiles hh
  exact ⟨c, hc, hr, hwithin.holds (ho.placed_of_inner hh) (ho.placed_of_cut hc) hi⟩

/-- Both passes put the placeholder where the outline puts it. -/
theorem text_of_start (ho : Outlining sql b ts cs) (hn : b.Replacing (Tree.nodesAll ts) n)
    (hc : n.cutNodes (Tree.innerAll false ts) = .ok c) (hh : h ∈ cs)
    (hi : (Source.ofString sql).index h.start < b.texts.size) :
    c.text ((Source.ofString sql).index h.start) = placeholder := by
  rw [ho.text_masked hn hc hi]
  rcases ho.cut_cases hh with hinner | ⟨hr, -, x, hx, rfl, hreplaces⟩
  · have hany : (Tree.innerAll false ts).any ((Source.ofString sql).index ·.start ==
        (Source.ofString sql).index h.start) = true :=
      List.any_eq_true.2 ⟨h, hinner, beq_iff_eq.2 rfl⟩
    rw [if_pos hany]
  · -- No inner select stands over a literal that is cut out by itself.
    have hplace := (ho.placed_of_cut hh).start_lt
    have hnone : (Tree.innerAll false ts).any
        (·.holds (.ofString sql) ((Source.ofString sql).index x.1.start)) = false := by
      rw [List.any_eq_false]
      intro k hk hholds
      obtain ⟨a, e, htiles⟩ := ho.tiles
      obtain ⟨c, hcut, hsel, hwithin⟩ := ho.outlined.exists_within htiles hk
      have hcovers := (Head.holds_index_iff (ho.placed_of_inner hk) hplace).1 hholds
      have heq := Tree.eq_of_covers (ho.outlined.pairwise_before htiles) hcut hh
        (hwithin.covers hcovers) (ho.covers_of_cut hh)
      exact hr (heq ▸ hsel)
    rw [hnone, if_neg Bool.false_ne_true, hn.text _ hi]
    have hmark : (Tree.nodesAll ts).any (fun y ↦ b.replaces y &&
        b.source.index y.1.start == (Source.ofString sql).index x.1.start) = true := by
      refine List.any_eq_true.2 ⟨x, hx, ?_⟩
      rw [hreplaces, ho.source]
      simp
    rw [if_pos hmark, ite_self]

/-- A token of a select that is cut out, other than its first one, is cleared by both passes, unless
an inner select begins at it. -/
theorem text_of_holds (ho : Outlining sql b ts cs) (hn : b.Replacing (Tree.nodesAll ts) n)
    (hc : n.cutNodes (Tree.innerAll false ts) = .ok c) (hh : h ∈ cs)
    (hholds : h.holds (.ofString sql) i = true) (hne : (Source.ofString sql).index h.start ≠ i)
    (hi : i < b.texts.size)
    (hmem : i ∉ (Source.ofString sql).nestedPlaces (Tree.innerAll false ts)) : c.text i = "" := by
  rcases ho.cut_cases hh with hinner | ⟨-, hstop, -⟩
  · have hany : (Tree.innerAll false ts).any (·.holds (.ofString sql) i) = true :=
      List.any_eq_true.2 ⟨h, hinner, hholds⟩
    have hnone : ¬(Tree.innerAll false ts).any ((Source.ofString sql).index ·.start == i) = true := by
      rw [List.any_eq_true]
      rintro ⟨g, hg, he⟩
      rw [beq_iff_eq] at he
      subst he
      have hg' := (ho.placed_of_inner hg).start_lt
      have hh' := ho.placed_of_inner hinner
      have hcovers := (Head.holds_index_iff hh' hg').1 hholds
      refine hmem (List.mem_map.2 ⟨g, mem_nestedSelects.2 ⟨hg, h, hinner, ?_, hcovers⟩, rfl⟩)
      rcases Nat.lt_or_eq_of_le hcovers.1 with hlt | heq
      · exact hlt
      · exact absurd (congrArg _ heq) hne
    rw [ho.text_masked hn hc hi, if_neg hnone, if_pos hany]
  · have hrange := (Head.holds_iff hstop).1 hholds
    omega

/-- An expression that is replaced is the literal below it. -/
theorem exists_token (ho : Outlining sql b ts cs) (hx : x ∈ Tree.nodesAll ts)
    (hr : b.replaces x = true) :
    ∃ y ∈ Tree.nodesAll ts, Tree.isToken b y = true ∧ y.1.start = x.1.start := by
  by_cases hexpr : x.1.rule = .expr
  · have hreg := (ho.located x hx).regular
    obtain ⟨y, hy, hrule⟩ := hreg.truth hr hexpr
    have hmem := Tree.mem_nodesAll_of_below hx hy
    have hreplaces : b.replaces y = true := by simp [Buffer.replaces, hrule]
    refine ⟨y, hmem, by simp [Tree.isToken, hreplaces, hrule], ?_⟩
    obtain ⟨a, e, htiles⟩ := ho.tiles
    obtain ⟨-, m, -, hstop, hbelow⟩ := htiles.node hx
    obtain ⟨hstart, k, hk, hstop', -⟩ := hbelow.node hy
    have hend := Tree.lastBefore_eq_some (hstop.symm.trans (hreg.single hr).stop)
    have hend' := Tree.lastBefore_eq_some
      (hstop'.symm.trans ((ho.located y hmem).regular.single hreplaces).stop)
    omega
  · exact ⟨x, hx, by simp [Tree.isToken, hexpr, hr], rfl⟩

/-- What is replaced is cut out, by itself or in a select. -/
theorem exists_cut_covers (ho : Outlining sql b ts cs) (hx : x ∈ Tree.nodesAll ts)
    (hr : b.replaces x = true) : ∃ c ∈ cs, c.Covers x.1.start := by
  obtain ⟨y, hy, ht, hstart⟩ := ho.exists_token hx hr
  obtain ⟨a, e, htiles⟩ := ho.tiles
  have hcovers := ho.covers_of_replaces hy (Bool.and_eq_true_iff.1 ht).2
  rw [← hstart]
  rcases ho.outlined.mem_or_exists_within htiles hy ht with hmem | ⟨c, hc, -, hwithin⟩
  · exact ⟨y.1, hmem, hcovers⟩
  · exact ⟨c, hc, hwithin.covers hcovers⟩

/-- A token that the outline leaves alone is left alone by both passes. -/
theorem text_of_not_holds (ho : Outlining sql b ts cs) (hn : b.Replacing (Tree.nodesAll ts) n)
    (hc : n.cutNodes (Tree.innerAll false ts) = .ok c) (hi : i < b.texts.size)
    (hnone : ∀ h ∈ cs, ¬h.holds (.ofString sql) i = true) :
    i ∉ (Source.ofString sql).nestedPlaces (Tree.innerAll false ts) ∧ c.text i = b.text i := by
  have hinner : ∀ h ∈ Tree.innerAll false ts, ¬h.holds (.ofString sql) i = true := by
    intro h hh hholds
    obtain ⟨c, hcut, -, hcut'⟩ := ho.exists_cut_holds hh hholds
    exact hnone c hcut hcut'
  have hstart : ∀ h ∈ Tree.innerAll false ts, (Source.ofString sql).index h.start ≠ i := by
    rintro h hh rfl
    have hplaced := ho.placed_of_inner hh
    exact hinner h hh ((Head.holds_index_iff hplaced hplaced.start_lt).2 (ho.covers_of_inner hh))
  refine ⟨fun hmem ↦ ?_, ?_⟩
  · obtain ⟨h, hh, he⟩ := List.mem_map.1 hmem
    exact hstart h (mem_nestedSelects.1 hh).1 he
  · have hfirst : ¬(Tree.innerAll false ts).any ((Source.ofString sql).index ·.start == i) = true := by
      simpa using hstart
    have hrange : ¬(Tree.innerAll false ts).any (·.holds (.ofString sql) i) = true := by
      simpa using hinner
    have hmark : ¬(Tree.nodesAll ts).any
        (fun x ↦ b.replaces x && b.source.index x.1.start == i) = true := by
      rw [List.any_eq_true, ho.source]
      rintro ⟨x, hx, hboth⟩
      rw [Bool.and_eq_true, beq_iff_eq] at hboth
      obtain ⟨hreplaces, rfl⟩ := hboth
      obtain ⟨c, hcut, hcovers⟩ := ho.exists_cut_covers hx hreplaces
      exact hnone c hcut
        ((Head.holds_index_iff (ho.placed_of_cut hcut) (ho.placed hx).start_lt).2 hcovers)
    rw [ho.text_masked hn hc hi, if_neg hfirst, if_neg hrange, hn.text i hi, if_neg hmark]

/-- The texts of an outline are those that both passes leave, without the placeholders of selects
inside others. -/
theorem text_eq (ho : Outlining sql b ts cs) (hd : b.cutNodes cs = .ok d)
    (hn : b.Replacing (Tree.nodesAll ts) n) (hc : n.cutNodes (Tree.innerAll false ts) = .ok c)
    (hi : i < b.texts.size) : d.text i =
      if i ∈ (Source.ofString sql).nestedPlaces (Tree.innerAll false ts) then "" else c.text i := by
  have htext := Buffer.text_cutNodes hd ho.cuts_ordered hi
  rw [ho.source] at htext
  rw [htext]
  by_cases hstart : cs.any ((Source.ofString sql).index ·.start == i) = true
  · rw [if_pos hstart]
    obtain ⟨h, hh, he⟩ := List.any_eq_true.1 hstart
    obtain rfl := beq_iff_eq.1 he
    rw [if_neg (ho.start_not_mem hh), ho.text_of_start hn hc hh hi]
  · rw [if_neg hstart]
    by_cases hholds : cs.any (·.holds (.ofString sql) i) = true
    · rw [if_pos hholds]
      obtain ⟨h, hh, hholds⟩ := List.any_eq_true.1 hholds
      split
      · rfl
      · rename_i hmem
        refine (ho.text_of_holds hn hc hh hholds (fun he ↦ hstart ?_) hi hmem).symm
        exact List.any_eq_true.2 ⟨h, hh, beq_iff_eq.2 he⟩
    · rw [if_neg hholds]
      obtain ⟨hmem, hsame⟩ := ho.text_of_not_holds hn hc hi (by simpa using hholds)
      rw [if_neg hmem, hsame]

/-- Inside a select that is cut out both passes leave placeholders or nothing. -/
theorem text_inside (ho : Outlining sql b ts cs) (hn : b.Replacing (Tree.nodesAll ts) n)
    (hc : n.cutNodes (Tree.innerAll false ts) = .ok c) (hh : h ∈ Tree.innerAll false ts)
    (hi : i < b.texts.size) (hholds : h.holds (.ofString sql) i = true) :
    c.text i = placeholder ∨ c.text i = "" := by
  have hany : (Tree.innerAll false ts).any (·.holds (.ofString sql) i) = true :=
    List.any_eq_true.2 ⟨h, hh, hholds⟩
  rw [ho.text_masked hn hc hi, if_pos hany]
  split
  · exact .inl rfl
  · exact .inr rfl

theorem text_of_nested (ho : Outlining sql b ts cs) (hn : b.Replacing (Tree.nodesAll ts) n)
    (hc : n.cutNodes (Tree.innerAll false ts) = .ok c) (hi : i < b.texts.size)
    (hmem : i ∈ (Source.ofString sql).nestedPlaces (Tree.innerAll false ts)) :
    c.text i = placeholder := by
  obtain ⟨h, hh, he⟩ := List.mem_map.1 hmem
  have hany : (Tree.innerAll false ts).any ((Source.ofString sql).index ·.start == i) = true :=
    List.any_eq_true.2 ⟨h, (mem_nestedSelects.1 hh).1, beq_iff_eq.2 he⟩
  rw [ho.text_masked hn hc hi, if_pos hany]

/-- The placeholder of a select stands in brackets together with that of the select around it. -/
theorem exists_mark (ho : Outlining sql b ts cs) (hn : b.Replacing (Tree.nodesAll ts) n)
    (hc : n.cutNodes (Tree.innerAll false ts) = .ok c) {l r : Nat} (hl : l < i) (hr : i < r)
    (hb : c.Bracketed l r)
    (hmem : i ∈ (Source.ofString sql).nestedPlaces (Tree.innerAll false ts)) :
    ∃ m, l < m ∧ m < r ∧ m ∉ (Source.ofString sql).nestedPlaces (Tree.innerAll false ts) ∧
      c.word? m = some placeholder := by
  have hsize : c.texts.size = b.texts.size := (Buffer.size_of_cutNodes hc).trans hn.size
  have hsource : c.source = .ofString sql :=
    (Buffer.source_of_cutNodes hc).trans (hn.source.trans ho.source)
  obtain ⟨hrsize, -⟩ := Buffer.word?_eq_some hb.closing
  obtain ⟨h, hh, rfl⟩ := List.mem_map.1 hmem
  obtain ⟨hh, k, hk, hlt, hcovers⟩ := mem_nestedSelects.1 hh
  obtain ⟨a, e, htiles⟩ := ho.tiles
  obtain ⟨g, hg, hrule, hwithin⟩ := ho.outlined.exists_within htiles hk
  have hginner : g ∈ Tree.innerAll false ts :=
    (ho.cut_cases hg).resolve_right fun hother ↦ hother.1 hrule
  have hgplaced := ho.placed_of_cut hg
  have hhplaced := ho.placed_of_inner hh
  have hholds : g.holds (.ofString sql) ((Source.ofString sql).index h.start) = true :=
    (Head.holds_index_iff hgplaced hhplaced.start_lt).2 (hwithin.covers hcovers)
  have hbefore : (Source.ofString sql).index g.start < (Source.ofString sql).index h.start :=
    index_lt_index (Nat.lt_of_le_of_lt hwithin.1 hlt) hhplaced.start_lt
  refine ⟨(Source.ofString sql).index g.start, ?_, by omega, ho.start_not_mem hg, ?_⟩
  · -- The opening bracket is no token of the select.
    apply Nat.lt_of_not_le
    intro hle
    obtain ⟨j, hj, -⟩ := hwithin.covers hcovers |>.2
    have hrange := (Head.holds_iff hj).1 hholds
    have hinside := (Head.holds_iff hj).2 ⟨hle, by omega⟩
    obtain ⟨-, htext⟩ := Buffer.word?_eq_some hb.opening
    rcases ho.text_inside hn hc hginner (by omega) hinside with he | he
    · exact absurd (htext.symm.trans he) (by decide)
    · exact absurd (htext.symm.trans he) (by decide)
  · rw [Buffer.word?_of_lt (Buffer.endLast_cells hsource) hb.closing (by omega),
      ho.text_of_start hn hc hg (by omega)]

/-- Where they stand in brackets, the placeholders of selects inside others do not count. -/
theorem rebuild_eq (ho : Outlining sql b ts cs) (hn : b.Replacing (Tree.nodesAll ts) n)
    (hc : n.cutNodes (Tree.innerAll false ts) = .ok c)
    (henclosed : ∀ i ∈ (Source.ofString sql).nestedPlaces (Tree.innerAll false ts), c.Enclosed i) :
    (((Source.ofString sql).nestedPlaces (Tree.innerAll false ts)).foldl Buffer.clear c).rebuild =
      c.rebuild := by
  have hsize : c.texts.size = b.texts.size := (Buffer.size_of_cutNodes hc).trans hn.size
  apply Buffer.rebuild_foldl_clear
  intro i hi
  obtain ⟨l, hl, r, -, hr, hb⟩ := henclosed i hi
  have hbracket : ∀ {j : Nat} {w : String}, c.word? j = some w → w ≠ placeholder →
      j ∉ (Source.ofString sql).nestedPlaces (Tree.innerAll false ts) := by
    intro j w hw hne hmem
    obtain ⟨hj, htext⟩ := Buffer.word?_eq_some hw
    exact hne (htext.symm.trans (ho.text_of_nested hn hc (by omega) hmem))
  exact ⟨l, r, ⟨hl, hr, hb⟩, ⟨hbracket hb.opening (by decide), hbracket hb.closing (by decide)⟩,
    ho.exists_mark hn hc hl hr hb hi⟩

end Outlining

theorem Buffer.tidy_joined (b : Buffer) : Rebuild.tidy b.joined = b.rebuild := by
  have hwords : ∀ cells : List Cell,
      (cells.filter fun c ↦ c.1.kind != .eof).map Prod.snd = cells.filterMap shown? := by
    intro cells
    induction cells with
    | nil => rfl
    | cons c cells ih =>
      by_cases hc : c.1.kind = .eof
      · rw [List.filter_cons_of_neg (by simp [hc]), List.filterMap_cons_none (by simp [shown?, hc]),
          ih]
      · have hshown : shown? c = some c.2 := by simp [shown?, hc]
        rw [List.filter_cons_of_pos (by simp [hc]), List.map_cons, ih,
          List.filterMap_cons_some hshown]
  have hjoined : b.joined = Text.joinWords (b.cells.filterMap shown?) := by
    rw [← hwords]
    rfl
  rw [rebuild_eq, Rebuild.tidy_eq, hjoined, Text.squeeze_joinWords, inked]

theorem Tree.innerAll_singleton (t : Tree) : innerAll false [t] = t.selects.tail := by
  rw [innerAll, nodesAll_singleton, Masked.cuts_nodes]

/-- An outline of a query begins with its tokens as they were written. -/
theorem exists_outlining (sql : String)
    (hreg : ∀ x ∈ (Buffer.ofString sql).2.nodes, Regular (Buffer.ofString sql).1 x) :
    ∃ cs d, Outlining sql (Buffer.ofString sql).1 [(Buffer.ofString sql).2] cs ∧
      (Buffer.ofString sql).1.cutNodes cs = .ok d ∧ (outline sql).1 = .ok d.joined := by
  have hb := (over_ofString sql).source
  have htiles : ∃ e, (Buffer.ofString sql).2.Tiles 0 e :=
    parseKinds_tiles Grammar.sql_tame (by decide) (Source.ofString sql).input
  obtain ⟨e, htiles⟩ := htiles
  have hrow : Tree.TilesAll [(Buffer.ofString sql).2] 0 e :=
    Tree.tilesAll_cons.2 ⟨e, htiles, Tree.tilesAll_nil.2 rfl⟩
  have hlocated : ∀ x ∈ Tree.nodesAll [(Buffer.ofString sql).2],
      Located (Buffer.ofString sql).1 x := by
    rw [Tree.nodesAll_singleton]
    intro x hx
    obtain ⟨hplaced, hleaves⟩ := (placed_ofString sql).nodes x hx
    exact ⟨hreg x hx, by rwa [hb], by rwa [hb]⟩
  obtain ⟨cs, hcs⟩ := Tree.exists_outlined (fun x hx ↦ (hlocated x hx).regular) false
  have hfresh : (Buffer.ofString sql).1.Fresh 0 (Buffer.ofString sql).1 := ⟨rfl, fun _ _ _ ↦ rfl⟩
  obtain ⟨u, hu, hcut, -, -⟩ := Outline.exists_descendAll hb hcs hrow hlocated
    (s := ⟨(Buffer.ofString sql).1, false, []⟩) rfl hfresh
  refine ⟨cs, u.buffer, ⟨hb, ⟨0, e, hrow⟩, hlocated, hcs⟩, hcut, ?_⟩
  rw [Outline.descendAll_singleton] at hu
  have hdescend : Outline.descend ⟨.ofParsed (Parsed.ofString .sqlStmtList sql), false, []⟩
      (Parsed.ofString .sqlStmtList sql).tree = .ok u := hu
  unfold outline
  dsimp only
  rw [hdescend]

/-- The tokens of a query when its literals have been replaced and then its inner selects cut
out. -/
def maskedBuffer (sql : String) : Except RangeError Buffer := do
  let (b, t) := Buffer.ofString sql
  let replaced ← Halt.result (b.replaceLiterals t)
  let masked ← Halt.result (replaced.buffer.maskInner t)
  return masked.buffer

/-- Numbers of the tokens at which a select begins inside another one that is not the first. -/
def nestedPlaces (sql : String) : List Nat :=
  (Source.ofString sql).nestedPlaces (Buffer.ofString sql).2.selects.tail

/-- Both passes go through, and each does what it should. -/
theorem exists_maskedBuffer (sql : String)
    (hreg : ∀ x ∈ (Buffer.ofString sql).2.nodes, Regular (Buffer.ofString sql).1 x) :
    ∃ n c, (Buffer.ofString sql).1.Replacing (Buffer.ofString sql).2.nodes n ∧
      n.cutNodes (Buffer.ofString sql).2.selects.tail = .ok c ∧ maskedBuffer sql = .ok c := by
  have hstart : (Buffer.ofString sql).1.Replacing [] (Buffer.ofString sql).1 :=
    ⟨rfl, rfl, fun _ _ ↦ rfl⟩
  obtain ⟨s, hs, hrep⟩ := Replaced.exists_passNodes (s := ⟨(Buffer.ofString sql).1, []⟩) hstart
    fun x hx ↦ (hreg x hx).single
  have hstop : ∀ h ∈ (Buffer.ofString sql).2.selects.tail, ∃ j, h.stop = some j := by
    intro h hh
    rw [← Tree.innerAll_singleton] at hh
    obtain ⟨us, hus, hr⟩ := Tree.exists_node_of_mem_innerAll hh
    rw [Tree.nodesAll_singleton] at hus
    obtain ⟨j, hj, -⟩ := (hreg _ hus).select hr
    exact ⟨j, hj⟩
  obtain ⟨c, hc⟩ := s.buffer.exists_cutNodes hstop
  obtain ⟨m, hm, rfl⟩ := Buffer.exists_maskInner hc
  refine ⟨s.buffer, m.buffer, hrep, hc, ?_⟩
  have hreplaced : Halt.result ((Buffer.ofString sql).1.replaceLiterals (Buffer.ofString sql).2) =
      .ok s := by
    rw [Buffer.replaceLiterals, hs, Halt.result]
  have hinner : Halt.result (s.buffer.maskInner (Buffer.ofString sql).2) = .ok m := by
    rw [hm, Halt.result]
  unfold maskedBuffer
  rw [bind_eq_ok_iff]
  refine ⟨s, hreplaced, ?_⟩
  rw [bind_eq_ok_iff]
  exact ⟨m, hinner, rfl⟩

/-- An outline is the text of what both passes leave, without the placeholders of selects inside
others. Cleaned up, both texts are the same if these stand in brackets with nothing but
placeholders. -/
theorem outline_eq_joined (sql : String)
    (hreg : ∀ x ∈ (Buffer.ofString sql).2.nodes, Regular (Buffer.ofString sql).1 x) :
    ∃ text c, (outline sql).1 = .ok text ∧ maskedBuffer sql = .ok c ∧
      text = ((nestedPlaces sql).foldl Buffer.clear c).joined ∧
      ((∀ i ∈ nestedPlaces sql, c.Enclosed i) → Rebuild.tidy text = c.rebuild) := by
  obtain ⟨cs, d, ho, hd, houtline⟩ := exists_outlining sql hreg
  obtain ⟨n, c, hn, hc, hmasked⟩ := exists_maskedBuffer sql hreg
  rw [← Tree.nodesAll_singleton] at hn
  rw [← Tree.innerAll_singleton] at hc
  have hplaces : nestedPlaces sql =
      (Source.ofString sql).nestedPlaces (Tree.innerAll false [(Buffer.ofString sql).2]) := by
    rw [Tree.innerAll_singleton]
    rfl
  have hsource : c.source = d.source := by
    rw [Buffer.source_of_cutNodes hc, hn.source, Buffer.source_of_cutNodes hd]
  have hsize : c.texts.size = (Buffer.ofString sql).1.texts.size := by
    rw [Buffer.size_of_cutNodes hc, hn.size]
  have hsame : d = (nestedPlaces sql).foldl Buffer.clear c := by
    apply Buffer.eq_of_text_eq
    · rw [Buffer.source_foldl_clear, hsource]
    · rw [Buffer.size_foldl_clear, hsize, Buffer.size_of_cutNodes hd]
    · intro i hi
      rw [Buffer.size_of_cutNodes hd] at hi
      rw [Buffer.text_foldl_clear, hplaces, ho.text_eq hd hn hc hi]
  refine ⟨d.joined, c, houtline, hmasked, by rw [hsame], fun henclosed ↦ ?_⟩
  rw [hplaces] at henclosed hsame
  rw [Buffer.tidy_joined, hsame, ho.rebuild_eq hn hc henclosed]

theorem nestedPlaces_union :
    (∀ x ∈ (Buffer.ofString "SELECT * UNION SELECT * FROM (SELECT *)").2.nodes,
        Regular (Buffer.ofString "SELECT * UNION SELECT * FROM (SELECT *)").1 x) ∧
      nestedPlaces "SELECT * UNION SELECT * FROM (SELECT *)" = [13] ∧
      (outline "SELECT * UNION SELECT * FROM (SELECT *)").1.toOption.map Rebuild.tidy =
        some "SELECT * UNION ?" ∧
      (maskedBuffer "SELECT * UNION SELECT * FROM (SELECT *)").toOption.map Buffer.rebuild =
        some "SELECT * UNION ? ?" := by
  decide +kernel

theorem outline_eq_joined_union :
    ∃ text c, (outline "SELECT * UNION SELECT * FROM (SELECT *)").1 = .ok text ∧
      maskedBuffer "SELECT * UNION SELECT * FROM (SELECT *)" = .ok c ∧
      text = (c.clear 13).joined := by
  obtain ⟨hreg, hplaces, -⟩ := nestedPlaces_union
  obtain ⟨text, c, htext, hc, hjoined, -⟩ := outline_eq_joined _ hreg
  rw [hplaces] at hjoined
  exact ⟨text, c, htext, hc, hjoined⟩

/-- A select inside the second of two selects leaves a placeholder of its own behind. -/
theorem outline_ne_rebuild :
    ∃ sql text c, (outline sql).1 = .ok text ∧ maskedBuffer sql = .ok c ∧
      Rebuild.tidy text ≠ c.rebuild := by
  obtain ⟨-, -, houtline, hmasked⟩ := nestedPlaces_union
  obtain ⟨text, htext, htidy⟩ := Option.map_eq_some_iff.1 houtline
  obtain ⟨c, hc, hrebuild⟩ := Option.map_eq_some_iff.1 hmasked
  refine ⟨_, text, c, eq_ok_of_toOption htext, eq_ok_of_toOption hc, ?_⟩
  rw [htidy, hrebuild]
  decide

end PlanCache
