import PlanCache.Proofs.Brackets
import PlanCache.Proofs.Nesting

/-!
Selects that are cut out of the tokens of any tree whose nodes are nested. The placeholder of a
select inside another one is put where nothing was left of the outer one, so in the end there is one
for each select that is cut out, and nothing else of them.
-/

namespace PlanCache

namespace Tree

/-- The tokens of one node stand before those of another. -/
def Precedes (src : Source) (h k : Head) : Prop :=
  ∀ i j, h.holds src i = true → k.holds src j = true → i < j

variable {src : Source} {ts : List Tree} {t : Tree}

theorem nodesAll_pairwise_start (hts : ∀ x ∈ nodesAll ts, Holds src x)
    (hstart : ∀ x ∈ nodesAll ts, x.1.holds src (src.index x.1.start) = true)
    (hbelow : ∀ x ∈ nodesAll ts, (tops x.2).Pairwise (Precedes src))
    (htops : (tops ts).Pairwise (Precedes src)) :
    (nodesAll ts).Pairwise fun x y ↦ src.index x.1.start ≤ src.index y.1.start := by
  induction ts using forest_induction with
  | nil => exact .nil
  | leaf l error us ih =>
    rw [nodesAll_leaf] at hts hstart hbelow ⊢
    exact ih hts hstart hbelow htops
  | node h ts us iht ihu =>
    rw [nodesAll_node, List.forall_mem_cons, List.forall_mem_append] at hts hstart hbelow
    obtain ⟨hx, hts, hus⟩ := hts
    obtain ⟨hfirst, htsstart, husstart⟩ := hstart
    obtain ⟨hchildren, htsbelow, husbelow⟩ := hbelow
    rw [tops_node, List.pairwise_cons] at htops
    -- What is below the node begins at a token of it, and what is behind it at a later one.
    have hin : ∀ y ∈ nodesAll ts, h.holds src (src.index y.1.start) = true := by
      intro y hy
      obtain ⟨k, hk, hyk⟩ := exists_top hts hy
      exact hx k hk _ (hyk _ (htsstart y hy))
    have hout : ∀ y ∈ nodesAll us, ∀ i, h.holds src i = true → i ≤ src.index y.1.start := by
      intro y hy i hi
      obtain ⟨k, hk, hyk⟩ := exists_top hus hy
      exact Nat.le_of_lt (htops.1 k hk i _ hi (hyk _ (husstart y hy)))
    simp only [nodesAll_node, List.pairwise_cons, List.pairwise_append, List.mem_append]
    refine ⟨?_, iht hts htsstart htsbelow hchildren, ihu hus husstart husbelow htops.2, ?_⟩
    · rintro y (hy | hy)
      · exact (Head.exists_stop_of_holds (hin y hy)).1
      · exact hout y hy _ hfirst
    · intro x hx y hy
      exact hout y hy _ (hin x hx)

theorem Nested.holds_start (h : t.Nested src) :
    ∀ x ∈ t.nodes, x.1.holds src (src.index x.1.start) = true := by
  intro x hx
  obtain ⟨j, hj, hle⟩ := h.span x hx
  exact (Head.holds_iff hj).2 ⟨Nat.le_refl _, hle⟩

/-- In a nested tree the nodes are gone through in the order in which they begin. -/
theorem Nested.pairwise_start (h : t.Nested src) :
    t.nodes.Pairwise fun x y ↦ src.index x.1.start ≤ src.index y.1.start := by
  have hfirst := h.holds_start
  have hprecedes : ∀ x ∈ t.nodes, (tops x.2).Pairwise (Precedes src) := by
    intro x hx
    apply (h.apart x hx).imp
    intro k l hkl i j hi hj
    obtain ⟨-, stop, hstop, hle⟩ := Head.exists_stop_of_holds hi
    have hlt := hkl stop hstop
    have hge := (Head.exists_stop_of_holds hj).1
    omega
  have hholds := h.holds
  rw [← nodesAll_singleton t] at hfirst hprecedes hholds ⊢
  apply nodesAll_pairwise_start hholds hfirst hprecedes
  cases t with
  | leaf l error => exact .nil
  | node h ts => exact List.pairwise_singleton _ _

/-- The selects of a tree but the first. -/
def innerSelects (t : Tree) : List (Head × List Tree) :=
  (t.nodes.filter (·.1.rule == .selectCore)).tail

/-- The selects of a tree but the first that have another one below them. -/
def innerNonLeaves (t : Tree) : List (Head × List Tree) :=
  t.innerSelects.filter fun x ↦ ∃ y ∈ nodesAll x.2, y.1.rule = .selectCore

theorem innerSelects_sublist (t : Tree) : t.innerSelects.Sublist t.nodes :=
  (List.tail_sublist _).trans List.filter_sublist

theorem innerNonLeaves_sublist (t : Tree) : t.innerNonLeaves.Sublist t.nodes :=
  List.filter_sublist.trans t.innerSelects_sublist

theorem cuts_inner (t : Tree) :
    Masked.cuts (fun _ ↦ true) false t.nodes = t.innerSelects.map Prod.fst := by
  simp only [Masked.cuts, innerSelects, Bool.false_eq_true, if_false, List.drop_one]
  rw [List.filter_eq_self.2 fun _ _ ↦ rfl]

theorem cuts_nonLeaves (t : Tree) :
    Masked.cuts hasSelect false t.nodes = t.innerNonLeaves.map Prod.fst := by
  simp only [Masked.cuts, innerNonLeaves, innerSelects, Bool.false_eq_true, if_false, List.drop_one]
  apply congrArg
  apply List.filter_congr
  intro x _
  rw [Bool.eq_iff_iff, decide_eq_true_eq]
  simp [hasSelect]

end Tree

namespace Buffer

/-- The nodes `xs` are masked in `c`: the placeholder stands where one begins, nothing at their
other tokens, and what is outside of them is as in `b`. -/
structure MaskedBy (b : Buffer) (xs : List (Head × List Tree)) (c : Buffer) : Prop where
  source : c.source = b.source
  size : c.texts.size = b.texts.size
  start : ∀ i < b.texts.size, (∃ x ∈ xs, b.source.index x.1.start = i) → c.text i = placeholder
  inside : ∀ i < b.texts.size, (∃ x ∈ xs, x.1.holds b.source i = true) →
    (∀ x ∈ xs, b.source.index x.1.start ≠ i) → c.text i = ""
  outside : ∀ i < b.texts.size, (∀ x ∈ xs, x.1.holds b.source i = false) → c.text i = b.text i

variable {b c d : Buffer} {t : Tree} {xs : List (Head × List Tree)}

theorem maskedBy_of_cutNodes (hc : b.cutNodes (xs.map Prod.fst) = .ok c)
    (hord : xs.Pairwise fun x y ↦ b.source.index x.1.start ≤ b.source.index y.1.start)
    (hfirst : ∀ x ∈ xs, x.1.holds b.source (b.source.index x.1.start) = true) :
    b.MaskedBy xs c := by
  have htext := fun i ↦ text_cutNodes (i := i) hc (List.pairwise_map.2 hord)
  simp only [List.any_map, List.any_eq_true, Function.comp_apply, beq_iff_eq] at htext
  refine ⟨source_of_cutNodes hc, size_of_cutNodes hc, ?_, ?_, ?_⟩
  · intro i hi hx
    rw [htext i hi, if_pos hx]
  · intro i hi hx hnone
    have hnot : ¬∃ x ∈ xs, b.source.index x.1.start = i := by
      rintro ⟨x, hx, he⟩
      exact hnone x hx he
    rw [htext i hi, if_neg hnot, if_pos hx]
  · intro i hi hnone
    have hnot : ¬∃ x ∈ xs, x.1.holds b.source i = true := by
      rintro ⟨x, hx, he⟩
      simp [hnone x hx] at he
    have hnotFirst : ¬∃ x ∈ xs, b.source.index x.1.start = i := by
      rintro ⟨x, hx, rfl⟩
      exact hnot ⟨x, hx, hfirst x hx⟩
    rw [htext i hi, if_neg hnotFirst, if_neg hnot]

/-- To mask the same nodes again changes nothing. -/
theorem MaskedBy.eq_of_again (h : b.MaskedBy xs c) (hd : c.MaskedBy xs d) : d = c := by
  apply eq_of_text_eq hd.source hd.size
  intro i hi
  rw [hd.size] at hi
  have hi' : i < b.texts.size := h.size ▸ hi
  have hsource := h.source
  by_cases hfirst : ∃ x ∈ xs, b.source.index x.1.start = i
  · rw [h.start i hi' hfirst, hd.start i hi (by rwa [hsource])]
  have hnone : ∀ x ∈ xs, b.source.index x.1.start ≠ i := fun x hx he ↦ hfirst ⟨x, hx, he⟩
  by_cases hheld : ∃ x ∈ xs, x.1.holds b.source i = true
  · rw [h.inside i hi' hheld hnone, hd.inside i hi (by rwa [hsource]) (by rwa [hsource])]
  · apply hd.outside i hi
    intro x hx
    rw [hsource, Bool.eq_false_iff]
    exact fun he ↦ hheld ⟨x, hx, he⟩

/-- A pass that cuts out the nodes `xs` of a nested tree. -/
theorem exists_masked {wanted : List Tree → Bool} (ht : t.Nested b.source)
    (hxs : xs.Sublist t.nodes)
    (hcuts : Masked.cuts wanted false t.nodes = xs.map Prod.fst) :
    ∃ m, passNodes (Masked.step wanted) ⟨b, false, 0⟩ t.nodes = .ok m ∧
      b.MaskedBy xs m.buffer ∧ m.count = xs.length := by
  have hstop : ∀ h ∈ xs.map Prod.fst, ∃ j, h.stop = some j := by
    intro h hh
    obtain ⟨x, hx, rfl⟩ := List.mem_map.1 hh
    obtain ⟨j, hj, -⟩ := ht.span x (hxs.subset hx)
    exact ⟨j, hj⟩
  obtain ⟨c, hc⟩ := exists_cutNodes b hstop
  refine ⟨_, Masked.passNodes_eq (by rwa [hcuts]), ?_, by simp [hcuts]⟩
  apply maskedBy_of_cutNodes hc (ht.pairwise_start.sublist hxs)
  intro x hx
  exact ht.holds_start x (hxs.subset hx)

/-- In a nested tree the selects but the first, or those of them that hold others, can be cut out:
each leaves one placeholder, at its first token, and what is in none of them is kept. To cut them
out again changes nothing. -/
theorem masks_exact (b : Buffer) (t : Tree) (ht : t.Nested b.source) :
    (∃ m, b.maskInner t = .ok m ∧ b.MaskedBy t.innerSelects m.buffer ∧
      m.count = t.innerSelects.length ∧
      ∃ n, m.buffer.maskInner t = .ok n ∧ n.buffer = m.buffer) ∧
    ∃ m, b.maskNested t = .ok m ∧ b.MaskedBy t.innerNonLeaves m.buffer ∧
      ∃ n, m.buffer.maskNested t = .ok n ∧ n.buffer = m.buffer := by
  constructor
  · obtain ⟨m, hm, hmasked, hcount⟩ := exists_masked ht t.innerSelects_sublist t.cuts_inner
    obtain ⟨n, hn, hagain, -⟩ :=
      exists_masked (hmasked.source ▸ ht) t.innerSelects_sublist t.cuts_inner
    exact ⟨m, hm, hmasked, hcount, n, hn, hmasked.eq_of_again hagain⟩
  · obtain ⟨m, hm, hmasked, -⟩ := exists_masked ht t.innerNonLeaves_sublist t.cuts_nonLeaves
    obtain ⟨n, hn, hagain, -⟩ :=
      exists_masked (hmasked.source ▸ ht) t.innerNonLeaves_sublist t.cuts_nonLeaves
    exact ⟨m, hm, hmasked, n, hn, hmasked.eq_of_again hagain⟩

end Buffer

/-- Selects in brackets, one inside another. -/
def Tree.selectsInBrackets : Tree :=
  .node ⟨.selectCore, 0, some 7, []⟩ [.leaf (.read 0) false, .leaf (.read 1) false,
    .node ⟨.selectCore, 2, some 6, []⟩ [.leaf (.read 2) false, .leaf (.read 3) false,
      .node ⟨.selectCore, 4, some 5, []⟩ [.leaf (.read 4) false, .leaf (.read 5) false],
      .leaf (.read 6) false],
    .leaf (.read 7) false]

def Buffer.selectsInBrackets : Buffer :=
  ⟨⟨#[], #[0, 1, 2, 3, 4, 5, 6, 7]⟩, #["SELECT", "(", "SELECT", "(", "SELECT", "*", ")", ")"]⟩

/-- The placeholder of the innermost select stands where the one around it has been cleared, unless
only the selects that hold others are cut out. -/
theorem Buffer.masks_exact_brackets :
    Tree.selectsInBrackets.Nested Buffer.selectsInBrackets.source ∧
    (∃ m, Buffer.selectsInBrackets.maskInner .selectsInBrackets = .ok m ∧ m.count = 2 ∧
      m.buffer.text 1 = "(" ∧ m.buffer.text 2 = "?" ∧ m.buffer.text 3 = "" ∧
      m.buffer.text 4 = "?" ∧ m.buffer.text 5 = "" ∧ m.buffer.text 7 = ")") ∧
    ∃ m, Buffer.selectsInBrackets.maskNested .selectsInBrackets = .ok m ∧
      m.buffer.text 1 = "(" ∧ m.buffer.text 2 = "?" ∧ m.buffer.text 4 = "" := by
  have hnested : Tree.selectsInBrackets.Nested Buffer.selectsInBrackets.source := by decide
  obtain ⟨⟨m, hm, hall, hcount, -⟩, n, hn, hkept, -⟩ := masks_exact _ _ hnested
  refine ⟨hnested, ⟨m, hm, hcount, ?_⟩, n, hn, ?_⟩
  · exact ⟨hall.outside 1 (by decide) (by decide), hall.start 2 (by decide) (by decide),
      hall.inside 3 (by decide) (by decide) (by decide), hall.start 4 (by decide) (by decide),
      hall.inside 5 (by decide) (by decide) (by decide), hall.outside 7 (by decide) (by decide)⟩
  · exact ⟨hkept.outside 1 (by decide) (by decide), hkept.start 2 (by decide) (by decide),
      hkept.inside 4 (by decide) (by decide) (by decide)⟩

end PlanCache
