import PlanCache.Proofs.Reading

/-!
Where the nodes of a parse stand: over tokens of the input, and those of literals over one literal.
-/

namespace PlanCache

structure Head.Placed (input : Input) (h : Head) : Prop where
  start_lt : h.start < input.size
  stop_lt : ∀ j, h.stop = some j → j < input.size
  literal : h.rule = .literalValue → ∀ j, h.stop = some j →
    j < h.start ∨ j = h.start ∧ literalKinds.contains (input.kind j) = true
  literal_start : h.rule = .literalValue → literalKinds.contains (input.kind h.start) = true

inductive Tree.Placed (input : Input) : Tree → Prop where
  | read {i : Nat} (error : Bool) : i < input.size → Placed input (.leaf (.read i) error)
  | missing (k : Kind) (error : Bool) : Placed input (.leaf (.missing k) error)
  | node {h : Head} {ts : List Tree} :
      h.Placed input → (∀ t ∈ ts, Placed input t) → Placed input (.node h ts)

/-- The input ends with the mark of its end. -/
structure Input.Closed (input : Input) : Prop where
  size_pos : 0 < input.size
  last : input.kind (input.size - 1) = .eof

structure Session.Placed (input : Input) (s : Session) : Prop where
  pos_lt : s.pos < input.size
  start_lt : s.draft.start < input.size
  children : ∀ t ∈ s.draft.children, t.Placed input

namespace Session

variable {input : Input} {s t : Session}

theorem Reads.start (h : Reads input s t) : t.draft.start = s.draft.start := by
  induction h with
  | trans _ _ ih₁ ih₂ => exact ih₂.trans ih₁
  | quiet _ _ hstart => exact hstart
  | consume | supply => rfl
  | call r site label => cases label <;> rfl
  | wrap => rfl

theorem Placed.stop_lt (h : s.Placed input) (j : Nat) (hj : s.previous = some j) :
    j < input.size := by
  have hp := h.pos_lt
  unfold previous at hj
  split at hj
  · cases hj
  · cases hj
    omega

theorem PastLiteral.stop {pos : Nat} (h : s.PastLiteral input pos) {j : Nat}
    (hj : s.previous = some j) :
    j < pos ∨ j = pos ∧ literalKinds.contains (input.kind j) = true := by
  unfold previous at hj
  split at hj
  · cases hj
  · cases hj
    obtain ⟨hk, h | h⟩ := h
    · exact .inl (by omega)
    · rw [h, Nat.add_sub_cancel]
      exact .inr ⟨rfl, hk⟩

theorem Placed.close (h : s.Placed input) (hl : s.draft.rule = .literalValue →
      s.PastLiteral input s.draft.start) : (s.draft.close s.previous).Placed input := by
  refine .node ⟨h.start_lt, h.stop_lt, fun hr j hj ↦ (hl hr).stop hj, fun hr ↦ (hl hr).1⟩
    fun t ht ↦ ?_
  exact h.children t (List.mem_reverse.1 ht)

theorem Placed.push (h : s.Placed input) {tree : Tree} (ht : tree.Placed input) :
    { s with draft := s.draft.push tree }.Placed input := by
  refine ⟨h.pos_lt, h.start_lt, fun t hm ↦ ?_⟩
  obtain rfl | hm := List.mem_cons.1 hm
  · exact ht
  · exact h.children t hm

theorem Placed.consume (hin : input.Closed) (h : s.Placed input) :
    (s.consume input).Placed input := by
  have hp := h.push (.read s.recovering h.pos_lt)
  refine ⟨?_, hp.start_lt, hp.children⟩
  change (if input.kind s.pos = .eof then s.pos else s.pos + 1) < input.size
  split
  · exact h.pos_lt
  · rename_i hk
    have hne : s.pos ≠ input.size - 1 := fun he ↦ hk (he ▸ hin.last)
    have hlt := h.pos_lt
    omega

theorem Placed.leave (h : s.Placed input) (ht : t.Placed input) (label : Option Label)
    (hc : (t.draft.close t.previous).Placed input) : (Session.leave s label t).Placed input := by
  have hp := h.push hc
  cases label <;> exact ⟨ht.pos_lt, hp.start_lt, hp.children⟩

theorem Reads.placed (hin : input.Closed) (h : Reads input s t) (hs : s.Placed input) :
    t.Placed input := by
  induction h with
  | trans _ _ ih₁ ih₂ => exact ih₂ (ih₁ hs)
  | quiet hpos _ hstart hchildren =>
    exact ⟨hpos ▸ hs.pos_lt, hstart ▸ hs.start_lt, hchildren ▸ hs.children⟩
  | consume s => exact hs.consume hin
  | supply s k => exact hs.push (.missing k true)
  | @call s t r site label h hl ih =>
    have ht : t.Placed input := ih ⟨hs.pos_lt, hs.pos_lt, fun _ hm ↦ by cases hm⟩
    refine hs.leave ht label (ht.close fun hr ↦ ?_)
    rw [h.start]
    exact hl (h.rule.symm.trans hr)
  | wrap s hr =>
    refine ⟨hs.pos_lt, hs.start_lt, fun t hm ↦ ?_⟩
    rw [List.mem_singleton.1 hm]
    exact hs.close fun hl ↦ absurd hl hr

end Session

theorem parseKinds_placed {a : Atlas} (hg : a.grammar.Tame) {rule : Rule}
    (hrule : rule ≠ .literalValue) {input : Input} (hin : input.Closed) :
    (parseKinds a rule input).tree.Placed input := by
  obtain ⟨t, ht, htree⟩ := parseKinds_reads hg hrule input
  rw [htree]
  refine (ht.placed hin ⟨hin.size_pos, hin.size_pos, fun _ hm ↦ by cases hm⟩).close fun hr ↦ ?_
  exact absurd (ht.rule.symm.trans hr) hrule

namespace Tree

theorem mem_nodesAll {x : Head × List Tree} {ts : List Tree} :
    x ∈ nodesAll ts ↔ ∃ t ∈ ts, x ∈ t.nodes := by
  induction ts with
  | nil => simp [nodesAll]
  | cons t ts ih => simp [nodesAll, ih]

theorem mem_leavesAll {l : Leaf × Bool} {ts : List Tree} :
    l ∈ leavesAll ts ↔ ∃ t ∈ ts, l ∈ t.leaves := by
  induction ts with
  | nil => simp [leavesAll]
  | cons t ts ih => simp [leavesAll, ih]

theorem Placed.leaves_lt {input : Input} {t : Tree} (h : t.Placed input) :
    ∀ i e, (.read i, e) ∈ t.leaves → i < input.size := by
  induction h with
  | read error hi =>
    intro i e hm
    simp only [leaves, List.mem_singleton, Prod.mk.injEq, Leaf.read.injEq] at hm
    omega
  | missing k error =>
    intro i e hm
    simp [leaves] at hm
  | node _ _ ih =>
    intro i e hm
    obtain ⟨t, ht, hm⟩ := mem_leavesAll.1 hm
    exact ih t ht i e hm

theorem Placed.nodes {input : Input} {t : Tree} (h : t.Placed input) :
    ∀ x ∈ t.nodes, x.1.Placed input ∧ ∀ i e, (.read i, e) ∈ leavesAll x.2 → i < input.size := by
  induction h with
  | read error hi =>
    intro x hm
    cases hm
  | missing k error =>
    intro x hm
    cases hm
  | @node h ts hh hts ih =>
    intro x hm
    obtain rfl | hm := List.mem_cons.1 hm
    · refine ⟨hh, fun i e hm ↦ ?_⟩
      obtain ⟨t, ht, hm⟩ := mem_leavesAll.1 hm
      exact (hts t ht).leaves_lt i e hm
    · obtain ⟨t, ht, hm⟩ := mem_nodesAll.1 hm
      exact ih t ht x hm

end Tree

end PlanCache
