import PlanCache.Proofs.Placement
import PlanCache.Query.Normal

/-!
The order of the nodes of a parse: the tokens of a node stand before those of the nodes to its
right. So the selects that hold no other follow each other without overlapping.
-/

namespace PlanCache

namespace Tree

mutual

/-- A tree stands over tokens from `a` up to `b`, and so do the trees below it, one after
another. -/
def Spans : Tree → Nat → Nat → Prop
  | .leaf _ _, a, b => a ≤ b
  | .node h ts, a, b => a ≤ h.start ∧ (∀ j, h.stop = some j → j < b) ∧ Row ts a b

/-- Trees stand one after another over tokens from `a` up to `b`. -/
def Row : List Tree → Nat → Nat → Prop
  | [], a, b => a ≤ b
  | t :: ts, a, b => ∃ m, t.Spans a m ∧ Row ts m b

end

theorem row_nil {a b : Nat} : Row [] a b ↔ a ≤ b := by rw [Row]

theorem row_cons {t : Tree} {ts : List Tree} {a b : Nat} :
    Row (t :: ts) a b ↔ ∃ m, t.Spans a m ∧ Row ts m b := by rw [Row]

theorem spans_leaf {l : Leaf} {error : Bool} {a b : Nat} : (leaf l error).Spans a b ↔ a ≤ b := by
  rw [Spans]

theorem spans_node {h : Head} {ts : List Tree} {a b : Nat} : (node h ts).Spans a b ↔
    a ≤ h.start ∧ (∀ j, h.stop = some j → j < b) ∧ Row ts a b := by rw [Spans]

mutual

theorem Spans.le : ∀ (t : Tree) {a b : Nat}, t.Spans a b → a ≤ b
  | .leaf _ _, _, _, h => spans_leaf.1 h
  | .node _ ts, _, _, h => Row.le ts (spans_node.1 h).2.2

theorem Row.le : ∀ (ts : List Tree) {a b : Nat}, Row ts a b → a ≤ b
  | [], _, _, h => row_nil.1 h
  | t :: ts, _, _, h => by
    obtain ⟨m, ht, hts⟩ := row_cons.1 h
    exact Nat.le_trans (Spans.le t ht) (Row.le ts hts)

end

mutual

theorem Spans.mono : ∀ (t : Tree) {a m b : Nat}, a ≤ m → t.Spans m b → t.Spans a b
  | .leaf _ _, _, _, _, ha, h => spans_leaf.2 (Nat.le_trans ha (spans_leaf.1 h))
  | .node _ ts, _, _, _, ha, h => by
    obtain ⟨hstart, hstop, hrow⟩ := spans_node.1 h
    exact spans_node.2 ⟨Nat.le_trans ha hstart, hstop, Row.mono ts ha hrow⟩

theorem Row.mono : ∀ (ts : List Tree) {a m b : Nat}, a ≤ m → Row ts m b → Row ts a b
  | [], _, _, _, ha, h => row_nil.2 (Nat.le_trans ha (row_nil.1 h))
  | t :: ts, _, _, _, ha, h => by
    obtain ⟨k, ht, hts⟩ := row_cons.1 h
    exact row_cons.2 ⟨k, Spans.mono t ha ht, hts⟩

end

theorem Row.concat {ts : List Tree} {t : Tree} {a m b : Nat} (h : Row ts a m) (ht : t.Spans m b) :
    Row (ts ++ [t]) a b := by
  induction ts generalizing a with
  | nil => exact row_cons.2 ⟨b, Spans.mono t (row_nil.1 h) ht, row_nil.2 (Nat.le_refl b)⟩
  | cons u ts ih =>
    obtain ⟨k, hu, hts⟩ := row_cons.1 h
    exact row_cons.2 ⟨k, hu, ih hts⟩

end Tree

namespace Session

variable {input : Input} {s t : Session}

/-- The children of the open node follow each other up to the next token. -/
def InRow (s : Session) : Prop := Tree.Row s.draft.children.reverse s.draft.start s.pos

theorem InRow.push (h : s.InRow) {tree : Tree} {pos : Nat} (ht : tree.Spans s.pos pos) :
    Tree.Row (s.draft.push tree).children.reverse s.draft.start pos := by
  have hrow := Tree.Row.concat h ht
  rwa [← List.reverse_cons] at hrow

theorem InRow.close (h : s.InRow) : (s.draft.close s.previous).Spans s.draft.start s.pos := by
  refine Tree.spans_node.2 ⟨Nat.le_refl _, fun j hj ↦ ?_, h⟩
  unfold previous at hj
  split at hj
  · cases hj
  · cases hj
    omega

theorem Reads.inRow (h : Reads input s t) (hs : s.InRow) : t.InRow := by
  induction h with
  | trans _ _ ih₁ ih₂ => exact ih₂ (ih₁ hs)
  | quiet hpos _ hstart hchildren =>
    rw [InRow, hpos, hstart, hchildren]
    exact hs
  | consume s =>
    have hleaf : (Tree.leaf (.read s.pos) s.recovering).Spans s.pos (s.consume input).pos := by
      apply Tree.spans_leaf.2
      change s.pos ≤ if input.kind s.pos = .eof then s.pos else s.pos + 1
      split <;> omega
    exact hs.push hleaf
  | supply s k => exact hs.push (Tree.spans_leaf.2 (Nat.le_refl _))
  | @call s t r site label h _ ih =>
    have hstart : t.draft.start = s.pos := h.start
    have ht : t.InRow := by
      apply ih
      exact Tree.row_nil.2 (Nat.le_refl s.pos)
    have hclosed := ht.close
    rw [hstart] at hclosed
    have hrow := hs.push hclosed
    cases label <;> exact hrow
  | wrap s _ => exact Tree.row_cons.2 ⟨s.pos, hs.close, Tree.row_nil.2 (Nat.le_refl s.pos)⟩

end Session

theorem parseKinds_spans {a : Atlas} (hg : a.grammar.Tame) {rule : Rule}
    (hrule : rule ≠ .literalValue) (input : Input) :
    ∃ b, (parseKinds a rule input).tree.Spans 0 b := by
  obtain ⟨t, ht, htree⟩ := parseKinds_reads hg hrule input
  have hrow : t.InRow := by
    apply ht.inRow
    exact Tree.row_nil.2 (Nat.le_refl 0)
  have hclosed := hrow.close
  rw [ht.start] at hclosed
  rw [htree]
  exact ⟨t.pos, hclosed⟩

namespace Tree

/-- A node stands before another. -/
def Before (h k : Head) : Prop := ∀ j, h.stop = some j → j < k.start

/-- The selects among nodes that hold no other. -/
def leafSelectsAll (ts : List Tree) : List Head :=
  ((nodesAll ts).filter fun x ↦ x.1.rule == .selectCore && !hasSelect x.2).map Prod.fst

theorem leafSelectsAll_cons (t : Tree) (ts : List Tree) :
    leafSelectsAll (t :: ts) = t.leafSelects ++ leafSelectsAll ts := by
  rw [leafSelectsAll, nodesAll, List.filter_append, List.map_append]
  rfl

/-- A select that holds no other is the only one of its tree. -/
theorem leafSelects_node (h : Head) (ts : List Tree) :
    leafSelects (.node h ts) =
      if h.rule = .selectCore ∧ hasSelect ts = false then [h] else leafSelectsAll ts := by
  rw [leafSelects, nodes, List.filter_cons]
  simp only [Bool.and_eq_true, beq_iff_eq, Bool.not_eq_true']
  split
  · rename_i hsel
    have hnone : ((nodesAll ts).filter fun x ↦ x.1.rule == .selectCore && !hasSelect x.2) = [] := by
      rw [List.filter_eq_nil_iff]
      intro x hx hs
      have hall := List.any_eq_false.1 hsel.2 x hx
      rw [Bool.and_eq_true] at hs
      exact hall hs.1
    rw [hnone]
    rfl
  · rfl

mutual

theorem Spans.leafSelects : ∀ (t : Tree) {a b : Nat}, t.Spans a b →
    (∀ h ∈ t.leafSelects, a ≤ h.start ∧ ∀ j, h.stop = some j → j < b) ∧
      t.leafSelects.Pairwise Before
  | .leaf _ _, _, _, _ => ⟨nofun, .nil⟩
  | .node h ts, a, b, hs => by
    obtain ⟨hstart, hstop, hrow⟩ := spans_node.1 hs
    rw [leafSelects_node]
    split
    · simpa using ⟨hstart, hstop⟩
    · exact Row.leafSelects ts hrow

theorem Row.leafSelects : ∀ (ts : List Tree) {a b : Nat}, Row ts a b →
    (∀ h ∈ leafSelectsAll ts, a ≤ h.start ∧ ∀ j, h.stop = some j → j < b) ∧
      (leafSelectsAll ts).Pairwise Before
  | [], _, _, _ => ⟨nofun, .nil⟩
  | t :: ts, a, b, hr => by
    obtain ⟨m, ht, hts⟩ := row_cons.1 hr
    obtain ⟨hbound, hpair⟩ := Spans.leafSelects t ht
    obtain ⟨hbound', hpair'⟩ := Row.leafSelects ts hts
    rw [leafSelectsAll_cons]
    refine ⟨fun h hh ↦ ?_, List.pairwise_append.2 ⟨hpair, hpair', fun h hh k hk j hj ↦ ?_⟩⟩
    · rcases List.mem_append.1 hh with hh | hh
      · refine ⟨(hbound h hh).1, fun j hj ↦ ?_⟩
        exact Nat.lt_of_lt_of_le ((hbound h hh).2 j hj) (Row.le ts hts)
      · exact ⟨Nat.le_trans (Spans.le t ht) (hbound' h hh).1, (hbound' h hh).2⟩
    · exact Nat.lt_of_lt_of_le ((hbound h hh).2 j hj) (hbound' k hk).1

end

end Tree

/-- The selects of a query that hold no other stand one after another. -/
theorem leafSelects_pairwise (sql : String) :
    (Buffer.ofString sql).2.leafSelects.Pairwise Tree.Before := by
  have hspans : ∃ b, (Buffer.ofString sql).2.Spans 0 b :=
    parseKinds_spans Grammar.sql_tame (by decide) (Source.ofString sql).input
  obtain ⟨b, hb⟩ := hspans
  exact (Tree.Spans.leafSelects _ hb).2

end PlanCache
